import LetFn.Program.Parser
import LetFn.Token.Lexer

/-!
# Reading whole texts

A text is read statement by statement. A broken statement is reported once, at the offending
token, and reading goes on after the first semicolon outside the braces that it opened.

* `recover`: the words from the end of a broken statement on.
* `outcomes`: what each statement of a text came to.
* `Program.ofWords`: the program, or every error in order; `Program.ofTokens?` takes a lexer's
  tokens, `Program.parse` a text.
-/

namespace LetFn

/-! ## Recovery -/

/-- The braces open after some words, a closing one counted against any that was opened. -/
def braceDepth (depth : Int) : List Token → Int
  | [] => depth
  | t :: ts =>
    match t.kind with
    | .leftBrace => braceDepth (depth + 1) ts
    | .rightBrace => braceDepth (depth - 1) ts
    | _ => braceDepth depth ts

/-- The words from the first semicolon outside braces on, `depth` of them being open. -/
def fromSemicolon (depth : Int) : List Token → List Token
  | [] => []
  | t :: ts =>
    match t.kind with
    | .semicolon => if depth ≤ 0 then t :: ts else fromSemicolon depth ts
    | .leftBrace => fromSemicolon (depth + 1) ts
    | .rightBrace => fromSemicolon (depth - 1) ts
    | _ => fromSemicolon depth ts

/-- The words from the end of a statement on that starts `ts` and fails before the last
`left` words. -/
def recover (ts : List Token) (left : Nat) : List Token :=
  let (used, ahead) := ts.splitAt (ts.length - left)
  fromSemicolon (braceDepth 0 used) ahead

theorem fromSemicolon_length_le (depth : Int) (ts : List Token) :
    (fromSemicolon depth ts).length ≤ ts.length := by
  induction ts generalizing depth with
  | nil => simp [fromSemicolon]
  | cons t ts ih =>
    unfold fromSemicolon
    split
    · split
      · exact Nat.le_refl _
      · exact Nat.le_succ_of_le (ih _)
    all_goals exact Nat.le_succ_of_le (ih _)

theorem recover_length_le (ts : List Token) (left : Nat) :
    (recover ts left).length ≤ ts.length := by
  have := fromSemicolon_length_le (braceDepth 0 (ts.take (ts.length - left)))
    (ts.drop (ts.length - left))
  simp only [recover, List.splitAt_eq]
  simp only [List.length_drop] at this
  omega

/-! ## Statement by statement -/

/-- The report of a failure in a text that ends at `stop`. -/
def Failure.error (f : Failure) (stop : Position) : ParseError :=
  ⟨f.fault, match f.rest with
    | [] => stop
    | t :: _ => t.position⟩

/-- What the statements of a text came to, after those in `done`, which are in reverse order. -/
def outcomesAfter (stop : Position) (done : List (Except ParseError Stmt)) (ts : List Token) :
    List (Except ParseError Stmt) :=
  match ts with
  | [] => done.reverse
  | t :: rest =>
    match Rule.statement (Rule.expr nestingLimit) (t :: rest) with
    | .ok ⟨s, after, _⟩ => outcomesAfter stop (.ok s :: done) after
    | .error f =>
      outcomesAfter stop (.error (f.error stop) :: done) (recover (t :: rest) f.rest.length).tail
termination_by ts.length
decreasing_by
  · assumption
  · have := recover_length_le (t :: rest) f.rest.length
    simp only [List.length_tail, List.length_cons] at *
    omega

/-- What the statements of a text came to that ends at `stop`. -/
def outcomes (stop : Position) (ts : List Token) : List (Except ParseError Stmt) :=
  outcomesAfter stop [] ts

namespace Program

/-- The program of some words that end at `stop`, or its errors. -/
def ofWords (ts : List Token) (stop : Position) : Except (List ParseError) Program :=
  let read := outcomes stop ts
  match read.filterMap fun | .error e => some e | .ok _ => none with
  | [] => .ok ⟨read.filterMap Except.toOption⟩
  | es => .error es

/-- The program of a lexer's tokens, the last of which is the end token. A lexer that already
gave its end token leaves nothing to read. -/
def ofTokens? (ts : List Token) : Option (Except (List ParseError) Program) :=
  ts.getLast?.map fun stop => ofWords ts.dropLast stop.position

/-- The program of a text, or its errors. -/
def parse (text : String) : Except (List ParseError) Program :=
  let ts := (Lexer.ofText text).tokens
  ofWords ts.dropLast (ts.getLast (Lexer.tokens_ofText_ne_nil text)).position

theorem ofTokens?_ofText (text : String) :
    ofTokens? (Lexer.ofText text).tokens = some (parse text) := by
  simp [ofTokens?, parse, List.getLast?_eq_some_getLast (Lexer.tokens_ofText_ne_nil text)]

end Program

end LetFn
