import LetFn.Program
import LetFn.Program.ParseError

/-!
# Reading statements

Rules over the words of a text, without its end token: the empty list stands for the end. A rule
takes words from the front, or fails with what is left from the offending word on.

* `Rule`: a rule; each success leaves fewer words, so every loop over words ends.
* `Rule.expr`: an expression whose operators bind tighter than `floor`, nested at most `levels` deep.
* `Rule.statement`: a statement with its optional semicolon.

Operators of one strength group to the left: the right operand is read with the operator's own
strength as its floor.
-/

namespace LetFn

open Token (Kind)

/-! ## Rules -/

/-- A value read, and fewer than `bound` words after it. -/
structure Parsed (α : Type) (bound : Nat) where
  value : α
  rest : List Token
  rest_lt : rest.length < bound

/-- A cause, and the words from the offending one on. -/
structure Failure where
  fault : ParseFault
  rest : List Token

/-- A rule takes at least one word from the front. -/
abbrev Rule (α : Type) := (ts : List Token) → Except Failure (Parsed α ts.length)

/-- The class of the next word. -/
def nextKind : List Token → Kind
  | [] => .eof
  | t :: _ => t.kind

/-- One word of a given class. -/
def expect (wanted : Kind) : Rule Token
  | [] => .error ⟨.unexpected wanted .eof, []⟩
  | t :: ts =>
    if t.kind = wanted then .ok ⟨t, ts, Nat.lt_succ_self _⟩
    else .error ⟨.unexpected wanted t.kind, t :: ts⟩

/-- The words after a semicolon that may come first. -/
def dropSemicolon : List Token → List Token
  | [] => []
  | t :: ts => if t.kind = .semicolon then ts else t :: ts

theorem dropSemicolon_length_le (ts : List Token) : (dropSemicolon ts).length ≤ ts.length := by
  unfold dropSemicolon
  split
  · simp
  · split <;> simp

/-- The value of an integer word, if 64 bits with sign hold it. -/
def Token.integer? (t : Token) : Option Int64 :=
  let n := Nat.ofDigitChars 10 t.text.toList 0
  if n < 0x8000000000000000 then some (Int64.ofNat n) else none

/-! ## Strength of operators -/

/-- How tightly an operator holds its operands. -/
def BinaryOp.strength : BinaryOp → Nat
  | equal | notEqual => 1
  | less | greater => 2
  | add | sub => 3
  | mul | div => 4

/-- Signs in front of an operand hold tighter than any operator between two. -/
def unaryStrength : Nat := 5

/-- Arguments hold tightest. -/
def callStrength : Nat := 6

/-- What continues an expression after an operand. -/
inductive Link
  | binary (op : BinaryOp)
  | call

def Link.strength : Link → Nat
  | binary op => op.strength
  | call => callStrength

def Link.ofKind? : Kind → Option Link
  | .equal => some (.binary .equal)
  | .notEqual => some (.binary .notEqual)
  | .less => some (.binary .less)
  | .greater => some (.binary .greater)
  | .plus => some (.binary .add)
  | .minus => some (.binary .sub)
  | .star => some (.binary .mul)
  | .slash => some (.binary .div)
  | .leftParen => some .call
  | _ => none

/-- How deep expressions may nest, each one that is read inside another counted. -/
def nestingLimit : Nat := 1000

/-! ## Expressions and statements -/

namespace Rule

section

variable {α : Type} (item : Rule α)

/-- The items after one that ends, up to the closing bracket. -/
def itemsTo {bound : Nat} (done : List α) (ts : List Token) (h : ts.length < bound) :
    Except Failure (Parsed (List α) bound) :=
  match ts with
  | [] => .error ⟨.unexpected .rightParen .eof, []⟩
  | t :: rest =>
    if t.kind = .comma then
      match item rest with
      | .error f => .error f
      | .ok ⟨a, after, ha⟩ =>
        itemsTo (a :: done) after (Nat.lt_trans ha (Nat.lt_trans (Nat.lt_succ_self _) h))
    else if t.kind = .rightParen then
      .ok ⟨done.reverse, rest, Nat.lt_trans (Nat.lt_succ_self _) h⟩
    else .error ⟨.unexpected .rightParen t.kind, t :: rest⟩
termination_by ts.length
decreasing_by exact Nat.lt_trans ha (Nat.lt_succ_self _)

/-- Items parted by commas after an opening bracket, up to the closing one. -/
def separated : Rule (List α) := fun ts =>
  if nextKind ts = .rightParen then
    (expect .rightParen ts).map fun p => ⟨[], p.rest, p.rest_lt⟩
  else do
    let ⟨a, rest, h⟩ ← item ts
    itemsTo item [a] rest h

end

section

/- The rule for the expressions inside, by their floor. -/
variable (sub : Nat → Rule Expr)

/-- A statement with its optional semicolon. -/
def statement : Rule Stmt
  | [] => (sub 0 []).map fun p => ⟨.expr p.value, p.rest, p.rest_lt⟩
  | t :: ts =>
    match t.kind with
    | .letWord => do
      let ⟨name, afterName, _⟩ ← expect .name ts
      let ⟨_, afterSign, _⟩ ← expect .assign afterName
      let ⟨e, rest, _⟩ ← sub 0 afterSign
      return ⟨.bind name.text e, dropSemicolon rest, by
        have := dropSemicolon_length_le rest; simp only [List.length_cons]; omega⟩
    | .returnWord => do
      let ⟨e, rest, _⟩ ← sub 0 ts
      return ⟨.ret e, dropSemicolon rest, by
        have := dropSemicolon_length_le rest; simp only [List.length_cons]; omega⟩
    | _ => do
      let ⟨e, rest, _⟩ ← sub 0 (t :: ts)
      return ⟨.expr e, dropSemicolon rest, by
        have := dropSemicolon_length_le rest; omega⟩

/-- The statements of a block up to its closing brace, after those in `done`. -/
def statementsTo {bound : Nat} (done : Block) (ts : List Token) (h : ts.length < bound) :
    Except Failure (Parsed Block bound) :=
  match ts with
  | [] => .error ⟨.unexpected .rightBrace .eof, []⟩
  | t :: rest =>
    if t.kind = .rightBrace then
      .ok ⟨done.reverse, rest, Nat.lt_trans (Nat.lt_succ_self _) h⟩
    else
      match statement sub (t :: rest) with
      | .error f => .error f
      | .ok ⟨s, after, hs⟩ => statementsTo (s :: done) after (Nat.lt_trans hs h)
termination_by ts.length
decreasing_by exact hs

/-- A block in braces. -/
def block : Rule Block := fun ts => do
  let ⟨_, rest, h⟩ ← expect .leftBrace ts
  statementsTo sub [] rest h

/-- The operators and calls that follow an operand and bind tighter than `floor`. -/
def linksAfter (floor : Nat) {bound : Nat} (left : Expr) (ts : List Token)
    (h : ts.length < bound) : Except Failure (Parsed Expr bound) :=
  match ts with
  | [] => .ok ⟨left, [], h⟩
  | t :: rest =>
    match Link.ofKind? t.kind with
    | none => .ok ⟨left, t :: rest, h⟩
    | some link =>
      if floor < link.strength then
        match link with
        | .binary op =>
          match sub op.strength rest with
          | .error f => .error f
          | .ok ⟨right, after, hr⟩ =>
            linksAfter floor (.binary op left right) after
              (Nat.lt_trans hr (Nat.lt_trans (Nat.lt_succ_self _) h))
        | .call =>
          match separated (sub 0) rest with
          | .error f => .error f
          | .ok ⟨args, after, ha⟩ =>
            linksAfter floor (.call left args) after
              (Nat.lt_trans ha (Nat.lt_trans (Nat.lt_succ_self _) h))
      else .ok ⟨left, t :: rest, h⟩
termination_by ts.length
decreasing_by
  · exact Nat.lt_trans hr (Nat.lt_succ_self _)
  · exact Nat.lt_trans ha (Nat.lt_succ_self _)

/-- A condition after its keyword. -/
def conditional : Rule Expr := fun ts => do
  let ⟨_, r₁, _⟩ ← expect .leftParen ts
  let ⟨test, r₂, _⟩ ← sub 0 r₁
  let ⟨_, r₃, _⟩ ← expect .rightParen r₂
  let ⟨yes, r₄, _⟩ ← block sub r₃
  if nextKind r₄ = .elseWord then
    let ⟨_, r₅, _⟩ ← expect .elseWord r₄
    let ⟨no, r₆, _⟩ ← block sub r₅
    return ⟨.cond test yes (some no), r₆, by omega⟩
  else return ⟨.cond test yes none, r₄, by omega⟩

end

/-- A parameter of a function. -/
def param : Rule String := fun ts =>
  (expect .name ts).map fun p => ⟨p.value.text, p.rest, p.rest_lt⟩

section

variable (sub : Nat → Rule Expr)

/-- A function after its keyword. -/
def function : Rule Expr := fun ts => do
  let ⟨_, r₁, _⟩ ← expect .leftParen ts
  let ⟨xs, r₂, _⟩ ← separated param r₁
  let ⟨body, r₃, _⟩ ← block sub r₂
  return ⟨.fn xs body, r₃, by omega⟩

/-- An expression up to the first operator between two operands. -/
def operand : Rule Expr
  | [] => .error ⟨.noOperand .eof, []⟩
  | t :: ts =>
    match t.kind with
    | .name => .ok ⟨.name t.text, ts, Nat.lt_succ_self _⟩
    | .int =>
      match t.integer? with
      | some n => .ok ⟨.int n, ts, Nat.lt_succ_self _⟩
      | none => .error ⟨.oversizedInteger t.text, t :: ts⟩
    | .string => .ok ⟨.str t.text, ts, Nat.lt_succ_self _⟩
    | .trueWord => .ok ⟨.bool true, ts, Nat.lt_succ_self _⟩
    | .falseWord => .ok ⟨.bool false, ts, Nat.lt_succ_self _⟩
    | .bang => do
      let ⟨e, rest, h⟩ ← sub unaryStrength ts
      return ⟨.unary .not e, rest, Nat.lt_trans h (Nat.lt_succ_self _)⟩
    | .minus => do
      let ⟨e, rest, h⟩ ← sub unaryStrength ts
      return ⟨.unary .negate e, rest, Nat.lt_trans h (Nat.lt_succ_self _)⟩
    | .leftParen => do
      let ⟨e, inside, h⟩ ← sub 0 ts
      let ⟨_, rest, h'⟩ ← expect .rightParen inside
      return ⟨e, rest, Nat.lt_trans h' (Nat.lt_trans h (Nat.lt_succ_self _))⟩
    | .ifWord => do
      let ⟨e, rest, h⟩ ← conditional sub ts
      return ⟨e, rest, Nat.lt_trans h (Nat.lt_succ_self _)⟩
    | .fnWord => do
      let ⟨e, rest, h⟩ ← function sub ts
      return ⟨e, rest, Nat.lt_trans h (Nat.lt_succ_self _)⟩
    | k => .error ⟨.noOperand k, t :: ts⟩

end

/-- An expression whose operators bind tighter than `floor`, in what is left of the nesting. -/
def expr : (levels floor : Nat) → Rule Expr
  | 0, _, ts => .error ⟨.tooDeep nestingLimit, ts⟩
  | levels + 1, floor, ts => do
    let ⟨left, rest, h⟩ ← operand (expr levels) ts
    linksAfter (expr levels) floor left rest h

end Rule

end LetFn
