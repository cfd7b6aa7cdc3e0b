import LetFn.Token

/-!
# Splitting a text into tokens

A lexer stands at a place in a text and gives one token at a time: it skips blanks and takes the
longest lexeme that some class matches. A character that no class matches is an illegal token of
its own, a quote that is never closed takes the rest of the text with it. After the last word
comes one end token, then nothing.

* `Lexeme.scan`: the lexeme at the head of a text; `scan_append` says that it and what follows
  make up the text, `scan_chars_ne_nil` that it is never empty.
* `Lines`: the lines of a text, counted stretch by stretch in its bytes; `Lines.position` is the
  place that they have come to.
* `Lexer.next?`: the next token and the lexer after it; `next?_remaining_lt` bounds the run.
* `Lexer.tokens`: all tokens a lexer still gives.
-/

namespace LetFn

open Token (Kind)

/-! ## Characters -/

/-- The characters between tokens: space, tab, carriage return, line feed and form feed. -/
def isBlank (c : Char) : Bool :=
  c = ' ' || c = '\t' || c = '\r' || c = '\n' || c = '\x0c'

def isNameStart (c : Char) : Bool :=
  ('a' ≤ c && c ≤ 'z') || ('A' ≤ c && c ≤ 'Z') || c = '_'

def isDecimalDigit (c : Char) : Bool := '0' ≤ c && c ≤ '9'

def isNameChar (c : Char) : Bool := isNameStart c || isDecimalDigit c

/-! ## Lexemes -/

/-- A stretch of text with its class. -/
structure Lexeme where
  kind : Kind
  chars : List Char
deriving DecidableEq, Repr

namespace Lexeme

/-- The class of a word: a keyword's own, else that of names. -/
def wordKind (word : List Char) : Kind :=
  if word = ['l', 'e', 't'] then .letWord
  else if word = ['f', 'n'] then .fnWord
  else if word = ['i', 'f'] then .ifWord
  else if word = ['e', 'l', 's', 'e'] then .elseWord
  else if word = ['r', 'e', 't', 'u', 'r', 'n'] then .returnWord
  else if word = ['t', 'r', 'u', 'e'] then .trueWord
  else if word = ['f', 'a', 'l', 's', 'e'] then .falseWord
  else .name

/-- The class of a sign of one character. -/
def signKind (c : Char) : Kind :=
  match c with
  | '=' => .assign
  | '+' => .plus
  | '-' => .minus
  | '!' => .bang
  | '*' => .star
  | '/' => .slash
  | '<' => .less
  | '>' => .greater
  | ',' => .comma
  | ';' => .semicolon
  | '(' => .leftParen
  | ')' => .rightParen
  | '{' => .leftBrace
  | '}' => .rightBrace
  | _ => .illegal

/-- A sign, of two characters where the second one joins the first. -/
def sign (c : Char) (cs : List Char) : Lexeme × List Char :=
  match c, cs with
  | '=', '=' :: rest => (⟨.equal, ['=', '=']⟩, rest)
  | '!', '=' :: rest => (⟨.notEqual, ['!', '=']⟩, rest)
  | _, _ => (⟨signKind c, [c]⟩, cs)

/-- A string whose opening quote stands before `cs`. -/
def quoted (cs : List Char) : Lexeme × List Char :=
  match cs.dropWhile (· ≠ '"') with
  | [] => (⟨.illegal, '"' :: cs⟩, [])
  | quote :: rest => (⟨.string, '"' :: cs.takeWhile (· ≠ '"') ++ [quote]⟩, rest)

/-- The lexeme at the head of the text `c :: cs`, and the text after it. -/
def scan (c : Char) (cs : List Char) : Lexeme × List Char :=
  if isNameStart c then
    let word := c :: cs.takeWhile isNameChar
    (⟨wordKind word, word⟩, cs.dropWhile isNameChar)
  else if isDecimalDigit c then
    (⟨.int, c :: cs.takeWhile isDecimalDigit⟩, cs.dropWhile isDecimalDigit)
  else if c = '"' then quoted cs
  else sign c cs

/-- What a token keeps of its lexeme: a string goes without its quotes. -/
def literal (x : Lexeme) : String :=
  String.ofList (if x.kind = .string then x.chars.tail.dropLast else x.chars)

theorem scan_append (c : Char) (cs : List Char) :
    (scan c cs).1.chars ++ (scan c cs).2 = c :: cs := by
  unfold scan
  split
  · simp
  split
  · simp
  split
  · next h =>
    subst h
    have hs := List.takeWhile_append_dropWhile (p := (· ≠ '"')) (l := cs)
    unfold quoted
    split
    · simp
    · next q rest hq => rw [hq] at hs; simpa using hs
  · unfold sign
    split <;> simp

theorem scan_chars_ne_nil (c : Char) (cs : List Char) : (scan c cs).1.chars ≠ [] := by
  unfold scan quoted sign
  repeat' split
  all_goals simp

theorem scan_length_le (c : Char) (cs : List Char) : (scan c cs).2.length ≤ cs.length := by
  have h := congrArg List.length (scan_append c cs)
  have := List.length_pos_iff.2 (scan_chars_ne_nil c cs)
  simp only [List.length_append, List.length_cons] at h
  omega

end Lexeme

/-! ## Lines -/

/-- How many bytes some characters take in UTF-8. -/
def byteLength (cs : List Char) : Nat := (String.ofList cs).utf8ByteSize

/-- The text between two offsets. Offsets count bytes. -/
def slice (source : String) (start stop : Nat) : String :=
  String.Pos.Raw.extract source ⟨start⟩ ⟨stop⟩

/-- How far the lines of a text are counted. -/
structure Lines where
  /-- The offset up to which they are. -/
  scanned : Nat
  line : Nat
  /-- The offset that the line starts at. -/
  lineStart : Nat
deriving DecidableEq, Repr

namespace Lines

/-- Before the first character. -/
def start : Lines := ⟨0, 1, 0⟩

/-- A byte with its offset is counted: a line feed, the byte 10, starts a line behind it. -/
def count (n : Lines) (b : UInt8 × Nat) : Lines :=
  if b.1 = 10 then { n with line := n.line + 1, lineStart := b.2 + 1 } else n

/-- The lines counted on, byte by byte, up to an offset. -/
def upTo (n : Lines) (source : String) (offset : Nat) : Lines :=
  let bytes := (slice source n.scanned offset).toUTF8.data.toList
  { (bytes.zipIdx n.scanned).foldl count n with scanned := offset }

/-- The place up to which lines are counted. A column counts characters. -/
def position (n : Lines) (source : String) : Position :=
  ⟨n.line, (slice source n.lineStart n.scanned).length + 1⟩

end Lines

/-! ## Lexers -/

/-- What is left of a text, the offset it starts at, and whether the end token was given. Lines are
counted up to the last token that was given. -/
structure Lexer where
  source : String
  rest : List Char
  offset : Nat
  lines : Lines
  finished : Bool

namespace Lexer

/-- A lexer before the first character. -/
def ofText (text : String) : Lexer := ⟨text, text.toList, 0, .start, false⟩

/-- The next token, with the lexer after it. -/
def next? (l : Lexer) : Option (Token × Lexer) :=
  if l.finished then none
  else
    match l.rest.dropWhile isBlank with
    | [] =>
      let lines := l.lines.upTo l.source l.source.utf8ByteSize
      some (⟨.eof, "", lines.position l.source⟩, { l with rest := [], lines, finished := true })
    | c :: cs =>
      let (x, rest) := Lexeme.scan c cs
      let start := l.offset + byteLength (l.rest.takeWhile isBlank)
      let lines := l.lines.upTo l.source start
      some (⟨x.kind, x.literal, lines.position l.source⟩,
        { l with rest, offset := start + byteLength x.chars, lines })

/-- A bound on the tokens still to come. -/
def remaining (l : Lexer) : Nat := if l.finished then 0 else l.rest.length + 1

theorem next?_remaining_lt {l l' : Lexer} {t : Token} (h : l.next? = some (t, l')) :
    l'.remaining < l.remaining := by
  unfold next? at h
  split at h
  · simp at h
  · next hf =>
    have hd := (List.dropWhile_suffix isBlank (l := l.rest)).length_le
    dsimp only at h
    split at h
    · obtain ⟨-, rfl⟩ := Prod.mk.inj (Option.some.inj h)
      simp [remaining, hf]
    · next c cs hc =>
      obtain ⟨-, rfl⟩ := Prod.mk.inj (Option.some.inj h)
      have hs := Lexeme.scan_length_le c cs
      simp only [hc, List.length_cons] at hd
      simp only [remaining, hf]
      simp
      omega

/-- The tokens still to come, after those in `done`, which are in reverse order. -/
def tokensAfter (done : List Token) (l : Lexer) : List Token :=
  match _h : l.next? with
  | none => done.reverse
  | some (t, l') => tokensAfter (t :: done) l'
termination_by l.remaining
decreasing_by exact next?_remaining_lt _h

/-- All tokens still to come, the end token included. -/
def tokens (l : Lexer) : List Token := l.tokensAfter []

theorem tokensAfter_eq (done : List Token) (l : Lexer) :
    l.tokensAfter done = done.reverse ++ l.tokens := by
  unfold tokens
  suffices h : ∀ n (l : Lexer), l.remaining ≤ n → ∀ done more : List Token,
      l.tokensAfter (done ++ more) = more.reverse ++ l.tokensAfter done by
    simpa using h _ l (Nat.le_refl _) [] done
  intro n
  induction n with
  | zero =>
    intro l hl done more
    unfold tokensAfter
    split
    · simp
    · next h => exact absurd (next?_remaining_lt h) (by omega)
  | succ n ih =>
    intro l hl done more
    conv => lhs; unfold tokensAfter
    conv => rhs; unfold tokensAfter
    split
    · simp
    · next t l' h =>
      have hlt := next?_remaining_lt h
      exact ih l' (by omega) (t :: done) more

theorem tokens_of_next?_none {l : Lexer} (h : l.next? = none) : l.tokens = [] := by
  unfold tokens tokensAfter
  split
  · rfl
  · next h' => simp [h] at h'

theorem tokens_of_next?_some {l l' : Lexer} {t : Token} (h : l.next? = some (t, l')) :
    l.tokens = t :: l'.tokens := by
  unfold tokens
  rw [tokensAfter]
  split
  · next h' => simp [h] at h'
  · next t' l'' h' =>
    obtain ⟨rfl, rfl⟩ := Prod.mk.inj (Option.some.inj (h.symm.trans h'))
    simpa [tokens] using tokensAfter_eq [t] l'

theorem tokens_ne_nil {l : Lexer} (h : l.finished = false) : l.tokens ≠ [] := by
  cases hn : l.next? with
  | none =>
    unfold next? at hn
    simp only [h, Bool.false_eq_true, if_false] at hn
    split at hn <;> simp at hn
  | some p => simp [tokens_of_next?_some hn]

theorem tokens_ofText_ne_nil (text : String) : (ofText text).tokens ≠ [] := tokens_ne_nil rfl

/-- The lexer after `n` tokens, or after the last one if there are fewer. -/
def skip : Nat → Lexer → Lexer
  | 0, l => l
  | n + 1, l =>
    match l.next? with
    | none => l
    | some (_, l') => skip n l'

end Lexer

end LetFn
