import LetFn.Token.Lexer

/-!
# Pieces of JSON text

Readers for the parts of a JSON text that hold no other values. Each takes the text where its part
begins and gives the part and the text after it.

* `Flaw`: why a text is no JSON: it goes wrong, or it ends too early.
* `word`, `string`, `number`: constants, strings and numbers.
* `floatOf`: the floating point number of the digits kept and a power of ten. It takes one rounding
  for the digits and one for the power, so it may miss the nearest number by a few units.
-/

namespace LetFn.Json

/-- Why a text is no JSON. -/
inductive Flaw
  | malformed
  | unfinished
deriving DecidableEq, Repr

abbrev Reader (α : Type) := List Char → Except Flaw (α × List Char)

/-- The text after the blanks of JSON, which count no form feed. -/
def skipBlanks (cs : List Char) : List Char :=
  cs.dropWhile fun c => c = ' ' || c = '\n' || c = '\t' || c = '\r'

/-- The rest of a constant. -/
def word (expected : List Char) (cs : List Char) : Except Flaw (List Char) :=
  match expected, cs with
  | [], cs => .ok cs
  | _ :: _, [] => .error .unfinished
  | x :: xs, c :: cs => if c = x then word xs cs else .error .malformed

/-! ## Strings -/

/-- The value of a hexadecimal digit. -/
def hexDigit? (c : Char) : Option Nat :=
  if '0' ≤ c ∧ c ≤ '9' then some (c.toNat - '0'.toNat)
  else if 'a' ≤ c ∧ c ≤ 'f' then some (c.toNat - 'a'.toNat + 10)
  else if 'A' ≤ c ∧ c ≤ 'F' then some (c.toNat - 'A'.toNat + 10)
  else none

/-- The unit that the next four digits write. Four bytes have to be left, whatever they hold. -/
def hexUnit (cs : List Char) : Except Flaw Nat :=
  if (String.ofList (cs.take 4)).utf8ByteSize < 4 then .error .unfinished
  else
    match (cs.take 4).mapM hexDigit? with
    | some ds => .ok (ds.foldl (fun n d => 16 * n + d) 0)
    | none => .error .malformed

def isHighSurrogate (n : Nat) : Bool := 0xd800 ≤ n && n ≤ 0xdbff

def isLowSurrogate (n : Nat) : Bool := 0xdc00 ≤ n && n ≤ 0xdfff

/-- The character that an escape of code units writes, and how many characters the escape takes
after its backslash. A character outside the first plane takes two units. -/
def unicodeEscape (cs : List Char) : Except Flaw (Char × Nat) := do
  let n ← hexUnit cs
  if isLowSurrogate n then .error .malformed
  else if isHighSurrogate n then
    match cs.drop 4 with
    | [] | ['\\'] => .error .unfinished
    | '\\' :: 'u' :: rest => do
      let m ← hexUnit rest
      if isLowSurrogate m then
        .ok (Char.ofNat (0x10000 + (n - 0xd800) * 0x400 + (m - 0xdc00)), 11)
      else .error .malformed
    | _ => .error .malformed
  else .ok (Char.ofNat n, 5)

/-- The character that an escape writes, and how many characters it takes after its backslash. -/
def escape : List Char → Except Flaw (Char × Nat)
  | [] => .error .unfinished
  | '"' :: _ => .ok ('"', 1)
  | '\\' :: _ => .ok ('\\', 1)
  | '/' :: _ => .ok ('/', 1)
  | 'b' :: _ => .ok ('\x08', 1)
  | 'f' :: _ => .ok ('\x0c', 1)
  | 'n' :: _ => .ok ('\n', 1)
  | 'r' :: _ => .ok ('\r', 1)
  | 't' :: _ => .ok ('\t', 1)
  | 'u' :: cs => unicodeEscape cs
  | _ :: _ => .error .malformed

/-- A string after some characters of it, which are in reverse order. -/
def stringAfter (done : List Char) : Reader String
  | [] => .error .unfinished
  | c :: cs =>
    if c = '"' then .ok (String.ofList done.reverse, cs)
    else if c < ' ' then .error .malformed
    else if c = '\\' then
      match escape cs with
      | .error f => .error f
      | .ok (d, n) => stringAfter (d :: done) (cs.drop n)
    else stringAfter (c :: done) cs
termination_by cs => cs.length
decreasing_by all_goals simp only [List.length_drop, List.length_cons]; omega

/-- A string after its opening quote. -/
def string : Reader String := stringAfter []

/-! ## Numbers -/

/-- Numbers as they are told apart: `negative n` is the integer `-n`. -/
inductive Number
  | natural (n : Nat)
  | negative (n : Nat)
  | float (x : Float)

def digitValue (c : Char) : Nat := c.toNat - '0'.toNat

/-- The digits that fit into 64 bits after those of `n`: their value, how many more there were, and
the text after them. -/
def digits (n count : Nat) : List Char → Nat × Nat × List Char
  | [] => (n, count, [])
  | c :: cs =>
    let m := 10 * n + digitValue c
    if isDecimalDigit c ∧ m < 2 ^ 64 then digits m (count + 1) cs else (n, count, c :: cs)

def powerOfTen (n : Nat) : Float := Float.ofScientific 1 false n

/-- A number divided by a power of ten, in steps that have one. -/
def scaleDown (x : Float) (n : Nat) : Float :=
  if n ≤ 308 then x / powerOfTen n
  else if x == 0 then x
  else scaleDown (x / powerOfTen 308) (n - 308)
termination_by n

/-- The number `significand * 10 ^ exponent`, unless it is too large. -/
def floatOf (positive : Bool) (significand : Nat) (exponent : Int) : Except Flaw Float :=
  let signed (x : Float) := if positive then x else -x
  let x := significand.toUInt64.toFloat
  if exponent < 0 then .ok (signed (scaleDown x exponent.natAbs))
  else if 308 < exponent then
    if x == 0 then .ok (signed x) else .error .malformed
  else
    let y := x * powerOfTen exponent.toNat
    if y.isInf then .error .malformed else .ok (signed y)

/-- An exponent after its letter, and with it the number. -/
def exponentPart (positive : Bool) (significand : Nat) (exponent : Int) : Reader Number := fun cs =>
  let (up, cs) := match cs with
    | '+' :: cs => (true, cs)
    | '-' :: cs => (false, cs)
    | cs => (true, cs)
  match cs with
  | [] => .error .unfinished
  | c :: _ =>
    if isDecimalDigit c then do
      let n := Nat.ofDigitChars 10 (cs.takeWhile isDecimalDigit) 0
      let x ←
        if 0x80000000 ≤ n then
          if significand ≠ 0 ∧ up then .error .malformed else floatOf positive 0 0
        else floatOf positive significand (if up then exponent + n else exponent - n)
      return (.float x, cs.dropWhile isDecimalDigit)
    else .error .malformed

/-- The end of a number with a fraction or with digits left out. -/
def floatEnd (positive : Bool) (significand : Nat) (exponent : Int) : Reader Number := fun cs =>
  match cs with
  | 'e' :: cs | 'E' :: cs => exponentPart positive significand exponent cs
  | cs => do return (.float (← floatOf positive significand exponent), cs)

/-- A fraction after its point. Digits that no longer fit are left out. -/
def fractionPart (positive : Bool) (significand : Nat) (exponent : Int) : Reader Number := fun cs =>
  let (n, count, rest) := digits significand 0 cs
  match count, rest.takeWhile isDecimalDigit, rest with
  | 0, [], [] => .error .unfinished
  | 0, [], _ => .error .malformed
  | _, _, _ => floatEnd positive n (exponent - count) (rest.dropWhile isDecimalDigit)

/-- A number after its sign. Digits of the integer part that no longer fit count as zeros. -/
def number (positive : Bool) : Reader Number
  | [] => .error .unfinished
  | c :: cs =>
    if !isDecimalDigit c then .error .malformed
    else if c = '0' ∧ (cs.head?.any isDecimalDigit) then .error .malformed
    else
      let (n, _, rest) := digits 0 0 (c :: cs)
      let dropped := (rest.takeWhile isDecimalDigit).length
      match rest.dropWhile isDecimalDigit with
      | '.' :: cs => fractionPart positive n dropped cs
      | cs =>
        if 0 < dropped then floatEnd positive n dropped cs
        else
          match cs with
          | 'e' :: _ | 'E' :: _ => floatEnd positive n 0 cs
          | cs =>
            if positive then .ok (.natural n, cs)
            else if n = 0 ∨ 0x8000000000000000 < n then .ok (.float (-n.toUInt64.toFloat), cs)
            else .ok (.negative n, cs)

end LetFn.Json
