/-!
# Shortest decimals

The fewest digits that read back as a given binary number, and how they are laid out.

* `Interval`: a binary number with the ends of the interval of numbers that round to it, all as
  multiples of one power of two.
* `shortest`: of the decimals in the interval those with the fewest digits, of these the nearest.
* `Layout.text`: a decimal written with a point, or with an exponent where the point would stand
  too far away.
-/

namespace LetFn

/-! ## Digits -/

/-- The number `digits * 10 ^ exponent`. -/
structure Decimal where
  digits : Nat
  exponent : Int
deriving DecidableEq, Repr

namespace Decimal

/-- Without zeros at the end of the digits, at most `steps` of them taken off. -/
def trim (steps : Nat) (d : Decimal) : Decimal :=
  match steps with
  | 0 => d
  | steps + 1 => if d.digits % 10 = 0 then trim steps ⟨d.digits / 10, d.exponent + 1⟩ else d

/-- A binary number `mid * 2 ^ exponent`; numbers from `low` to `high`, on the same scale, round to
it, the ends too if `closed`. -/
structure Interval where
  low : Nat
  mid : Nat
  high : Nat
  exponent : Int
  closed : Bool
deriving Repr

/-- The interval of a number with 64 bits, the sign and the specials apart. -/
def Interval.ofBits (bits : UInt64) : Interval :=
  let fraction := bits.toNat % 0x10000000000000
  let field := bits.toNat / 0x10000000000000 % 0x800
  let (m, e) : Nat × Nat := if field = 0 then (fraction, 1) else (fraction + 0x10000000000000, field)
  let narrow := fraction = 0 ∧ 1 < field
  { low := if narrow then 4 * m - 1 else 4 * m - 2
    mid := 4 * m
    high := 4 * m + 2
    exponent := (e : Int) - 1077
    closed := m % 2 = 0 }

/-- The fraction `n * 2 ^ exponent / 10 ^ k`, numerator and denominator. -/
def scaled (n : Nat) (exponent k : Int) : Nat × Nat :=
  (n * Nat.pow 2 exponent.toNat * Nat.pow 10 (-k).toNat,
    Nat.pow 2 (-exponent).toNat * Nat.pow 10 k.toNat)

/-- Whether the grid point `c` of the step `10 ^ k` rounds to the number. -/
def Interval.holds (v : Interval) (k : Int) (c : Nat) : Bool :=
  let (low, den) := scaled v.low v.exponent k
  let (high, _) := scaled v.high v.exponent k
  if v.closed then low ≤ c * den && c * den ≤ high else low < c * den && c * den < high

/-- The grid point of the step `10 ^ k` that rounds to the number, the nearer of two, the even one
of two that are equally near. -/
def Interval.onGrid? (v : Interval) (k : Int) : Option Nat :=
  let (num, den) := scaled v.mid v.exponent k
  let below := num / den
  let above := num % den
  match v.holds k below, v.holds k (below + 1) with
  | false, false => none
  | true, false => some below
  | false, true => some (below + 1)
  | true, true =>
    if 2 * above < den ∨ (2 * above = den ∧ below % 2 = 0) then some below else some (below + 1)

/-- The exponent of the first digit of the number, sought upwards from `e` in `steps` steps. -/
def Interval.leading (v : Interval) (steps : Nat) (e : Int) : Int :=
  match steps with
  | 0 => e
  | steps + 1 =>
    let (num, den) := scaled v.mid v.exponent (e + 1)
    if num < den then e else v.leading steps (e + 1)

/-- The first hit among the grids of `n`, `n + 1`, ... digits, `steps` more at most. -/
def Interval.search (v : Interval) (leading : Int) (steps n : Nat) : Decimal :=
  let k := leading - n + 1
  match steps, v.onGrid? k with
  | _, some c => ⟨c, k⟩
  | 0, none => ⟨v.mid, 0⟩
  | steps + 1, none => v.search leading steps (n + 1)

/-- The fewest digits that read back as the number, which is not zero. -/
def shortest (bits : UInt64) : Decimal :=
  let v := Interval.ofBits bits
  (v.search (v.leading 640 (-325)) 17 1).trim 20

/-! ## Layout -/

/-- Where numbers are written with a point: for first digits from `10 ^ least` to `10 ^ most`. -/
structure Layout where
  least : Int
  most : Int

/-- A decimal with a point and at least one digit on either side of it. -/
def pointed (digits : List Char) (lead : Int) : List Char :=
  if lead < 0 then
    ['0', '.'] ++ List.replicate (-lead - 1).toNat '0' ++ digits
  else
    let whole := digits.take (lead.toNat + 1)
    let fraction := digits.drop (lead.toNat + 1)
    whole ++ List.replicate (lead.toNat + 1 - whole.length) '0' ++
      '.' :: (if fraction.isEmpty then ['0'] else fraction)

/-- A decimal with one digit before the point, if there is a point, and an exponent with sign. -/
def exponential (digits : List Char) (lead : Int) : List Char :=
  let mantissa := match digits with
    | d :: e :: rest => d :: '.' :: e :: rest
    | ds => ds
  mantissa ++ 'e' :: (if lead < 0 then '-' else '+') :: Nat.toDigits 10 lead.natAbs

def Layout.text (l : Layout) (d : Decimal) : List Char :=
  let digits := Nat.toDigits 10 d.digits
  let lead := d.exponent + digits.length - 1
  if l.least ≤ lead ∧ lead ≤ l.most then pointed digits lead else exponential digits lead

end Decimal

end LetFn
