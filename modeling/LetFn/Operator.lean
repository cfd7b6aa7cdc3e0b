import LetFn.Value

/-!
# Operators on values

Integers have 64 bits with sign. An operation whose exact result does not fit stops the program,
as a division by zero does; nothing wraps around.

* `integer`: an exact result as a value, if it fits.
* `Value.unary`, `Value.binary`: an operator applied to its operands.
-/

namespace LetFn

/-- An exact result as a value. -/
def integer (n : Int) : Except Fault Value :=
  if -0x8000000000000000 ≤ n ∧ n < 0x8000000000000000 then .ok (.int (Int64.ofInt n))
  else .error .overflow

/-- Division drops the fraction of the exact quotient. -/
def integerBinary (op : BinaryOp) (m n : Int64) : Except Fault Value :=
  match op with
  | .add => integer (m.toInt + n.toInt)
  | .sub => integer (m.toInt - n.toInt)
  | .mul => integer (m.toInt * n.toInt)
  | .div => if n = 0 then .error .divisionByZero else integer (m.toInt.tdiv n.toInt)
  | .equal => .ok (.bool (m == n))
  | .notEqual => .ok (.bool (m != n))
  | .less => .ok (.bool (m < n))
  | .greater => .ok (.bool (n < m))

namespace Value

/-- A sign in front of an operand. -/
def unary (op : UnaryOp) (v : Value) : Except Fault Value :=
  match op, v with
  | .not, v => .ok (.bool !v.truthy)
  | .negate, .int n => integer (-n.toInt)
  | .negate, v => .error (.noUnary .negate v.type)

/-- An operator between two operands. Only integers are calculated with, and only integers and
booleans compared. -/
def binary (op : BinaryOp) (v w : Value) : Except Fault Value :=
  match op, v, w with
  | op, .int m, .int n => integerBinary op m n
  | .equal, .bool b, .bool c => .ok (.bool (b == c))
  | .notEqual, .bool b, .bool c => .ok (.bool (b != c))
  | op, v, w =>
    if v.type = w.type then .error (.noBinary v.type op w.type)
    else .error (.typeMismatch v.type op w.type)

end Value

end LetFn
