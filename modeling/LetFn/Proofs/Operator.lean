import LetFn.Operator

/-!
# What operators come to

Operators come to integers and booleans only, whatever their operands are.

* `Value.IsScalar`: an integer or a boolean.
* `isScalar_of_unary`, `isScalar_of_binary`: the values of operators are scalars.
-/

namespace LetFn

/-- An integer or a boolean. -/
def Value.IsScalar : Value → Prop
  | .int _ | .bool _ => True
  | _ => False

theorem isScalar_of_integer {n : Int} {v : Value} (h : integer n = .ok v) : v.IsScalar := by
  unfold integer at h
  split at h
  · cases h
    trivial
  · cases h

theorem isScalar_of_unary {op : UnaryOp} {v w : Value} (h : Value.unary op v = .ok w) :
    w.IsScalar := by
  unfold Value.unary at h
  split at h
  · cases h
    trivial
  · exact isScalar_of_integer h
  · cases h

theorem isScalar_of_integerBinary {op : BinaryOp} {m n : Int64} {w : Value}
    (h : integerBinary op m n = .ok w) : w.IsScalar := by
  cases op with
  | add | sub | mul => exact isScalar_of_integer h
  | div =>
    rw [integerBinary] at h
    split at h
    · cases h
    · exact isScalar_of_integer h
  | equal | notEqual | less | greater =>
    cases h
    trivial

theorem isScalar_of_binary {op : BinaryOp} {v w u : Value} (h : Value.binary op v w = .ok u) :
    u.IsScalar := by
  unfold Value.binary at h
  split at h
  · exact isScalar_of_integerBinary h
  · cases h
    trivial
  · cases h
    trivial
  · split at h <;> cases h

end LetFn
