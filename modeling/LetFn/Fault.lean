import LetFn.Program

/-!
# Runtime errors

Why an evaluation stops.

* `ValueType`: the types of values, as messages name them.
* `Fault`: the causes; `Fault.message` words them.
-/

namespace LetFn

/-- The types of values. -/
inductive ValueType
  | int | bool | str | null | returned | error | closure | builtin
deriving DecidableEq, Repr

def ValueType.label : ValueType → String
  | int => "INTEGER"
  | bool => "BOOLEAN"
  | str => "STRING"
  | null => "NULL"
  | returned => "RETURN_VALUE"
  | error => "ERROR"
  | closure => "FUNCTION"
  | builtin => "BUILTIN"

/-- The causes of a runtime error. -/
inductive Fault
  | unbound (name : String)
  | typeMismatch (left : ValueType) (op : BinaryOp) (right : ValueType)
  | noUnary (op : UnaryOp) (operand : ValueType)
  | noBinary (left : ValueType) (op : BinaryOp) (right : ValueType)
  | notCallable (callee : ValueType)
  | wrongArity (expected got : Nat)
  | divisionByZero
  | overflow
  | tooManyCalls (limit : Nat)
  | output (reason : String)
deriving DecidableEq, Repr

/-- An operator between the types of its operands. -/
def binaryShape (left : ValueType) (op : BinaryOp) (right : ValueType) : String :=
  left.label ++ " " ++ String.ofList op.sign ++ " " ++ right.label

def Fault.message : Fault → String
  | unbound name => "identifier not found: " ++ name
  | typeMismatch left op right => "type mismatch: " ++ binaryShape left op right
  | noUnary op operand => "unknown operator: " ++ String.ofList op.sign ++ operand.label
  | noBinary left op right => "unknown operator: " ++ binaryShape left op right
  | notCallable callee => "not a function: " ++ callee.label
  | wrongArity expected got =>
    "wrong number of arguments: expected " ++ toString expected ++ ", got " ++ toString got
  | divisionByZero => "division by zero"
  | overflow => "integer overflow"
  | tooManyCalls limit => "maximum call depth of " ++ toString limit ++ " exceeded"
  | output reason => "could not write output: " ++ reason

end LetFn
