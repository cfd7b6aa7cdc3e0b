import LetFn.Token

/-!
# Parse errors

What can be wrong with a text, and how it is reported.

* `ParseFault`: the causes; `ParseFault.message` words them.
* `ParseError`: a cause with the place of the offending token.
-/

namespace LetFn

open Token (Kind)

/-- The causes of a parse error. -/
inductive ParseFault
  | unexpected (wanted found : Kind)
  | noOperand (found : Kind)
  | oversizedInteger (digits : String)
  | tooDeep (levels : Nat)
deriving DecidableEq, Repr

def ParseFault.message : ParseFault → String
  | unexpected wanted found =>
    "expected next token to be " ++ wanted.label ++ ", got " ++ found.label ++ " instead"
  | noOperand found => "no prefix parse rule for " ++ found.label
  | oversizedInteger digits => "could not parse \"" ++ digits ++ "\" as integer"
  | tooDeep levels => "expression nested deeper than " ++ toString levels ++ " levels"

/-- A cause and the place of the token it was found at. -/
structure ParseError where
  fault : ParseFault
  position : Position
deriving DecidableEq, Repr

def ParseError.message (e : ParseError) : String := e.position.text ++ ": " ++ e.fault.message

/-- The report of several errors, one on each line. -/
def ParseError.report (es : List ParseError) : String :=
  "\n".intercalate (es.map message)

end LetFn
