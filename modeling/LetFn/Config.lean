/-!
# Configuration

The limits of a run.
-/

namespace LetFn

/-- How many calls of functions may be active at a time. -/
structure Config where
  maxCallDepth : Nat := 512
deriving DecidableEq, Repr

end LetFn
