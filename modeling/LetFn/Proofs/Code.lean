import LetFn.Value

/-!
# The nodes of trees

A site says where in its tree a node stands.

* `Code`: what stands at a node; `Code.child?`: what stands below it, by the numbers that sites are
  made of.
* `Block.locate?`: what stands at the end of a path, and the number of function literals around it.
-/

namespace LetFn

/-- What stands at a node of a tree. -/
inductive Code
  | expr (e : Expr)
  | args (es : List Expr)
  | stmt (s : Stmt)
  | block (ss : Block)

namespace Code

/-- What stands at the node `k` below a node. -/
def child? : Code → Nat → Option Code
  | .expr (.unary _ e), 0 => some (.expr e)
  | .expr (.binary _ l _), 0 => some (.expr l)
  | .expr (.binary _ _ r), 1 => some (.expr r)
  | .expr (.cond t _ _), 0 => some (.expr t)
  | .expr (.cond _ yes _), 1 => some (.block yes)
  | .expr (.cond _ _ no), 2 => no.map .block
  | .expr (.fn _ body), 0 => some (.block body)
  | .expr (.call f _), 0 => some (.expr f)
  | .expr (.call _ as), 1 => some (.args as)
  | .args (e :: _), 0 => some (.expr e)
  | .args (_ :: es), 1 => some (.args es)
  | .stmt (.bind _ e), 0 | .stmt (.ret e), 0 | .stmt (.expr e), 0 => some (.expr e)
  | .block (s :: _), 0 => some (.stmt s)
  | .block (_ :: ss), 1 => some (.block ss)
  | _, _ => none

/-- A function literal. -/
def isFn : Code → Bool
  | .expr (.fn _ _) => true
  | _ => false

end Code

/-- What stands at the end of a path that leads up to the root, and inside how many function
literals of the tree. -/
def Block.locate? (root : Block) : List Nat → Option (Nat × Code)
  | [] => some (0, .block root)
  | k :: path => do
    let (n, c) ← locate? root path
    let d ← c.child? k
    return (if c.isFn then n + 1 else n, d)

end LetFn
