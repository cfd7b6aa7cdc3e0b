import LetFn.Program

/-!
# Disciplined programs

Programs that use a condition with a `return` in it as a statement only.

* `Expr.hasReturn`, `Block.hasReturn`: a `return` stands in a tree, those of inner functions apart.
* `Expr.disciplined`, `Block.disciplined`: every condition with a `return` in its blocks stands in a
  spot for statements: in a program, in the body of a function, or in a block of another such
  condition.
-/

namespace LetFn

mutual

/-- A `return` stands in an expression, outside of its function literals. -/
def Expr.hasReturn : Expr → Bool
  | .name _ | .int _ | .bool _ | .str _ | .fn .. => false
  | .unary _ e => e.hasReturn
  | .binary _ l r => l.hasReturn || r.hasReturn
  | .cond t y none => t.hasReturn || Block.hasReturn y
  | .cond t y (some n) => t.hasReturn || Block.hasReturn y || Block.hasReturn n
  | .call f as => f.hasReturn || Expr.anyReturn as
termination_by structural e => e

def Expr.anyReturn : List Expr → Bool
  | [] => false
  | e :: es => e.hasReturn || Expr.anyReturn es

def Stmt.hasReturn : Stmt → Bool
  | .bind _ e => e.hasReturn
  | .ret _ => true
  | .expr e => e.hasReturn

def Block.hasReturn : List Stmt → Bool
  | [] => false
  | s :: ss => s.hasReturn || Block.hasReturn ss

end

mutual

/-- No condition with a `return` in its blocks stands anywhere but in a spot for statements. The
expression itself stands in one if `spot` says so. -/
def Expr.disciplined (spot : Bool) : Expr → Bool
  | .name _ | .int _ | .bool _ | .str _ => true
  | .unary _ e => e.disciplined false
  | .binary _ l r => l.disciplined false && r.disciplined false
  | .cond t y none =>
    (spot || !Block.hasReturn y) && t.disciplined false && Block.disciplined (Block.hasReturn y) y
  | .cond t y (some n) =>
    (spot || !(Block.hasReturn y || Block.hasReturn n)) && t.disciplined false &&
      Block.disciplined (Block.hasReturn y || Block.hasReturn n) y &&
      Block.disciplined (Block.hasReturn y || Block.hasReturn n) n
  | .fn _ b => Block.disciplined true b
  | .call f as => f.disciplined false && Expr.allDisciplined as
termination_by structural e => e

def Expr.allDisciplined : List Expr → Bool
  | [] => true
  | e :: es => e.disciplined false && Expr.allDisciplined es

def Stmt.disciplined (spot : Bool) : Stmt → Bool
  | .bind _ e | .ret e => e.disciplined false
  | .expr e => e.disciplined spot

def Block.disciplined (spot : Bool) : List Stmt → Bool
  | [] => true
  | s :: ss => s.disciplined spot && Block.disciplined spot ss

end

/-- The statements of a program are a spot for conditions with a `return`. -/
def Program.IsDisciplined (p : Program) : Prop := Block.disciplined true p.statements = true

end LetFn
