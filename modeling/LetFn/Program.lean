/-!
# Programs

The trees that texts are read into.

* `Expr`, `Stmt`: expressions and statements; a block is a list of statements, and everything but
  `let` and `return` is an expression.
* `Expr.beq`: equality of trees by shape; `Expr.beq_iff` says that it decides `=`.
-/

namespace LetFn

inductive UnaryOp
  | not | negate
deriving DecidableEq, Repr

inductive BinaryOp
  | add | sub | mul | div | equal | notEqual | less | greater
deriving DecidableEq, Repr

def UnaryOp.sign : UnaryOp → List Char
  | not => ['!']
  | negate => ['-']

def BinaryOp.sign : BinaryOp → List Char
  | add => ['+']
  | sub => ['-']
  | mul => ['*']
  | div => ['/']
  | equal => ['=', '=']
  | notEqual => ['!', '=']
  | less => ['<']
  | greater => ['>']

mutual

/-- Expressions. The blocks of a condition and of a function are lists of statements. -/
inductive Expr
  | name (x : String)
  | int (n : Int64)
  | bool (b : Bool)
  | str (s : String)
  | unary (op : UnaryOp) (operand : Expr)
  | binary (op : BinaryOp) (left right : Expr)
  | cond (test : Expr) (yes : List Stmt) (no : Option (List Stmt))
  | fn (params : List String) (body : List Stmt)
  | call (callee : Expr) (args : List Expr)

/-- Statements: a binding, a return, or an expression for its value. -/
inductive Stmt
  | bind (x : String) (value : Expr)
  | ret (value : Expr)
  | expr (value : Expr)

end

instance : Inhabited Expr := ⟨.bool false⟩

instance : Inhabited Stmt := ⟨.expr default⟩

abbrev Block := List Stmt

/-- A whole text: its statements in order. -/
structure Program where
  statements : Block

/-! ## Equality -/

mutual

def Expr.beq : Expr → Expr → Bool
  | .name x, .name y => x == y
  | .int m, .int n => m == n
  | .bool b, .bool c => b == c
  | .str s, .str t => s == t
  | .unary o e, .unary p f => o == p && e.beq f
  | .binary o e f, .binary p g h => o == p && e.beq g && f.beq h
  | .cond t y none, .cond u z none => t.beq u && Block.beq y z
  | .cond t y (some n), .cond u z (some o) => t.beq u && Block.beq y z && Block.beq n o
  | .fn xs b, .fn ys c => xs == ys && Block.beq b c
  | .call f as, .call g bs => f.beq g && Expr.beqAll as bs
  | _, _ => false

def Stmt.beq : Stmt → Stmt → Bool
  | .bind x e, .bind y f => x == y && e.beq f
  | .ret e, .ret f => e.beq f
  | .expr e, .expr f => e.beq f
  | _, _ => false

def Block.beq : List Stmt → List Stmt → Bool
  | [], [] => true
  | s :: ss, t :: ts => s.beq t && Block.beq ss ts
  | _, _ => false

def Expr.beqAll : List Expr → List Expr → Bool
  | [], [] => true
  | e :: es, f :: fs => e.beq f && Expr.beqAll es fs
  | _, _ => false

end

mutual

theorem Expr.beq_iff : ∀ e f : Expr, e.beq f = true ↔ e = f
  | .name _, f => by cases f <;> simp [Expr.beq]
  | .int _, f => by cases f <;> simp [Expr.beq]
  | .bool _, f => by cases f <;> simp [Expr.beq]
  | .str _, f => by cases f <;> simp [Expr.beq]
  | .unary _ e, f => by cases f <;> simp [Expr.beq, e.beq_iff]
  | .binary _ e f, g => by cases g <;> simp [Expr.beq, e.beq_iff, f.beq_iff, and_assoc]
  | .cond t y none, f => by
    cases f with
    | cond u z o => cases o <;> simp [Expr.beq, t.beq_iff, Block.beq_iff y]
    | _ => simp [Expr.beq]
  | .cond t y (some n), f => by
    cases f with
    | cond u z o =>
      cases o <;> simp [Expr.beq, t.beq_iff, Block.beq_iff y, Block.beq_iff n, and_assoc]
    | _ => simp [Expr.beq]
  | .fn _ b, f => by cases f <;> simp [Expr.beq, Block.beq_iff b]
  | .call f as, g => by cases g <;> simp [Expr.beq, f.beq_iff, Expr.beqAll_iff as]
termination_by structural e => e

theorem Stmt.beq_iff : ∀ s t : Stmt, s.beq t = true ↔ s = t
  | .bind _ e, t => by cases t <;> simp [Stmt.beq, e.beq_iff]
  | .ret e, t => by cases t <;> simp [Stmt.beq, e.beq_iff]
  | .expr e, t => by cases t <;> simp [Stmt.beq, e.beq_iff]
termination_by structural s => s

theorem Block.beq_iff : ∀ ss ts : List Stmt, Block.beq ss ts = true ↔ ss = ts
  | [], ts => by cases ts <;> simp [Block.beq]
  | s :: ss, ts => by cases ts <;> simp [Block.beq, s.beq_iff, Block.beq_iff ss]
termination_by structural ss => ss

theorem Expr.beqAll_iff : ∀ es fs : List Expr, Expr.beqAll es fs = true ↔ es = fs
  | [], fs => by cases fs <;> simp [Expr.beqAll]
  | e :: es, fs => by cases fs <;> simp [Expr.beqAll, e.beq_iff, Expr.beqAll_iff es]
termination_by structural es => es

end

instance : DecidableEq Expr := fun e f => decidable_of_iff _ (e.beq_iff f)

instance : DecidableEq Stmt := fun s t => decidable_of_iff _ (s.beq_iff t)

instance : DecidableEq Program := fun p q =>
  decidable_of_iff (Block.beq p.statements q.statements = true) <| by
    cases p; cases q; simp [Block.beq_iff]

end LetFn
