import LetFn.Proofs.Printer.Words

/-!
# Statements that run together

The written form of an expression statement ends in nothing, so a bracket after it calls its value.

* `RunsOn`: a list in which an expression statement is followed by one that starts with a bracket.
* `Program.lists`: the lists of statements of a program, at any depth.
* `Program.joined`: the program in which every such pair is one statement;
  `Program.joined_eq_iff` says that it is the program itself if and only if no list runs on.
-/

namespace LetFn

/-! ## Lists of statements -/

mutual

/-- The lists of statements in an expression, at any depth. -/
def Expr.lists : Expr → List Block
  | .name _ | .int _ | .bool _ | .str _ => []
  | .unary _ e => e.lists
  | .binary _ l r => l.lists ++ r.lists
  | .cond t y none => t.lists ++ y :: Block.inner y
  | .cond t y (some n) => t.lists ++ (y :: Block.inner y ++ n :: Block.inner n)
  | .fn _ b => b :: Block.inner b
  | .call f as => f.lists ++ Expr.listsAll as
termination_by structural e => e

def Expr.listsAll : List Expr → List Block
  | [] => []
  | e :: es => e.lists ++ Expr.listsAll es

def Stmt.lists : Stmt → List Block
  | .bind _ e | .ret e | .expr e => e.lists

/-- The lists inside the statements of a list. -/
def Block.inner : List Stmt → List Block
  | [] => []
  | s :: ss => s.lists ++ Block.inner ss

end

/-- The statements of a program, and every list of statements inside them. -/
def Program.lists (p : Program) : List Block := p.statements :: Block.inner p.statements

/-- An expression statement is followed by one whose written form starts with a bracket. -/
def RunsOn (b : Block) : Prop :=
  ∃ before e f after, b = before ++ .expr e :: .expr f :: after ∧ (f.write []).head? = some '('

theorem not_runsOn_nil : ¬ RunsOn [] := by
  rintro ⟨before, e, f, after, h, -⟩
  cases before <;> cases h

theorem runsOn_cons_iff {s : Stmt} {ss : Block} (hss : Block.isWritable ss = true) :
    RunsOn (s :: ss) ↔
      (∃ e f after, s = .expr e ∧ ss = .expr f :: after ∧ f.opens = true) ∨ RunsOn ss := by
  constructor
  · rintro ⟨before, e, f, after, h, hf⟩
    cases before with
    | nil =>
      obtain ⟨rfl, rfl⟩ := List.cons.inj h
      rw [Block.isWritable, Bool.and_eq_true] at hss
      obtain ⟨c, hc, -, hopens⟩ := f.head?_write [] hss.1
      rw [hc, Option.some.injEq] at hf
      exact .inl ⟨e, f, after, rfl, rfl, hopens.1 hf⟩
    | cons t before =>
      obtain ⟨rfl, rfl⟩ := List.cons.inj h
      exact .inr ⟨before, e, f, after, rfl, hf⟩
  · rintro (⟨e, f, after, rfl, rfl, hf⟩ | ⟨before, e, f, after, rfl, hf⟩)
    · rw [Block.isWritable, Bool.and_eq_true] at hss
      obtain ⟨c, hc, -, hopens⟩ := f.head?_write [] hss.1
      exact ⟨[], e, f, after, rfl, by rw [hc, hopens.2 hf]⟩
    · exact ⟨s :: before, e, f, after, rfl, hf⟩

/-! ## One statement for two -/

/-- The call that an expression and the text of one with a bracket in front come to. -/
def Expr.absorb (e : Expr) : Expr → Expr
  | .call f as => .call (e.absorb f) as
  | f => .call e [f]

/-- A statement in front of others, one with the first of them if they run together. -/
def Stmt.joinTo (s : Stmt) (ss : List Stmt) : List Stmt :=
  match s, ss with
  | .expr e, .expr f :: rest => if f.opens then .expr (e.absorb f) :: rest else s :: ss
  | _, _ => s :: ss

mutual

def Expr.joined : Expr → Expr
  | .name x => .name x
  | .int n => .int n
  | .bool b => .bool b
  | .str s => .str s
  | .unary op e => .unary op e.joined
  | .binary op l r => .binary op l.joined r.joined
  | .cond t y none => .cond t.joined (Block.joined y) none
  | .cond t y (some n) => .cond t.joined (Block.joined y) (some (Block.joined n))
  | .fn xs b => .fn xs (Block.joined b)
  | .call f as => .call f.joined (Expr.joinedAll as)
termination_by structural e => e

def Expr.joinedAll : List Expr → List Expr
  | [] => []
  | e :: es => e.joined :: Expr.joinedAll es

def Stmt.joined : Stmt → Stmt
  | .bind x e => .bind x e.joined
  | .ret e => .ret e.joined
  | .expr e => .expr e.joined

def Block.joined : List Stmt → List Stmt
  | [] => []
  | s :: ss => s.joined.joinTo (Block.joined ss)

end

/-- The program that the written form of a program is read as. -/
def Program.joined (p : Program) : Program := ⟨Block.joined p.statements⟩

/-! ## Nothing to join -/

theorem Stmt.length_joinTo_le (s : Stmt) (ss : List Stmt) :
    (s.joinTo ss).length ≤ ss.length + 1 := by
  unfold Stmt.joinTo
  split
  · split
    · exact Nat.le_succ_of_le (Nat.le_refl _)
    · exact Nat.le_refl _
  · exact Nat.le_refl _

theorem Block.length_joined_le (ss : List Stmt) : (Block.joined ss).length ≤ ss.length := by
  induction ss with
  | nil => exact Nat.le_refl _
  | cons s ss ih =>
    have h := s.joined.length_joinTo_le (Block.joined ss)
    rw [List.length_cons]
    exact Nat.le_trans h (Nat.succ_le_succ ih)

/-- Joining shortens, so where it does nothing the pair does not run together. -/
theorem Stmt.joinTo_eq_cons_iff {s t : Stmt} {ss ts : List Stmt} (hlen : ss.length ≤ ts.length) :
    s.joinTo ss = t :: ts ↔ s = t ∧ ss = ts ∧
      ¬ ∃ e f after, t = .expr e ∧ ts = .expr f :: after ∧ f.opens = true := by
  unfold Stmt.joinTo
  split
  · next e f rest =>
    split
    · next hf =>
      constructor
      · intro h
        have hl := congrArg List.length h
        simp only [List.length_cons] at hl hlen
        omega
      · rintro ⟨rfl, rfl, hno⟩
        exact absurd ⟨e, f, rest, rfl, rfl, hf⟩ hno
    · next hf =>
      rw [List.cons.injEq]
      constructor
      · rintro ⟨rfl, rfl⟩
        refine ⟨rfl, rfl, ?_⟩
        rintro ⟨e', f', after, he, hf', ho⟩
        rw [List.cons.injEq, Stmt.expr.injEq] at hf'
        exact hf (hf'.1 ▸ ho)
      · exact fun h => ⟨h.1, h.2.1⟩
  · next hno =>
    rw [List.cons.injEq]
    constructor
    · rintro ⟨rfl, rfl⟩
      refine ⟨rfl, rfl, ?_⟩
      rintro ⟨e, f, after, rfl, rfl, -⟩
      exact hno e f after rfl rfl
    · exact fun h => ⟨h.1, h.2.1⟩

mutual

theorem Expr.joined_eq_iff : ∀ e : Expr, e.isWritable = true →
    (e.joined = e ↔ ∀ b ∈ e.lists, ¬ RunsOn b)
  | .name _, _ | .int _, _ | .bool _, _ | .str _, _ => by simp [Expr.joined, Expr.lists]
  | .unary _ e, h => by simp [Expr.joined, Expr.lists, e.joined_eq_iff h]
  | .binary _ l r, h => by
    rw [Expr.isWritable, Bool.and_eq_true] at h
    simp [Expr.joined, Expr.lists, l.joined_eq_iff h.1, r.joined_eq_iff h.2, or_imp, forall_and]
  | .cond t y none, h => by
    rw [Expr.isWritable, Bool.and_eq_true] at h
    simp [Expr.joined, Expr.lists, t.joined_eq_iff h.1, Block.joined_eq_iff y h.2, or_imp,
      forall_and]
  | .cond t y (some n), h => by
    rw [Expr.isWritable, Bool.and_eq_true, Bool.and_eq_true] at h
    simp [Expr.joined, Expr.lists, t.joined_eq_iff h.1.1, Block.joined_eq_iff y h.1.2,
      Block.joined_eq_iff n h.2, or_imp, forall_and, and_assoc]
  | .fn _ b, h => by
    rw [Expr.isWritable, Bool.and_eq_true] at h
    simp [Expr.joined, Expr.lists, Block.joined_eq_iff b h.2]
  | .call f as, h => by
    rw [Expr.isWritable, Bool.and_eq_true] at h
    simp [Expr.joined, Expr.lists, f.joined_eq_iff h.1, Expr.joinedAll_eq_iff as h.2, or_imp,
      forall_and]
termination_by structural e => e

theorem Expr.joinedAll_eq_iff : ∀ es : List Expr, Expr.areWritable es = true →
    (Expr.joinedAll es = es ↔ ∀ b ∈ Expr.listsAll es, ¬ RunsOn b)
  | [], _ => by simp [Expr.joinedAll, Expr.listsAll]
  | e :: es, h => by
    rw [Expr.areWritable, Bool.and_eq_true] at h
    simp [Expr.joinedAll, Expr.listsAll, e.joined_eq_iff h.1, Expr.joinedAll_eq_iff es h.2, or_imp,
      forall_and]

theorem Stmt.joined_eq_iff : ∀ s : Stmt, s.isWritable = true →
    (s.joined = s ↔ ∀ b ∈ s.lists, ¬ RunsOn b)
  | .bind _ e, h => by
    rw [Stmt.isWritable, Bool.and_eq_true] at h
    simp [Stmt.joined, Stmt.lists, e.joined_eq_iff h.2]
  | .ret e, h => by simp [Stmt.joined, Stmt.lists, e.joined_eq_iff h]
  | .expr e, h => by simp [Stmt.joined, Stmt.lists, e.joined_eq_iff h]

theorem Block.joined_eq_iff : ∀ ss : List Stmt, Block.isWritable ss = true →
    (Block.joined ss = ss ↔ ∀ b ∈ ss :: Block.inner ss, ¬ RunsOn b)
  | [], _ => by simp [Block.joined, Block.inner, not_runsOn_nil]
  | s :: ss, h => by
    rw [Block.isWritable, Bool.and_eq_true] at h
    have hs := s.joined_eq_iff h.1
    have hss := Block.joined_eq_iff ss h.2
    rw [Block.joined, Stmt.joinTo_eq_cons_iff (Block.length_joined_le ss), hs, hss, Block.inner]
    simp only [List.mem_cons, List.mem_append, or_imp, forall_and, forall_eq, runsOn_cons_iff h.2,
      not_or]
    exact ⟨fun ⟨h₁, ⟨h₂, h₃⟩, h₄⟩ => ⟨⟨h₄, h₂⟩, h₁, h₃⟩,
      fun ⟨⟨h₄, h₂⟩, h₁, h₃⟩ => ⟨h₁, ⟨h₂, h₃⟩, h₄⟩⟩

end

/-- Joining leaves a program alone if none of its lists runs on, and only then. -/
theorem Program.joined_eq_iff {p : Program} (h : p.IsWritable) :
    p.joined = p ↔ ∀ b ∈ p.lists, ¬ RunsOn b := by
  rw [Program.lists, ← Block.joined_eq_iff p.statements h]
  constructor
  · exact congrArg Program.statements
  · exact congrArg Program.mk

/-! ## Joining in any order -/

theorem Expr.opens_absorb (e f : Expr) : (e.absorb f).opens = e.opens := by
  cases f with
  | call g as => exact e.opens_absorb g
  | _ => rfl

theorem Expr.absorb_absorb (d e f : Expr) : d.absorb (e.absorb f) = (d.absorb e).absorb f := by
  cases f with
  | call g as => exact congrArg (Expr.call · as) (d.absorb_absorb e g)
  | _ => rfl

theorem Expr.opens_joined (e : Expr) : e.joined.opens = e.opens := by
  cases e with
  | call f as => exact f.opens_joined
  | cond t y no => cases no <;> rfl
  | _ => rfl

/-- Three statements in a row join from either end. -/
theorem Stmt.joinTo_joinTo {e f : Expr} {ss : List Stmt} (hf : f.opens = true) :
    Stmt.joinTo (.expr e) (Stmt.joinTo (.expr f) ss) = Stmt.joinTo (.expr (e.absorb f)) ss := by
  cases ss with
  | nil => simp [Stmt.joinTo, hf]
  | cons s ss =>
    cases s with
    | expr g =>
      by_cases hg : g.opens = true
      · simp [Stmt.joinTo, hg, hf, Expr.opens_absorb, Expr.absorb_absorb]
      · simp [Stmt.joinTo, hg, hf]
    | _ => simp [Stmt.joinTo, hf]

theorem Stmt.joinTo_of_not_opens {s : Stmt} {f : Expr} {ss : List Stmt} (hf : f.opens = false) :
    s.joinTo (Stmt.joinTo (.expr f) ss) = s :: Stmt.joinTo (.expr f) ss := by
  cases s with
  | expr e =>
    cases ss with
    | nil => simp [Stmt.joinTo, hf]
    | cons s ss =>
      cases s with
      | expr g => by_cases hg : g.opens = true <;> simp [Stmt.joinTo, hg, hf, Expr.opens_absorb]
      | _ => simp [Stmt.joinTo, hf]
  | _ => rfl

end LetFn
