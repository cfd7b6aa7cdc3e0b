import LetFn.Proofs.Grammar
import LetFn.Proofs.Parser.Reads

/-!
# What is read is derived

Every tree that a rule reads has a derivation from the words taken, and the rule stops where
nothing binds tighter than its floor.

* `Sound sub inside`: the rule `sub` for the expressions inside reads only what `inside` derives.
* `Strong inside k`: what stands left of an operator of strength `k` or less; a loop over operators
  keeps it while `k` falls (`Reading.Links.sound`).
* `sound_expr`: the rule for expressions is sound for `Expression`.
-/

namespace LetFn
open Token (Kind)
open Grammar

/-! ## First words -/

/-- The classes that an expression can start with. -/
def startsExpression : List Kind :=
  [.name, .int, .string, .trueWord, .falseWord, .bang, .minus, .leftParen, .ifWord, .fnWord]

theorem Reading.Operand.nextKind_mem {sub : Nat → Rule Expr} {ts rest : List Token} {e : Expr}
    (h : Reading.Operand sub ts e rest) : nextKind ts ∈ startsExpression := by
  cases h <;> simp_all [nextKind, startsExpression]

theorem Rule.nextKind_mem_of_reads {levels floor : Nat} {ts rest : List Token} {e : Expr}
    (h : Reads (expr levels floor ts) e rest) : nextKind ts ∈ startsExpression := by
  cases levels with
  | zero => exact absurd h Reads.not_error
  | succ n =>
    obtain ⟨left, mid, ho, -⟩ := reads_expr_iff.1 h
    exact ho.nextKind_mem

/-! ## Tiers by strength -/

theorem Reading.Stops.mono {j k : Nat} {ts : List Token} (h : Reading.Stops j ts) (hjk : j ≤ k) :
    Reading.Stops k ts := fun link hl => Nat.le_trans (h link hl) hjk

theorem Link.strength_le (link : Link) : link.strength ≤ 6 := by
  cases link with
  | binary op => cases op <;> decide
  | call => decide

/-- The operators of strength `s` are those of tier `s - 1`. -/
theorem exists_tier_of_ofKind? {k : Kind} {op : BinaryOp}
    (h : Link.ofKind? k = some (.binary op)) :
    ∃ tier, tiers.drop (op.strength - 1) = tier :: tiers.drop op.strength ∧ (k, op) ∈ tier := by
  cases k <;> simp only [Link.ofKind?, Option.some.injEq, Link.binary.injEq, reduceCtorEq] at h <;>
    subst h <;> exact ⟨_, rfl, by simp⟩

/-- An integer word is read as the number it spells, if 64 bits with sign hold it. -/
theorem Token.integer?_eq_some_iff {t : Token} {n : Int64} :
    t.integer? = some n ↔ decimal t.text ≤ 0x7fffffffffffffff ∧ n = Int64.ofNat (decimal t.text) := by
  unfold Token.integer? decimal
  dsimp only
  split
  · next h =>
    rw [Option.some.injEq, eq_comm]
    exact ⟨fun hn => ⟨by omega, hn⟩, And.right⟩
  · next h => exact ⟨fun hn => absurd hn (by simp), fun hn => absurd hn.1 (by omega)⟩

section
variable {inside : List Tier → List Token → Expr → Prop}

theorem Grammar.Chain.widen {ts : List Token} {e : Expr} {j k : Nat} (hjk : j ≤ k)
    (h : Chain inside (tiers.drop k) ts e) : Chain inside (tiers.drop j) ts e := by
  induction k with
  | zero => rwa [Nat.le_zero.1 hjk]
  | succ k ih =>
    rcases Nat.le_succ_iff.1 hjk with hle | rfl
    · refine ih hle ?_
      rcases Nat.lt_or_ge k tiers.length with hk | hk
      · rw [List.drop_eq_getElem_cons hk]
        exact .first h
      · rwa [List.drop_eq_nil_of_le hk, ← List.drop_eq_nil_of_le (Nat.le_succ_of_le hk)]
    · exact h

/-- What may stand left of an operator of strength `k` or less. -/
def Strong (inside : List Tier → List Token → Expr → Prop) (k : Nat) (ts : List Token) (e : Expr) :
    Prop :=
  if k = 6 then Call inside ts e else Chain inside (tiers.drop (k - 1)) ts e

theorem Strong.chain {k j : Nat} {ts : List Token} {e : Expr} (h : Strong inside k ts e)
    (hj : min j 4 < k) : Chain inside (tiers.drop j) ts e := by
  have hdrop : tiers.drop j = tiers.drop (min j 4) := by
    rcases Nat.le_total j 4 with hj | hj
    · rw [Nat.min_eq_left hj]
    · rw [Nat.min_eq_right hj, List.drop_eq_nil_of_le hj]; rfl
  rw [hdrop]
  unfold Strong at h
  split at h
  · exact Chain.widen (k := 4) (Nat.min_le_right _ _) (.unary (.call h))
  · exact Chain.widen (by omega) h

end

/-! ## Left operands -/

section
variable {inside : List Tier → List Token → Expr → Prop} {ls us : List Token} {left : Expr}
  {t : Token} {k : Nat}

theorem Strong.primary (h : Primary inside ls left) : Strong inside 6 ls left := by
  rw [Strong, if_pos rfl]
  exact .primary h

/-- An operator that is not too tight, with its right operand, makes a left operand again. -/
theorem Strong.binary (h : Strong inside k ls left) {op : BinaryOp} {right : Expr}
    (hl : Link.ofKind? t.kind = some (.binary op)) (hle : op.strength ≤ k)
    (hright : inside (tiers.drop op.strength) us right) :
    Strong inside op.strength (ls ++ t :: us) (.binary op left right) := by
  obtain ⟨tier, htier, hmem⟩ := exists_tier_of_ofKind? hl
  have hpos : 1 ≤ op.strength ∧ op.strength ≤ 4 := by cases op <;> decide
  have hchain := h.chain (j := op.strength - 1) (by omega)
  rw [htier] at hchain
  rw [Strong, if_neg (by omega), htier]
  exact .more hchain hmem hright

/-- Only what stands left of any operator stands left of the bracket of a call. -/
theorem Reading.eq_of_stops_call {ts : List Token} (hl : Link.ofKind? t.kind = some .call)
    (hk : k ≤ 6) (hstop : Reading.Stops k (t :: ts)) : k = 6 := by
  have hle : callStrength ≤ k := hstop _ hl
  unfold callStrength at hle
  omega

/-- Arguments behind a callee make a callee again. -/
theorem Strong.call (h : Strong inside 6 ls left) {r : Token} {args : List Expr}
    (hl : Link.ofKind? t.kind = some .call) (hargs : Separated (inside tiers) us args)
    (hr : r.kind = .rightParen) :
    Strong inside 6 (ls ++ t :: us ++ [r]) (.call left args) := by
  have ht : t.kind = .leftParen := by
    cases hk : t.kind <;> simp [hk, Link.ofKind?] at hl
    rfl
  rw [Strong, if_pos rfl] at h ⊢
  exact .call h ht hargs hr

end

/-! ## Rules are sound -/

/-- The rule for the expressions inside reads only what may stand inside. -/
def Sound (sub : Nat → Rule Expr) (inside : List Tier → List Token → Expr → Prop) : Prop :=
  ∀ {floor : Nat} {ts rest : List Token} {e : Expr}, Reads (sub floor ts) e rest →
    nextKind ts ∈ startsExpression ∧
      ∃ us, ts = us ++ rest ∧ inside (tiers.drop floor) us e ∧ Reading.Stops floor rest

namespace Reading
variable {sub : Nat → Rule Expr} {inside : List Tier → List Token → Expr → Prop}
  {ts rest : List Token}

theorem Items.sound {α : Type} {item : List Token → α → List Token → Prop}
    {derived : List Token → α → Prop}
    (hitem : ∀ ts a rest, item ts a rest → ∃ us, ts = us ++ rest ∧ derived us a)
    {as : List α} (h : Items item ts as rest) {vs : List Token} {a : α} (ha : derived vs a) :
    ∃ us r, ts = us ++ r :: rest ∧ r.kind = .rightParen ∧
      Grammar.Separated derived (vs ++ us) (a :: as) := by
  induction h generalizing vs a with
  | stop hr => exact ⟨[], _, rfl, hr, by simpa using .one ha⟩
  | step hc hb _ ih =>
    obtain ⟨ws, rfl, hd⟩ := hitem _ _ _ hb
    obtain ⟨us, r, rfl, hr, hs⟩ := ih hd
    exact ⟨_ :: ws ++ us, r, by simp, hr, .cons ha hc hs⟩

theorem Separated.sound {α : Type} {item : List Token → α → List Token → Prop}
    {derived : List Token → α → Prop}
    (hitem : ∀ ts a rest, item ts a rest → ∃ us, ts = us ++ rest ∧ derived us a)
    {as : List α} (h : Separated item ts as rest) :
    ∃ us r, ts = us ++ r :: rest ∧ r.kind = .rightParen ∧ Grammar.Separated derived us as := by
  cases h with
  | none hr => exact ⟨[], _, rfl, hr, .nil⟩
  | some _ ha has =>
    obtain ⟨us, rfl, hd⟩ := hitem _ _ _ ha
    obtain ⟨vs, r, rfl, hr, hs⟩ := has.sound hitem hd
    exact ⟨us ++ vs, r, by simp, hr, hs⟩

theorem Param.sound {x : String} (h : Param ts x rest) :
    ∃ us, ts = us ++ rest ∧ Grammar.Param us x := by
  obtain ⟨t, rfl, hk, hx⟩ := h
  exact ⟨[t], rfl, t, rfl, hk, hx⟩

theorem Arguments.sound (hsub : Sound sub inside) {as : List Expr}
    (h : Arguments sub ts as rest) :
    ∃ us r, ts = us ++ r :: rest ∧ r.kind = .rightParen ∧
      Grammar.Separated (inside tiers) us as :=
  Separated.sound (fun _ _ _ he => by
    obtain ⟨-, us, rfl, hi, -⟩ := hsub he
    exact ⟨us, rfl, hi⟩) h

/-- A statement ends in its semicolon, or where nothing carries it on. -/
theorem Statement.sound (hsub : Sound sub inside) {s : Stmt} (h : Statement sub ts s rest) :
    (∃ us t, ts = us ++ t :: rest ∧ t.kind = .semicolon ∧ Grammar.Statement inside us s) ∨
      ∃ us, ts = us ++ rest ∧ nextKind rest ≠ .semicolon ∧ Stops 0 rest ∧
        Grammar.Statement inside us s := by
  obtain ⟨us, after, hts, hs, hstop, rfl⟩ : ∃ us after, ts = us ++ after ∧
      Grammar.Statement inside us s ∧ Stops 0 after ∧ rest = dropSemicolon after := by
    cases h with
    | bind hw hx ha he =>
      obtain ⟨-, us, rfl, hi, hstop⟩ := hsub he
      exact ⟨_ :: _ :: _ :: us, _, rfl, .bind hw hx ha hi, hstop, rfl⟩
    | ret hw he =>
      obtain ⟨-, us, rfl, hi, hstop⟩ := hsub he
      exact ⟨_ :: us, _, rfl, .ret hw hi, hstop, rfl⟩
    | expr _ _ he =>
      obtain ⟨-, us, rfl, hi, hstop⟩ := hsub he
      exact ⟨us, _, rfl, .expr hi, hstop, rfl⟩
  cases after with
  | nil => exact .inr ⟨us, hts, by decide, hstop, hs⟩
  | cons t after =>
    by_cases ht : t.kind = .semicolon
    · exact .inl ⟨us, t, by simpa [dropSemicolon, ht] using hts, ht, hs⟩
    · refine .inr ⟨us, ?_⟩
      rw [dropSemicolon, if_neg ht]
      exact ⟨hts, ht, hstop, hs⟩

theorem Statement.nextKind_mem (hsub : Sound sub inside) {s : Stmt}
    (h : Statement sub ts s rest) : nextKind ts ∈ .letWord :: .returnWord :: startsExpression := by
  cases h with
  | bind hw => simp [nextKind, hw]
  | ret hw => simp [nextKind, hw]
  | expr _ _ he => exact List.mem_cons_of_mem _ (List.mem_cons_of_mem _ (hsub he).1)

/-- Nothing that starts a statement carries another on, unless it is an operator or a bracket. -/
theorem not_mem_carriesOn {t : Token} (hstop : Stops 0 (t :: ts))
    (ht : t.kind ∈ .letWord :: .returnWord :: startsExpression) : t.kind ∉ carriesOn := by
  have h := hstop
  simp only [Stops, nextKind] at h
  cases hk : t.kind <;> simp [hk, startsExpression, carriesOn] at ht ⊢
  · exact absurd (h _ (by rw [hk]; rfl)) (by decide)
  · exact absurd (h _ (by rw [hk]; rfl)) (by decide)

theorem Row.sound (hsub : Sound sub inside) {b : LetFn.Block} (h : Row sub ts b rest) :
    ∃ us, ts = us ++ rest ∧ Grammar.Statements inside us b ∧
      ∀ u ∈ us.head?, u.kind ∈ .letWord :: .returnWord :: startsExpression := by
  induction h with
  | nil => exact ⟨[], rfl, .nil, by simp⟩
  | @cons ts mid rest s ss hs _ ih =>
    obtain ⟨us, rfl, hd, hhead⟩ := ih
    have ht := hs.nextKind_mem hsub
    rcases hs.sound hsub with ⟨vs, semi, rfl, hk, hv⟩ | ⟨vs, rfl, hk, hstop, hv⟩
    · refine ⟨vs ++ semi :: us, by simp, .closed hv hk hd, ?_⟩
      cases vs <;> simp_all [nextKind]
    · refine ⟨vs ++ us, by simp, .open hv ?_ hd, ?_⟩
      · intro u hu
        obtain ⟨us, rfl⟩ := List.head?_eq_some_iff.1 hu
        exact not_mem_carriesOn hstop (hhead u hu)
      · cases vs with
        | nil => exact hhead
        | cons v vs => simpa [nextKind] using ht

theorem Block.sound (hsub : Sound sub inside) {b : LetFn.Block} (h : Block sub ts b rest) :
    ∃ us, ts = us ++ rest ∧ InBraces inside us b := by
  obtain ⟨l, us, rfl, hl, hs⟩ := h
  obtain ⟨r, hrow, hr⟩ := hs.row
  obtain ⟨vs, rfl, hd, -⟩ := hrow.sound hsub
  exact ⟨l :: vs ++ [r], by simp, .mk hl hd hr⟩

/-- A loop over operators adds to what stands left of it. -/
theorem Links.sound (hsub : Sound sub inside) {floor : Nat} {left e : Expr}
    (h : Links sub floor left ts e rest) {k : Nat} {ls : List Token} (hk : k ≤ 6)
    (hfloor : min floor 4 < k) (hleft : Strong inside k ls left) (hstop : Stops k ts) :
    ∃ us, ts = us ++ rest ∧ Chain inside (tiers.drop floor) (ls ++ us) e ∧ Stops floor rest := by
  induction h generalizing k ls with
  | stop hs => exact ⟨[], rfl, by simpa using hleft.chain hfloor, hs⟩
  | @binary op left right e t ts mid rest hl hlt hr _ ih =>
    obtain ⟨-, us, rfl, hi, hmid⟩ := hsub hr
    have hle : op.strength ≤ k := hstop _ hl
    obtain ⟨vs, rfl, hd, hend⟩ := ih (by omega) (by omega) (hleft.binary hl hle hi) hmid
    exact ⟨t :: us ++ vs, by simp, by simpa using hd, hend⟩
  | @call left e args t ts mid rest hl hlt ha _ ih =>
    obtain rfl := eq_of_stops_call hl hk hstop
    obtain ⟨us, r, rfl, hr, hd⟩ := Arguments.sound hsub ha
    have hnew := hleft.call hl hd hr
    obtain ⟨vs, rfl, hd, hend⟩ := ih (by omega) hfloor hnew fun link _ => link.strength_le
    exact ⟨t :: us ++ r :: vs, by simp, by simpa using hd, hend⟩

theorem Operand.sound (hsub : Sound sub inside) {e : Expr} (h : Operand sub ts e rest) :
    ∃ us k, ts = us ++ rest ∧ 5 ≤ k ∧ k ≤ 6 ∧ Strong inside k us e ∧ Stops k rest := by
  have primary : (∃ us, ts = us ++ rest ∧ Primary inside us e) →
      ∃ us k, ts = us ++ rest ∧ 5 ≤ k ∧ k ≤ 6 ∧ Strong inside k us e ∧ Stops k rest := by
    rintro ⟨us, hts, hp⟩
    exact ⟨us, 6, hts, by decide, by decide, .primary hp, fun link _ => link.strength_le⟩
  cases h with
  | name hk => exact primary ⟨[_], rfl, .name hk⟩
  | int hk hn =>
    obtain ⟨hle, rfl⟩ := Token.integer?_eq_some_iff.1 hn
    exact primary ⟨[_], rfl, .int hk hle⟩
  | str hk => exact primary ⟨[_], rfl, .str hk⟩
  | yes hk => exact primary ⟨[_], rfl, .yes hk⟩
  | no hk => exact primary ⟨[_], rfl, .no hk⟩
  | not hk he =>
    obtain ⟨-, us, rfl, hi, hstop⟩ := hsub he
    exact ⟨_ :: us, 5, rfl, by decide, by decide, .unary (.not hk hi), hstop⟩
  | negate hk he =>
    obtain ⟨-, us, rfl, hi, hstop⟩ := hsub he
    exact ⟨_ :: us, 5, rfl, by decide, by decide, .unary (.negate hk hi), hstop⟩
  | group hl he hr =>
    obtain ⟨-, us, rfl, hi, -⟩ := hsub he
    exact primary ⟨_ :: us ++ [_], by simp, .group hl hi hr⟩
  | cond hw hl htest hr hyes =>
    obtain ⟨-, us, rfl, hi, -⟩ := hsub htest
    obtain ⟨vs, rfl, hy⟩ := hyes.sound hsub
    exact primary ⟨_ :: _ :: us ++ _ :: vs, by simp, .cond hw hl hi hr hy⟩
  | condElse hw hl htest hr hyes ho hno =>
    obtain ⟨-, us, rfl, hi, -⟩ := hsub htest
    obtain ⟨vs, hvs, hy⟩ := hyes.sound hsub
    obtain ⟨ws, rfl, hn⟩ := hno.sound hsub
    subst hvs
    exact primary ⟨_ :: _ :: us ++ _ :: vs ++ _ :: ws, by simp, .condElse hw hl hi hr hy ho hn⟩
  | fn hw hl hxs hb =>
    obtain ⟨us, r, rfl, hr, hp⟩ := 
      Separated.sound (fun ts x rest (hx : Param ts x rest) => hx.sound) hxs
    obtain ⟨vs, rfl, hd⟩ := hb.sound hsub
    exact primary ⟨_ :: _ :: us ++ r :: vs, by simp, .fn hw hl hp hr hd⟩

end Reading

theorem sound_expr (n : Nat) : Sound (Rule.expr n) (Expression n) := by
  induction n with
  | zero => exact fun h => absurd h Reads.not_error
  | succ n ih =>
    intro floor ts rest e h
    refine ⟨Rule.nextKind_mem_of_reads h, ?_⟩
    obtain ⟨left, mid, ho, hl⟩ := Rule.reads_expr_iff.1 h
    obtain ⟨us, k, rfl, h5, h6, hs, hstop⟩ := ho.sound ih
    obtain ⟨vs, rfl, hd, hend⟩ := hl.sound ih h6 (by omega) hs hstop
    exact ⟨us ++ vs, by simp, hd, hend⟩

end LetFn
