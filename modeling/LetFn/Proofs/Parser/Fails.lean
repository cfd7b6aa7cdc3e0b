import LetFn.Proofs.Grammar.Sound

/-!
# What the rules fail at

The failures of the parser as relations between words and what is wrong with them, beside the
relations of what is read.

* `missing`: a failure for want of one class of words; `expect_eq_error_iff` says when it arises.
* `Reads.bind_eq_error_iff`: a sequence of rules fails where one of them does.
* `Failing.Statement`, `Failing.Statements`, `Failing.Block`, `Failing.Items`, `Failing.Separated`,
  `Failing.Links`, `Failing.Operand`: what each rule fails at, given the rule for the expressions
  inside. Each comes with the equivalence to its rule (`Rule.statement_eq_error_iff` and its like).
-/

namespace LetFn
open Token (Kind)

/-! ## Sequences -/

/-- A sequence of rules fails where one of them does. -/
@[simp] theorem Reads.bind_eq_error_iff {α β : Type} {m n : Nat} {r : Except Failure (Parsed α m)}
    {k : Parsed α m → Except Failure (Parsed β n)} {f : Failure} :
    r >>= k = .error f ↔
      r = .error f ∨ ∃ a mid, ∃ h : Reads r a mid, k ⟨a, mid, h.length_lt⟩ = .error f := by
  cases r with
  | error g =>
    constructor
    · exact fun h => .inl (congrArg _ (Except.error.inj h))
    · rintro (h | ⟨a, mid, h, -⟩)
      · rw [Except.error.inj h]
        rfl
      · exact absurd h Reads.not_error
  | ok p =>
    constructor
    · exact fun h => .inr ⟨p.value, p.rest, Reads.ok_iff.2 ⟨rfl, rfl⟩, h⟩
    · rintro (h | ⟨a, mid, h, hk⟩)
      · cases h
      · obtain ⟨rfl, rfl⟩ := Reads.ok_iff.1 h
        exact hk

@[simp] theorem Reads.map_eq_error_iff {α β : Type} {m n : Nat} {r : Except Failure (Parsed α m)}
    {g : Parsed α m → Parsed β n} {f : Failure} : r.map g = .error f ↔ r = .error f := by
  cases r with
  | error e =>
    constructor
    · exact fun h => congrArg _ (Except.error.inj h)
    · intro h
      rw [Except.error.inj h]
      rfl
  | ok p => exact ⟨fun h => (by cases h), fun h => (by cases h)⟩

/-- A failure for want of a word of some class. -/
def missing (wanted : Kind) (ts : List Token) : Failure := ⟨.unexpected wanted (nextKind ts), ts⟩

theorem expect_eq_error_iff (wanted : Kind) (hw : wanted ≠ .eof) {ts : List Token} {f : Failure} :
    expect wanted ts = .error f ↔ nextKind ts ≠ wanted ∧ f = missing wanted ts := by
  cases ts with
  | nil =>
    rw [expect, Except.error.injEq, nextKind, missing, nextKind, eq_comm]
    exact ⟨fun h => ⟨hw.symm, h⟩, And.right⟩
  | cons t ts =>
    rw [expect, nextKind]
    by_cases ht : t.kind = wanted
    · rw [if_pos ht]
      exact ⟨fun h => (by cases h), fun h => absurd ht h.1⟩
    · rw [if_neg ht, Except.error.injEq, missing, nextKind, eq_comm]
      exact ⟨fun h => ⟨ht, h⟩, And.right⟩

theorem exists_cons_of_nextKind {k : Kind} (hk : k ≠ .eof) {ts : List Token}
    (h : nextKind ts = k) : ∃ t us, ts = t :: us ∧ t.kind = k := by
  cases ts with
  | nil => exact absurd h hk.symm
  | cons t us => exact ⟨t, us, rfl, h⟩

/-! ## The failures as relations -/

namespace Failing

/-- The list of items breaks off: an item fails, or neither a comma nor the bracket follows. -/
inductive Items {α : Type} (item : List Token → α → List Token → Prop)
    (fails : List Token → Failure → Prop) : List Token → Failure → Prop
  | stop {ts : List Token} :
      nextKind ts ≠ .comma → nextKind ts ≠ .rightParen →
      Items item fails ts (missing .rightParen ts)
  | item {t : Token} {ts : List Token} {f : Failure} :
      t.kind = .comma → fails ts f → Items item fails (t :: ts) f
  | step {t : Token} {ts mid : List Token} {a : α} {f : Failure} :
      t.kind = .comma → item ts a mid → Items item fails mid f → Items item fails (t :: ts) f

inductive Separated {α : Type} (item : List Token → α → List Token → Prop)
    (fails : List Token → Failure → Prop) : List Token → Failure → Prop
  | first {ts : List Token} {f : Failure} :
      nextKind ts ≠ .rightParen → fails ts f → Separated item fails ts f
  | items {ts mid : List Token} {a : α} {f : Failure} :
      nextKind ts ≠ .rightParen → item ts a mid → Items item fails mid f →
      Separated item fails ts f

/-- A parameter is a name. -/
def Param (ts : List Token) (f : Failure) : Prop := nextKind ts ≠ .name ∧ f = missing .name ts

section

/- The rule for the expressions inside, by their floor. -/
variable (sub : Nat → Rule Expr)

inductive Statement : List Token → Failure → Prop
  | name {w : Token} {ts : List Token} :
      w.kind = .letWord → nextKind ts ≠ .name → Statement (w :: ts) (missing .name ts)
  | sign {w x : Token} {ts : List Token} :
      w.kind = .letWord → x.kind = .name → nextKind ts ≠ .assign →
      Statement (w :: x :: ts) (missing .assign ts)
  | bind {w x s : Token} {ts : List Token} {f : Failure} :
      w.kind = .letWord → x.kind = .name → s.kind = .assign → sub 0 ts = .error f →
      Statement (w :: x :: s :: ts) f
  | ret {w : Token} {ts : List Token} {f : Failure} :
      w.kind = .returnWord → sub 0 ts = .error f → Statement (w :: ts) f
  | expr {ts : List Token} {f : Failure} :
      nextKind ts ≠ .letWord → nextKind ts ≠ .returnWord → sub 0 ts = .error f → Statement ts f

/-- Statements that do not come to a closing brace. -/
inductive Statements : List Token → Failure → Prop
  | stop : Statements [] (missing .rightBrace [])
  | first {t : Token} {ts : List Token} {f : Failure} :
      t.kind ≠ .rightBrace → Statement sub (t :: ts) f → Statements (t :: ts) f
  | step {t : Token} {ts mid : List Token} {s : Stmt} {f : Failure} :
      t.kind ≠ .rightBrace → Reading.Statement sub (t :: ts) s mid → Statements mid f →
      Statements (t :: ts) f

inductive Block : List Token → Failure → Prop
  | brace {ts : List Token} : nextKind ts ≠ .leftBrace → Block ts (missing .leftBrace ts)
  | statements {l : Token} {ts : List Token} {f : Failure} :
      l.kind = .leftBrace → Statements sub ts f → Block (l :: ts) f

/-- Arguments after their opening bracket. -/
abbrev Arguments : List Token → Failure → Prop :=
  Separated (fun ts e rest => Reads (sub 0 ts) e rest) fun ts f => sub 0 ts = .error f

/-- The operators and calls that bind tighter than `floor`: a right operand or an argument fails. -/
inductive Links (floor : Nat) : List Token → Failure → Prop
  | right {op : BinaryOp} {t : Token} {ts : List Token} {f : Failure} :
      Link.ofKind? t.kind = some (.binary op) → floor < op.strength →
      sub op.strength ts = .error f → Links floor (t :: ts) f
  | args {t : Token} {ts : List Token} {f : Failure} :
      Link.ofKind? t.kind = some .call → floor < callStrength → Arguments sub ts f →
      Links floor (t :: ts) f
  | binary {op : BinaryOp} {right : Expr} {t : Token} {ts mid : List Token} {f : Failure} :
      Link.ofKind? t.kind = some (.binary op) → floor < op.strength →
      Reads (sub op.strength ts) right mid → Links floor mid f → Links floor (t :: ts) f
  | call {as : List Expr} {t : Token} {ts mid : List Token} {f : Failure} :
      Link.ofKind? t.kind = some .call → floor < callStrength → Reading.Arguments sub ts as mid →
      Links floor mid f → Links floor (t :: ts) f

inductive Operand : List Token → Failure → Prop
  | start {ts : List Token} :
      nextKind ts ∉ startsExpression → Operand ts ⟨.noOperand (nextKind ts), ts⟩
  | int {t : Token} {ts : List Token} :
      t.kind = .int → t.integer? = none → Operand (t :: ts) ⟨.oversizedInteger t.text, t :: ts⟩
  | sign {t : Token} {ts : List Token} {f : Failure} :
      t.kind = .bang ∨ t.kind = .minus → sub unaryStrength ts = .error f → Operand (t :: ts) f
  | group {l : Token} {ts : List Token} {f : Failure} :
      l.kind = .leftParen → sub 0 ts = .error f → Operand (l :: ts) f
  | groupEnd {l : Token} {ts mid : List Token} {e : Expr} :
      l.kind = .leftParen → Reads (sub 0 ts) e mid → nextKind mid ≠ .rightParen →
      Operand (l :: ts) (missing .rightParen mid)
  | condOpen {w : Token} {ts : List Token} :
      w.kind = .ifWord → nextKind ts ≠ .leftParen → Operand (w :: ts) (missing .leftParen ts)
  | condTest {w l : Token} {ts : List Token} {f : Failure} :
      w.kind = .ifWord → l.kind = .leftParen → sub 0 ts = .error f → Operand (w :: l :: ts) f
  | condClose {w l : Token} {ts mid : List Token} {test : Expr} :
      w.kind = .ifWord → l.kind = .leftParen → Reads (sub 0 ts) test mid →
      nextKind mid ≠ .rightParen → Operand (w :: l :: ts) (missing .rightParen mid)
  | condYes {w l r : Token} {ts us : List Token} {test : Expr} {f : Failure} :
      w.kind = .ifWord → l.kind = .leftParen → Reads (sub 0 ts) test (r :: us) →
      r.kind = .rightParen → Block sub us f → Operand (w :: l :: ts) f
  | condNo {w l r o : Token} {ts us vs : List Token} {test : Expr} {yes : LetFn.Block}
      {f : Failure} :
      w.kind = .ifWord → l.kind = .leftParen → Reads (sub 0 ts) test (r :: us) →
      r.kind = .rightParen → Reading.Block sub us yes (o :: vs) → o.kind = .elseWord →
      Block sub vs f → Operand (w :: l :: ts) f
  | fnOpen {w : Token} {ts : List Token} :
      w.kind = .fnWord → nextKind ts ≠ .leftParen → Operand (w :: ts) (missing .leftParen ts)
  | fnParams {w l : Token} {ts : List Token} {f : Failure} :
      w.kind = .fnWord → l.kind = .leftParen → Separated Reading.Param Param ts f →
      Operand (w :: l :: ts) f
  | fnBody {w l : Token} {ts us : List Token} {xs : List String} {f : Failure} :
      w.kind = .fnWord → l.kind = .leftParen → Reading.Separated Reading.Param ts xs us →
      Block sub us f → Operand (w :: l :: ts) f

end

end Failing

/-! ## Each rule fails at what its relation says -/

namespace Rule
variable {sub : Nat → Rule Expr} {ts : List Token} {f : Failure}

theorem statement_eq_error_iff : statement sub ts = .error f ↔ Failing.Statement sub ts f := by
  constructor
  · intro h
    unfold statement at h
    split at h
    · rw [Reads.map_eq_error_iff] at h
      exact .expr (by decide) (by decide) h
    · next t ts =>
      split at h
      · next hk =>
        simp only [Reads.bind_eq_error_iff, expect_eq_error_iff .name (by decide),
          expect_eq_error_iff .assign (by decide), reads_expect_iff] at h
        obtain ⟨hn, rfl⟩ | ⟨x, us, ⟨rfl, hx⟩, ⟨hn, rfl⟩ | ⟨s, vs, ⟨rfl, hs⟩, h |
          ⟨e, mid, he, h⟩⟩⟩ := h
        · exact .name hk hn
        · exact .sign hk hx hn
        · exact .bind hk hx hs h
        · cases h
      · next hk =>
        simp only [Reads.bind_eq_error_iff] at h
        obtain h | ⟨e, mid, he, h⟩ := h
        · exact .ret hk h
        · cases h
      · next hl hr =>
        simp only [Reads.bind_eq_error_iff] at h
        obtain h | ⟨e, mid, he, h⟩ := h
        · exact .expr hl hr h
        · cases h
  · intro h
    cases h with
    | name hw hn =>
      simp only [statement, hw, Reads.bind_eq_error_iff]
      exact .inl ((expect_eq_error_iff _ (by decide)).2 ⟨hn, rfl⟩)
    | sign hw hx hn =>
      simp only [statement, hw, Reads.bind_eq_error_iff, reads_expect_iff]
      exact .inr ⟨_, _, ⟨rfl, hx⟩, .inl ((expect_eq_error_iff _ (by decide)).2 ⟨hn, rfl⟩)⟩
    | bind hw hx hs he =>
      simp only [statement, hw, Reads.bind_eq_error_iff, reads_expect_iff]
      exact .inr ⟨_, _, ⟨rfl, hx⟩, .inr ⟨_, _, ⟨rfl, hs⟩, .inl he⟩⟩
    | ret hw he =>
      simp only [statement, hw, Reads.bind_eq_error_iff]
      exact .inl he
    | expr hl hr he =>
      cases ts with
      | nil =>
        rw [statement, Reads.map_eq_error_iff]
        exact he
      | cons t ts =>
        simp only [statement]
        split
        · next hk => exact absurd hk hl
        · next hk => exact absurd hk hr
        · exact Reads.bind_eq_error_iff.2 (.inl he)

theorem statementsTo_eq_error_iff {bound : Nat} {done : Block} {h : ts.length < bound} :
    statementsTo sub done ts h = .error f ↔ Failing.Statements sub ts f := by
  fun_induction statementsTo sub done ts h with
  | case1 done =>
    constructor
    · rintro ⟨⟩
      exact .stop
    · rintro ⟨⟩
      rfl
  | case2 done t ts h hk =>
    constructor
    · rintro ⟨⟩
    · intro hf
      cases hf with
      | first hn => exact absurd hk hn
      | step hn => exact absurd hk hn
  | case3 done t ts h hk g hg =>
    constructor
    · rintro ⟨⟩
      exact .first hk (statement_eq_error_iff.1 hg)
    · intro hf
      cases hf with
      | first _ hs =>
        rw [← statement_eq_error_iff, hg] at hs
        exact congrArg _ (Except.error.inj hs)
      | step _ hs =>
        rw [← reads_statement_iff, hg] at hs
        exact absurd hs Reads.not_error
  | case4 done t ts h hk s mid hm hs _ ih =>
    rw [ih]
    have hr : Reads (statement sub (t :: ts)) s mid := ⟨hm, hs⟩
    constructor
    · exact fun hf => .step hk (reads_statement_iff.1 hr) hf
    · intro hf
      cases hf with
      | first _ hg =>
        rw [← statement_eq_error_iff, hs] at hg
        cases hg
      | step _ hs' hf =>
        rw [← reads_statement_iff, hs, Reads.ok_iff] at hs'
        obtain ⟨rfl, rfl⟩ := hs'
        exact hf

theorem block_eq_error_iff : block sub ts = .error f ↔ Failing.Block sub ts f := by
  simp only [block, Reads.bind_eq_error_iff, expect_eq_error_iff .leftBrace (by decide),
    reads_expect_iff, statementsTo_eq_error_iff]
  constructor
  · rintro (⟨hn, rfl⟩ | ⟨l, us, ⟨rfl, hl⟩, hf⟩)
    · exact .brace hn
    · exact .statements hl hf
  · intro hf
    cases hf with
    | brace hn => exact .inl ⟨hn, rfl⟩
    | statements hl hf => exact .inr ⟨_, _, ⟨rfl, hl⟩, hf⟩

section
variable {α : Type} {item : Rule α}

theorem itemsTo_eq_error_iff {bound : Nat} {done : List α} {h : ts.length < bound} :
    itemsTo item done ts h = .error f ↔
      Failing.Items (fun ts a rest => Reads (item ts) a rest) (fun ts f => item ts = .error f)
        ts f := by
  fun_induction itemsTo item done ts h with
  | case1 done =>
    constructor
    · rintro ⟨⟩
      exact .stop (by decide) (by decide)
    · rintro ⟨⟩
      rfl
  | case2 done t ts h hk g hg =>
    constructor
    · rintro ⟨⟩
      exact .item hk hg
    · intro hf
      cases hf with
      | stop hn => exact absurd hk hn
      | item _ hf =>
        rw [hg] at hf
        exact congrArg _ (Except.error.inj hf)
      | step _ ha =>
        rw [hg] at ha
        exact absurd ha Reads.not_error
  | case3 done t ts h hk a mid hm ha _ ih =>
    rw [ih]
    constructor
    · exact fun hf => .step hk ⟨hm, ha⟩ hf
    · intro hf
      cases hf with
      | stop hn => exact absurd hk hn
      | item _ hf =>
        rw [ha] at hf
        cases hf
      | step _ ha' hf =>
        rw [ha, Reads.ok_iff] at ha'
        obtain ⟨rfl, rfl⟩ := ha'
        exact hf
  | case4 done t ts h hc hk =>
    constructor
    · rintro ⟨⟩
    · intro hf
      cases hf with
      | stop _ hn => exact absurd hk hn
      | item hn => exact absurd hn hc
      | step hn => exact absurd hn hc
  | case5 done t ts h hc hk =>
    constructor
    · rintro ⟨⟩
      exact .stop hc hk
    · intro hf
      cases hf with
      | stop => rfl
      | item hn => exact absurd hn hc
      | step hn => exact absurd hn hc

theorem separated_eq_error_iff :
    separated item ts = .error f ↔
      Failing.Separated (fun ts a rest => Reads (item ts) a rest) (fun ts f => item ts = .error f)
        ts f := by
  unfold separated
  by_cases hk : nextKind ts = .rightParen
  · rw [if_pos hk, Reads.map_eq_error_iff, expect_eq_error_iff _ (by decide)]
    constructor
    · exact fun h => absurd hk h.1
    · intro hf
      cases hf with
      | first hn => exact absurd hk hn
      | items hn => exact absurd hk hn
  · simp only [hk, if_false, Reads.bind_eq_error_iff, itemsTo_eq_error_iff]
    constructor
    · rintro (hf | ⟨a, mid, ha, hf⟩)
      · exact .first hk hf
      · exact .items hk ha hf
    · intro hf
      cases hf with
      | first _ hf => exact .inl hf
      | items _ ha hf => exact .inr ⟨_, _, ha, hf⟩

end

theorem param_eq_error_iff : param ts = .error f ↔ Failing.Param ts f := by
  rw [param, Reads.map_eq_error_iff, expect_eq_error_iff _ (by decide), Failing.Param]

theorem linksAfter_eq_error_iff {floor bound : Nat} {left : Expr} {h : ts.length < bound} :
    linksAfter sub floor left ts h = .error f ↔ Failing.Links sub floor ts f := by
  fun_induction linksAfter sub floor left ts h with
  | case1 left =>
    constructor
    · rintro ⟨⟩
    · rintro ⟨⟩
  | case2 left t ts h hk =>
    constructor
    · rintro ⟨⟩
    · intro hf
      cases hf with
      | right hn | args hn | binary hn | call hn => rw [hk] at hn; cases hn
  | case3 left t ts h op g hg _ hk hlt =>
    constructor
    · rintro ⟨⟩
      exact .right hk hlt hg
    · intro hf
      cases hf with
      | right hk' _ hf =>
        rw [hk, Option.some.injEq, Link.binary.injEq] at hk'
        subst hk'
        rw [hg] at hf
        exact congrArg _ (Except.error.inj hf)
      | binary hk' _ hr =>
        rw [hk, Option.some.injEq, Link.binary.injEq] at hk'
        subst hk'
        rw [hg] at hr
        exact absurd hr Reads.not_error
      | args hn | call hn => rw [hk] at hn; cases hn
  | case4 left t ts h op right mid hm hr _ hk hlt ih =>
    rw [ih]
    constructor
    · exact fun hf => .binary hk hlt ⟨hm, hr⟩ hf
    · intro hf
      cases hf with
      | right hk' _ hf =>
        rw [hk, Option.some.injEq, Link.binary.injEq] at hk'
        subst hk'
        rw [hr] at hf
        cases hf
      | binary hk' _ hr' hf =>
        rw [hk, Option.some.injEq, Link.binary.injEq] at hk'
        subst hk'
        rw [hr, Reads.ok_iff] at hr'
        obtain ⟨rfl, rfl⟩ := hr'
        exact hf
      | args hn | call hn => rw [hk] at hn; cases hn
  | case5 left t ts h g hg _ hk hlt =>
    constructor
    · rintro ⟨⟩
      exact .args hk hlt (separated_eq_error_iff.1 hg)
    · intro hf
      cases hf with
      | args _ _ hf =>
        rw [Failing.Arguments, ← separated_eq_error_iff, hg] at hf
        exact congrArg _ (Except.error.inj hf)
      | call _ _ ha =>
        rw [Reading.Arguments, ← reads_separated_iff, hg] at ha
        exact absurd ha Reads.not_error
      | right hn | binary hn => rw [hk] at hn; cases hn
  | case6 left t ts h args mid hm ha _ hk hlt ih =>
    rw [ih]
    have hargs : Reads (separated (sub 0) ts) args mid := ⟨hm, ha⟩
    constructor
    · exact fun hf => .call hk hlt (reads_separated_iff.1 hargs) hf
    · intro hf
      cases hf with
      | args _ _ hf =>
        rw [Failing.Arguments, ← separated_eq_error_iff, ha] at hf
        cases hf
      | call _ _ ha' hf =>
        rw [Reading.Arguments, ← reads_separated_iff, ha, Reads.ok_iff] at ha'
        obtain ⟨rfl, rfl⟩ := ha'
        exact hf
      | right hn | binary hn => rw [hk] at hn; cases hn
  | case7 left t ts h link hk hlt =>
    constructor
    · rintro ⟨⟩
    · intro hf
      cases hf with
      | right hk' hlt' | binary hk' hlt' | args hk' hlt' | call hk' hlt' =>
        rw [hk, Option.some.injEq] at hk'
        subst hk'
        exact absurd hlt' hlt

theorem conditional_eq_error_iff {t : Token} (ht : t.kind = .ifWord) :
    conditional sub ts = .error f ↔ Failing.Operand sub (t :: ts) f := by
  simp only [conditional, Reads.bind_eq_error_iff, reads_expect_iff,
    expect_eq_error_iff .leftParen (by decide),
    expect_eq_error_iff .rightParen (by decide), block_eq_error_iff, reads_block_iff]
  constructor
  · rintro (⟨hn, rfl⟩ | ⟨l, us, ⟨rfl, hl⟩, hf | ⟨test, mid, htest, ⟨hn, rfl⟩ |
      ⟨r, vs, ⟨rfl, hr⟩, hf | ⟨yes, ws, hyes, hf⟩⟩⟩⟩)
    · exact .condOpen ht hn
    · exact .condTest ht hl hf
    · exact .condClose ht hl htest hn
    · exact .condYes ht hl htest hr hf
    · split at hf
      · next hk =>
        obtain ⟨o, xs, rfl, ho⟩ := exists_cons_of_nextKind (by decide) hk
        simp only [Reads.bind_eq_error_iff, expect_eq_error_iff .elseWord (by decide),
          reads_expect_iff, block_eq_error_iff] at hf
        obtain ⟨hn, -⟩ | ⟨o', xs', ⟨heq, _⟩, hno | ⟨no, ys, _, h⟩⟩ := hf
        · exact absurd hk hn
        · obtain ⟨rfl, rfl⟩ := List.cons.inj heq
          exact .condNo ht hl htest hr hyes ho hno
        · cases h
      · cases hf
  · intro h
    cases h with
    | condOpen _ hn => exact .inl ⟨hn, rfl⟩
    | condTest _ hl hf => exact .inr ⟨_, _, ⟨rfl, hl⟩, .inl hf⟩
    | condClose _ hl htest hn =>
      exact .inr ⟨_, _, ⟨rfl, hl⟩, .inr ⟨_, _, htest, .inl ⟨hn, rfl⟩⟩⟩
    | condYes _ hl htest hr hf =>
      exact .inr ⟨_, _, ⟨rfl, hl⟩, .inr ⟨_, _, htest, .inr ⟨_, _, ⟨rfl, hr⟩, .inl hf⟩⟩⟩
    | condNo _ hl htest hr hyes ho hf =>
      refine .inr ⟨_, _, ⟨rfl, hl⟩, .inr ⟨_, _, htest, .inr ⟨_, _, ⟨rfl, hr⟩,
        .inr ⟨_, _, hyes, ?_⟩⟩⟩⟩
      simp only [nextKind, ho, if_true, Reads.bind_eq_error_iff, reads_expect_iff]
      exact .inr ⟨_, _, ⟨rfl, ho⟩, .inl (block_eq_error_iff.2 hf)⟩
    | start hn => exact absurd (by rw [nextKind, ht]; decide) hn
    | int h | group h | groupEnd h | fnOpen h | fnParams h | fnBody h => rw [ht] at h; cases h
    | sign h => rw [ht] at h; obtain h | h := h <;> cases h

theorem function_eq_error_iff {t : Token} (ht : t.kind = .fnWord) :
    function sub ts = .error f ↔ Failing.Operand sub (t :: ts) f := by
  have hparams : ∀ {us xs mid}, Reads (separated param us) xs mid ↔
      Reading.Separated Reading.Param us xs mid := by
    simp only [reads_separated_iff, reads_param_iff, implies_true]
  have hfails : ∀ {us f}, separated param us = .error f ↔
      Failing.Separated Reading.Param Failing.Param us f := by
    simp only [separated_eq_error_iff, reads_param_iff, param_eq_error_iff, implies_true]
  simp only [function, Reads.bind_eq_error_iff, reads_expect_iff,
    expect_eq_error_iff .leftParen (by decide), hparams, hfails, block_eq_error_iff]
  constructor
  · rintro (⟨hn, rfl⟩ | ⟨l, us, ⟨rfl, hl⟩, hf | ⟨xs, mid, hxs, hf | ⟨body, ws, hb, hf⟩⟩⟩)
    · exact .fnOpen ht hn
    · exact .fnParams ht hl hf
    · exact .fnBody ht hl hxs hf
    · cases hf
  · intro h
    cases h with
    | fnOpen _ hn => exact .inl ⟨hn, rfl⟩
    | fnParams _ hl hf => exact .inr ⟨_, _, ⟨rfl, hl⟩, .inl hf⟩
    | fnBody _ hl hxs hf => exact .inr ⟨_, _, ⟨rfl, hl⟩, .inr ⟨_, _, hxs, .inl hf⟩⟩
    | start hn => exact absurd (by rw [nextKind, ht]; decide) hn
    | int h | group h | groupEnd h | condOpen h | condTest h | condClose h | condYes h | condNo h =>
      rw [ht] at h
      cases h
    | sign h => rw [ht] at h; obtain h | h := h <;> cases h

theorem failing_of_operand_eq_error (h : operand sub ts = .error f) :
    Failing.Operand sub ts f := by
  cases ts with
  | nil =>
    rw [operand, Except.error.injEq] at h
    rw [← h]
    exact .start (by decide)
  | cons t ts =>
    unfold operand at h
    dsimp only at h
    split at h
    · cases h
    · next hk =>
      split at h
      · cases h
      · next hn =>
        cases h
        exact .int hk hn
    · cases h
    · cases h
    · cases h
    · next hk =>
      simp only [Reads.bind_eq_error_iff] at h
      obtain h | ⟨e, mid, he, h⟩ := h
      · exact .sign (.inl hk) h
      · cases h
    · next hk =>
      simp only [Reads.bind_eq_error_iff] at h
      obtain h | ⟨e, mid, he, h⟩ := h
      · exact .sign (.inr hk) h
      · cases h
    · next hk =>
      simp only [Reads.bind_eq_error_iff, expect_eq_error_iff .rightParen (by decide)]
        at h
      obtain h | ⟨e, mid, he, ⟨hn, rfl⟩ | ⟨r, us, hr, h⟩⟩ := h
      · exact .group hk h
      · exact .groupEnd hk he hn
      · cases h
    · next hk =>
      simp only [Reads.bind_eq_error_iff] at h
      obtain h | ⟨e, mid, he, h⟩ := h
      · exact (conditional_eq_error_iff hk).1 h
      · cases h
    · next hk =>
      simp only [Reads.bind_eq_error_iff] at h
      obtain h | ⟨e, mid, he, h⟩ := h
      · exact (function_eq_error_iff hk).1 h
      · cases h
    · rw [Except.error.injEq] at h
      rw [← h]
      refine .start fun hmem => ?_
      simp only [nextKind, startsExpression, List.mem_cons, List.not_mem_nil, or_false] at hmem
      grind

theorem operand_eq_error_of_failing (h : Failing.Operand sub ts f) :
    operand sub ts = .error f := by
  cases h with
  | start hn =>
    cases ts with
    | nil => rfl
    | cons t ts =>
      unfold operand
      dsimp only
      split
      all_goals first
        | rfl
        | next hk => exact absurd (by rw [nextKind, hk]; decide) hn
  | int hk hn => simp only [operand, hk, hn]
  | sign hk hf =>
    obtain hk | hk := hk <;>
    · simp only [operand, hk, Reads.bind_eq_error_iff]
      exact .inl hf
  | group hk hf =>
    simp only [operand, hk, Reads.bind_eq_error_iff]
    exact .inl hf
  | groupEnd hk he hn =>
    simp only [operand, hk, Reads.bind_eq_error_iff]
    exact .inr ⟨_, _, he, .inl ((expect_eq_error_iff _ (by decide)).2 ⟨hn, rfl⟩)⟩
  | condOpen hk hn =>
    simp only [operand, hk, Reads.bind_eq_error_iff]
    exact .inl ((conditional_eq_error_iff hk).2 (.condOpen hk hn))
  | condTest hk hl hf =>
    simp only [operand, hk, Reads.bind_eq_error_iff]
    exact .inl ((conditional_eq_error_iff hk).2 (.condTest hk hl hf))
  | condClose hk hl htest hn =>
    simp only [operand, hk, Reads.bind_eq_error_iff]
    exact .inl ((conditional_eq_error_iff hk).2 (.condClose hk hl htest hn))
  | condYes hk hl htest hr hf =>
    simp only [operand, hk, Reads.bind_eq_error_iff]
    exact .inl ((conditional_eq_error_iff hk).2 (.condYes hk hl htest hr hf))
  | condNo hk hl htest hr hyes ho hf =>
    simp only [operand, hk, Reads.bind_eq_error_iff]
    exact .inl ((conditional_eq_error_iff hk).2 (.condNo hk hl htest hr hyes ho hf))
  | fnOpen hk hn =>
    simp only [operand, hk, Reads.bind_eq_error_iff]
    exact .inl ((function_eq_error_iff hk).2 (.fnOpen hk hn))
  | fnParams hk hl hf =>
    simp only [operand, hk, Reads.bind_eq_error_iff]
    exact .inl ((function_eq_error_iff hk).2 (.fnParams hk hl hf))
  | fnBody hk hl hxs hf =>
    simp only [operand, hk, Reads.bind_eq_error_iff]
    exact .inl ((function_eq_error_iff hk).2 (.fnBody hk hl hxs hf))

theorem operand_eq_error_iff : operand sub ts = .error f ↔ Failing.Operand sub ts f :=
  ⟨failing_of_operand_eq_error, operand_eq_error_of_failing⟩

theorem expr_eq_error_iff {levels floor : Nat} :
    expr (levels + 1) floor ts = .error f ↔
      Failing.Operand (expr levels) ts f ∨
        ∃ left mid, Reading.Operand (expr levels) ts left mid ∧
          Failing.Links (expr levels) floor mid f := by
  simp only [expr, Reads.bind_eq_error_iff, operand_eq_error_iff, reads_operand_iff,
    linksAfter_eq_error_iff, exists_prop]

end Rule

end LetFn
