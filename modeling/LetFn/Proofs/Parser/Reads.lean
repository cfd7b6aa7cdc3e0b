import LetFn.Program.Parser

/-!
# What the rules read

The rules of the parser as relations between words, what is read and the words left over, without
the bounds and accumulators that the rules carry.

* `Reads r a rest`: the outcome `r` is a success; `Reads.bind_iff` and `Reads.map_iff` take a
  sequence of rules apart.
* `Reading.Statement`, `Reading.Statements`, `Reading.Block`, `Reading.Items`, `Reading.Separated`,
  `Reading.Links`, `Reading.Operand`: what each rule reads, given the rule for the expressions
  inside. Each comes with the equivalence to its rule (`reads_statement_iff` and its like).
* `Reading.Row`: statements one after the other, whatever ends them.
-/

namespace LetFn
open Token (Kind)

/-- The outcome `r` is a success with the value `a`, and `rest` is left. -/
def Reads {α : Type} {bound : Nat} (r : Except Failure (Parsed α bound)) (a : α)
    (rest : List Token) : Prop :=
  ∃ h, r = .ok ⟨a, rest, h⟩

namespace Reads
variable {α β : Type} {m n : Nat} {a : α} {b : β} {rest : List Token}

theorem length_lt {r : Except Failure (Parsed α n)} (h : Reads r a rest) : rest.length < n := h.1

@[simp] theorem ok_iff {p : Parsed α n} : Reads (.ok p) a rest ↔ p.value = a ∧ p.rest = rest := by
  obtain ⟨b, mid, h⟩ := p
  constructor
  · rintro ⟨h', he⟩
    cases he
    exact ⟨rfl, rfl⟩
  · rintro ⟨rfl, rfl⟩
    exact ⟨h, rfl⟩

@[simp] theorem pure_iff {p : Parsed α n} :
    Reads (pure p) a rest ↔ p.value = a ∧ p.rest = rest := ok_iff

@[simp] theorem not_error {f : Failure} :
    ¬ Reads (.error f : Except Failure (Parsed α n)) a rest := fun h => nomatch h.2

@[simp] theorem bind_iff {r : Except Failure (Parsed α m)}
    {k : Parsed α m → Except Failure (Parsed β n)} :
    Reads (r >>= k) b rest ↔
      ∃ a mid, ∃ h : Reads r a mid, Reads (k ⟨a, mid, h.length_lt⟩) b rest := by
  cases r with
  | error f =>
    constructor
    · exact fun h => nomatch h.2
    · rintro ⟨a, mid, h, -⟩
      exact absurd h not_error
  | ok p =>
    constructor
    · intro h
      exact ⟨p.value, p.rest, ok_iff.2 ⟨rfl, rfl⟩, h⟩
    · rintro ⟨a, mid, h, hk⟩
      obtain ⟨rfl, rfl⟩ := ok_iff.1 h
      exact hk

@[simp] theorem map_iff {r : Except Failure (Parsed α m)} {g : Parsed α m → Parsed β n} :
    Reads (g <$> r) b rest ↔
      ∃ a mid, ∃ h : Reads r a mid,
        (g ⟨a, mid, h.length_lt⟩).value = b ∧ (g ⟨a, mid, h.length_lt⟩).rest = rest := by
  rw [map_eq_pure_bind, bind_iff]
  simp only [pure_iff]

@[simp] theorem exceptMap_iff {r : Except Failure (Parsed α m)} {g : Parsed α m → Parsed β n} :
    Reads (r.map g) b rest ↔
      ∃ a mid, ∃ h : Reads r a mid,
        (g ⟨a, mid, h.length_lt⟩).value = b ∧ (g ⟨a, mid, h.length_lt⟩).rest = rest := map_iff

end Reads

@[simp] theorem reads_expect_iff {wanted : Kind} {ts rest : List Token} {t : Token} :
    Reads (expect wanted ts) t rest ↔ ts = t :: rest ∧ t.kind = wanted := by
  unfold expect
  split
  · simp
  · next u us =>
    by_cases h : u.kind = wanted
    · simp only [h, if_true, Reads.ok_iff, List.cons.injEq]
      grind
    · simp only [h, if_false, Reads.not_error, List.cons.injEq, false_iff]
      grind

/-! ## The rules as relations -/

namespace Reading

/-- No operator or bracket that binds tighter than `floor` comes next. -/
def Stops (floor : Nat) (ts : List Token) : Prop :=
  ∀ link, Link.ofKind? (nextKind ts) = some link → link.strength ≤ floor

/-- More items up to a closing bracket, a comma before each. -/
inductive Items {α : Type} (item : List Token → α → List Token → Prop) :
    List Token → List α → List Token → Prop
  | stop {t : Token} {ts : List Token} : t.kind = .rightParen → Items item (t :: ts) [] ts
  | step {t : Token} {ts mid rest : List Token} {a : α} {as : List α} :
      t.kind = .comma → item ts a mid → Items item mid as rest → Items item (t :: ts) (a :: as) rest

/-- Items up to a closing bracket, parted by commas. -/
inductive Separated {α : Type} (item : List Token → α → List Token → Prop) :
    List Token → List α → List Token → Prop
  | none {t : Token} {ts : List Token} : t.kind = .rightParen → Separated item (t :: ts) [] ts
  | some {ts mid rest : List Token} {a : α} {as : List α} :
      nextKind ts ≠ .rightParen → item ts a mid → Items item mid as rest →
      Separated item ts (a :: as) rest

/-- A parameter. -/
def Param (ts : List Token) (x : String) (rest : List Token) : Prop :=
  ∃ t, ts = t :: rest ∧ t.kind = .name ∧ t.text = x

section

/- The rule for the expressions inside, by their floor. -/
variable (sub : Nat → Rule Expr)

inductive Statement : List Token → Stmt → List Token → Prop
  | bind {w x s : Token} {ts rest : List Token} {e : Expr} :
      w.kind = .letWord → x.kind = .name → s.kind = .assign → Reads (sub 0 ts) e rest →
      Statement (w :: x :: s :: ts) (.bind x.text e) (dropSemicolon rest)
  | ret {w : Token} {ts rest : List Token} {e : Expr} :
      w.kind = .returnWord → Reads (sub 0 ts) e rest →
      Statement (w :: ts) (.ret e) (dropSemicolon rest)
  | expr {ts rest : List Token} {e : Expr} :
      nextKind ts ≠ .letWord → nextKind ts ≠ .returnWord → Reads (sub 0 ts) e rest →
      Statement ts (.expr e) (dropSemicolon rest)

/-- Statements in a row. -/
inductive Row : List Token → Block → List Token → Prop
  | nil {ts : List Token} : Row ts [] ts
  | cons {ts mid rest : List Token} {s : Stmt} {ss : Block} :
      Statement sub ts s mid → Row mid ss rest → Row ts (s :: ss) rest

/-- Statements up to a closing brace. -/
inductive Statements : List Token → Block → List Token → Prop
  | stop {t : Token} {ts : List Token} : t.kind = .rightBrace → Statements (t :: ts) [] ts
  | step {t : Token} {ts mid rest : List Token} {s : Stmt} {ss : Block} :
      t.kind ≠ .rightBrace → Statement sub (t :: ts) s mid → Statements mid ss rest →
      Statements (t :: ts) (s :: ss) rest

/-- A block with its braces. -/
def Block (ts : List Token) (b : Block) (rest : List Token) : Prop :=
  ∃ l us, ts = l :: us ∧ l.kind = .leftBrace ∧ Statements sub us b rest

/-- Arguments after their opening bracket. -/
abbrev Arguments : List Token → List Expr → List Token → Prop :=
  Separated fun ts e rest => Reads (sub 0 ts) e rest

/-- The operators and calls after the operand `left` that bind tighter than `floor`. -/
inductive Links (floor : Nat) : Expr → List Token → Expr → List Token → Prop
  | stop {left : Expr} {ts : List Token} : Stops floor ts → Links floor left ts left ts
  | binary {op : BinaryOp} {left right e : Expr} {t : Token} {ts mid rest : List Token} :
      Link.ofKind? t.kind = some (.binary op) → floor < op.strength →
      Reads (sub op.strength ts) right mid → Links floor (.binary op left right) mid e rest →
      Links floor left (t :: ts) e rest
  | call {left e : Expr} {args : List Expr} {t : Token} {ts mid rest : List Token} :
      Link.ofKind? t.kind = some .call → floor < callStrength → Arguments sub ts args mid →
      Links floor (.call left args) mid e rest → Links floor left (t :: ts) e rest

/-- An operand up to the first operator between two. -/
inductive Operand : List Token → Expr → List Token → Prop
  | name {t : Token} {ts : List Token} : t.kind = .name → Operand (t :: ts) (.name t.text) ts
  | int {t : Token} {ts : List Token} {n : Int64} :
      t.kind = .int → t.integer? = some n → Operand (t :: ts) (.int n) ts
  | str {t : Token} {ts : List Token} : t.kind = .string → Operand (t :: ts) (.str t.text) ts
  | yes {t : Token} {ts : List Token} : t.kind = .trueWord → Operand (t :: ts) (.bool true) ts
  | no {t : Token} {ts : List Token} : t.kind = .falseWord → Operand (t :: ts) (.bool false) ts
  | not {t : Token} {ts rest : List Token} {e : Expr} :
      t.kind = .bang → Reads (sub unaryStrength ts) e rest → Operand (t :: ts) (.unary .not e) rest
  | negate {t : Token} {ts rest : List Token} {e : Expr} :
      t.kind = .minus → Reads (sub unaryStrength ts) e rest →
      Operand (t :: ts) (.unary .negate e) rest
  | group {l r : Token} {ts rest : List Token} {e : Expr} :
      l.kind = .leftParen → Reads (sub 0 ts) e (r :: rest) → r.kind = .rightParen →
      Operand (l :: ts) e rest
  | cond {w l r : Token} {ts us rest : List Token} {test : Expr} {yes : LetFn.Block} :
      w.kind = .ifWord → l.kind = .leftParen → Reads (sub 0 ts) test (r :: us) →
      r.kind = .rightParen → Block sub us yes rest → nextKind rest ≠ .elseWord →
      Operand (w :: l :: ts) (.cond test yes none) rest
  | condElse {w l r o : Token} {ts us vs rest : List Token} {test : Expr} {yes no : LetFn.Block} :
      w.kind = .ifWord → l.kind = .leftParen → Reads (sub 0 ts) test (r :: us) →
      r.kind = .rightParen → Block sub us yes (o :: vs) → o.kind = .elseWord →
      Block sub vs no rest → Operand (w :: l :: ts) (.cond test yes (some no)) rest
  | fn {w l : Token} {ts us rest : List Token} {xs : List String} {body : LetFn.Block} :
      w.kind = .fnWord → l.kind = .leftParen → Separated Param ts xs us → Block sub us body rest →
      Operand (w :: l :: ts) (.fn xs body) rest

end

theorem Statements.row {sub : Nat → Rule Expr} {ts rest : List Token} {b : LetFn.Block}
    (h : Statements sub ts b rest) : ∃ r, Row sub ts b (r :: rest) ∧ r.kind = .rightBrace := by
  induction h with
  | stop hr => exact ⟨_, .nil, hr⟩
  | step _ hs _ ih =>
    obtain ⟨r, hrow, hr⟩ := ih
    exact ⟨r, .cons hs hrow, hr⟩

/-! ### Links by the next word -/

section
variable {sub : Nat → Rule Expr} {floor : Nat} {left e : Expr} {t : Token} {ts rest : List Token}

theorem stops_nil (floor : Nat) : Stops floor [] := fun _ h => nomatch h

theorem Links.iff_of_stops (h : Stops floor ts) :
    Links sub floor left ts e rest ↔ left = e ∧ ts = rest := by
  constructor
  · intro hl
    cases hl with
    | stop => exact ⟨rfl, rfl⟩
    | binary hk hlt => exact absurd (h _ hk) (Nat.not_le.2 hlt)
    | call hk hlt => exact absurd (h _ hk) (Nat.not_le.2 hlt)
  · rintro ⟨rfl, rfl⟩
    exact .stop h

theorem Links.binary_iff {op : BinaryOp} (hk : Link.ofKind? t.kind = some (.binary op))
    (hlt : floor < op.strength) :
    Links sub floor left (t :: ts) e rest ↔
      ∃ right mid, Reads (sub op.strength ts) right mid ∧
        Links sub floor (.binary op left right) mid e rest := by
  constructor
  · intro hl
    cases hl with
    | stop hs => exact absurd (hs _ hk) (Nat.not_le.2 hlt)
    | binary hk' _ hr hl =>
      rw [hk, Option.some.injEq, Link.binary.injEq] at hk'
      subst hk'
      exact ⟨_, _, hr, hl⟩
    | call hk' => rw [hk] at hk'; cases hk'
  · rintro ⟨right, mid, hr, hl⟩
    exact .binary hk hlt hr hl

theorem Links.call_iff (hk : Link.ofKind? t.kind = some .call) (hlt : floor < callStrength) :
    Links sub floor left (t :: ts) e rest ↔
      ∃ args mid, Arguments sub ts args mid ∧ Links sub floor (.call left args) mid e rest := by
  constructor
  · intro hl
    cases hl with
    | stop hs => exact absurd (hs _ hk) (Nat.not_le.2 hlt)
    | binary hk' => rw [hk] at hk'; cases hk'
    | call _ _ ha hl => exact ⟨_, _, ha, hl⟩
  · rintro ⟨args, mid, ha, hl⟩
    exact .call hk hlt ha hl

end

end Reading

/-! ## Each rule reads what its relation says -/

namespace Rule
variable {sub : Nat → Rule Expr} {ts rest : List Token}

theorem reads_statement_iff {s : Stmt} :
    Reads (statement sub ts) s rest ↔ Reading.Statement sub ts s rest := by
  constructor
  · intro h
    unfold statement at h
    split at h
    · simp only [Reads.exceptMap_iff] at h
      obtain ⟨e, mid, h, rfl, rfl⟩ := h
      exact absurd h.length_lt (Nat.not_lt_zero _)
    · next t ts =>
      split at h
      · next hk =>
        simp only [Reads.bind_iff, Reads.pure_iff, reads_expect_iff] at h
        obtain ⟨x, us, ⟨rfl, hx⟩, s, vs, ⟨rfl, hs⟩, e, mid, he, rfl, rfl⟩ := h
        exact .bind hk hx hs he
      · next hk =>
        simp only [Reads.bind_iff, Reads.pure_iff] at h
        obtain ⟨e, mid, he, rfl, rfl⟩ := h
        exact .ret hk he
      · next hl hr =>
        simp only [Reads.bind_iff, Reads.pure_iff] at h
        obtain ⟨e, mid, he, rfl, rfl⟩ := h
        exact .expr hl hr he
  · intro h
    cases h with
    | bind hw hx hs he =>
      simp only [statement, hw, Reads.bind_iff, Reads.pure_iff, reads_expect_iff]
      exact ⟨_, _, ⟨rfl, hx⟩, _, _, ⟨rfl, hs⟩, _, _, he, rfl, rfl⟩
    | ret hw he =>
      simp only [statement, hw, Reads.bind_iff, Reads.pure_iff]
      exact ⟨_, _, he, rfl, rfl⟩
    | expr hl hr he =>
      cases ts with
      | nil => exact absurd he.length_lt (Nat.not_lt_zero _)
      | cons t ts =>
        simp only [statement]
        split
        · next hk => exact absurd hk hl
        · next hk => exact absurd hk hr
        · simp only [Reads.bind_iff, Reads.pure_iff]
          exact ⟨_, _, he, rfl, rfl⟩

theorem reads_statementsTo_iff {bound : Nat} {done b : Block} {h : ts.length < bound} :
    Reads (statementsTo sub done ts h) b rest ↔
      ∃ ss, b = done.reverse ++ ss ∧ Reading.Statements sub ts ss rest := by
  fun_induction statementsTo sub done ts h with
  | case1 done =>
    simp only [Reads.not_error, false_iff]
    rintro ⟨ss, -, ⟨⟩⟩
  | case2 done t ts h hk =>
    rw [Reads.ok_iff]
    constructor
    · rintro ⟨rfl, rfl⟩
      exact ⟨[], (List.append_nil _).symm, .stop hk⟩
    · rintro ⟨ss, rfl, hs⟩
      cases hs with
      | stop => exact ⟨(List.append_nil _).symm, rfl⟩
      | step hn => exact absurd hk hn
  | case3 done t ts h hk f hf =>
    simp only [Reads.not_error, false_iff]
    rintro ⟨ss, -, hs⟩
    cases hs with
    | stop hn => exact hk hn
    | step hn hs =>
      rw [← reads_statement_iff, hf] at hs
      exact Reads.not_error hs
  | case4 done t ts h hk s mid hm hs _ ih =>
    rw [ih]
    have hr : Reads (statement sub (t :: ts)) s mid := ⟨hm, hs⟩
    constructor
    · rintro ⟨ss, rfl, hss⟩
      exact ⟨s :: ss, by simp, .step hk (reads_statement_iff.1 hr) hss⟩
    · rintro ⟨ss, rfl, hss⟩
      cases hss with
      | stop hn => exact absurd hn hk
      | step _ hs' hss =>
        rw [← reads_statement_iff, hs, Reads.ok_iff] at hs'
        obtain ⟨rfl, rfl⟩ := hs'
        exact ⟨_, by simp, hss⟩

theorem reads_block_iff {b : Block} :
    Reads (block sub ts) b rest ↔ Reading.Block sub ts b rest := by
  simp only [block, Reads.bind_iff, reads_expect_iff, reads_statementsTo_iff, Reading.Block,
    List.reverse_nil, List.nil_append]
  constructor
  · rintro ⟨l, us, ⟨rfl, hl⟩, ss, rfl, hs⟩
    exact ⟨l, us, rfl, hl, hs⟩
  · rintro ⟨l, us, rfl, hl, hs⟩
    exact ⟨l, us, ⟨rfl, hl⟩, b, rfl, hs⟩

theorem reads_itemsTo_iff {α : Type} {item : Rule α} {bound : Nat} {done all : List α}
    {h : ts.length < bound} :
    Reads (itemsTo item done ts h) all rest ↔
      ∃ as, all = done.reverse ++ as ∧
        Reading.Items (fun ts a rest => Reads (item ts) a rest) ts as rest := by
  fun_induction itemsTo item done ts h with
  | case1 done =>
    simp only [Reads.not_error, false_iff]
    rintro ⟨as, -, ⟨⟩⟩
  | case2 done t ts h hk f hf =>
    simp only [Reads.not_error, false_iff]
    rintro ⟨as, -, ha⟩
    cases ha with
    | stop hn => rw [hk] at hn; exact absurd hn (by decide)
    | step _ ha =>
      rw [hf] at ha
      exact Reads.not_error ha
  | case3 done t ts h hk a mid hm ha _ ih =>
    rw [ih]
    constructor
    · rintro ⟨as, rfl, has⟩
      exact ⟨a :: as, by simp, .step hk ⟨hm, ha⟩ has⟩
    · rintro ⟨as, rfl, has⟩
      cases has with
      | stop hn => rw [hk] at hn; exact absurd hn (by decide)
      | step _ ha' has =>
        rw [ha, Reads.ok_iff] at ha'
        obtain ⟨rfl, rfl⟩ := ha'
        exact ⟨_, by simp, has⟩
  | case4 done t ts h hc hk =>
    rw [Reads.ok_iff]
    constructor
    · rintro ⟨rfl, rfl⟩
      exact ⟨[], (List.append_nil _).symm, .stop hk⟩
    · rintro ⟨as, rfl, ha⟩
      cases ha with
      | stop => exact ⟨(List.append_nil _).symm, rfl⟩
      | step hn => exact absurd hn hc
  | case5 done t ts h hc hk =>
    simp only [Reads.not_error, false_iff]
    rintro ⟨as, -, ha⟩
    cases ha with
    | stop hn => exact hk hn
    | step hn => exact hc hn

theorem reads_separated_iff {α : Type} {item : Rule α} {as : List α} :
    Reads (separated item ts) as rest ↔
      Reading.Separated (fun ts a rest => Reads (item ts) a rest) ts as rest := by
  unfold separated
  by_cases hk : nextKind ts = .rightParen
  · simp only [hk, if_true, Reads.exceptMap_iff, reads_expect_iff]
    constructor
    · rintro ⟨t, mid, ⟨rfl, ht⟩, rfl, rfl⟩
      exact .none ht
    · rintro (ht | ⟨hn, -, -⟩)
      · exact ⟨_, _, ⟨rfl, ht⟩, rfl, rfl⟩
      · exact absurd hk hn
  · simp only [hk, if_false, Reads.bind_iff, reads_itemsTo_iff]
    constructor
    · rintro ⟨a, mid, ha, bs, rfl, hbs⟩
      exact .some hk ha hbs
    · rintro (ht | ⟨-, ha, has⟩)
      · exact absurd ht hk
      · exact ⟨_, _, ha, _, rfl, has⟩

theorem reads_param_iff {x : String} : Reads (param ts) x rest ↔ Reading.Param ts x rest := by
  simp only [param, Reads.exceptMap_iff, reads_expect_iff, Reading.Param]
  constructor
  · rintro ⟨t, mid, ⟨rfl, ht⟩, rfl, rfl⟩
    exact ⟨t, rfl, ht, rfl⟩
  · rintro ⟨t, rfl, ht, rfl⟩
    exact ⟨t, rest, ⟨rfl, ht⟩, rfl, rfl⟩

theorem reads_linksAfter_iff {floor bound : Nat} {left e : Expr} {h : ts.length < bound} :
    Reads (linksAfter sub floor left ts h) e rest ↔ Reading.Links sub floor left ts e rest := by
  fun_induction linksAfter sub floor left ts h with
  | case1 left => rw [Reads.ok_iff, Reading.Links.iff_of_stops (Reading.stops_nil floor)]
  | case2 left t ts h hk =>
    rw [Reads.ok_iff, Reading.Links.iff_of_stops fun link hl => by simp [nextKind, hk] at hl]
  | case3 left t ts h op f hf _ hk hlt =>
    rw [Reading.Links.binary_iff hk hlt, hf]
    simp
  | case4 left t ts h op right mid hm hr _ hk hlt ih =>
    rw [ih, Reading.Links.binary_iff hk hlt, hr]
    constructor
    · exact fun hl => ⟨right, mid, Reads.ok_iff.2 ⟨rfl, rfl⟩, hl⟩
    · rintro ⟨right', mid', hr', hl⟩
      obtain ⟨rfl, rfl⟩ := Reads.ok_iff.1 hr'
      exact hl
  | case5 left t ts h f hf _ hk hlt =>
    simp only [Reading.Links.call_iff hk hlt, ← reads_separated_iff, hf, Reads.not_error,
      false_and, exists_false]
  | case6 left t ts h args mid hm ha _ hk hlt ih =>
    rw [ih, Reading.Links.call_iff hk hlt]
    simp only [Reading.Arguments, ← reads_separated_iff, ha]
    constructor
    · exact fun hl => ⟨args, mid, Reads.ok_iff.2 ⟨rfl, rfl⟩, hl⟩
    · rintro ⟨args', mid', ha', hl⟩
      obtain ⟨rfl, rfl⟩ := Reads.ok_iff.1 ha'
      exact hl
  | case7 left t ts h link hk hlt =>
    rw [Reads.ok_iff, Reading.Links.iff_of_stops fun link' hl => by
      simp only [nextKind, hk, Option.some.injEq] at hl
      exact hl ▸ Nat.not_lt.1 hlt]

theorem reads_conditional_iff {t : Token} {e : Expr} (ht : t.kind = .ifWord) :
    Reads (conditional sub ts) e rest ↔ Reading.Operand sub (t :: ts) e rest := by
  simp only [conditional, Reads.bind_iff, reads_expect_iff]
  constructor
  · rintro ⟨l, us, ⟨rfl, hl⟩, test, vs, htest, r, ws, ⟨rfl, hr⟩, yes, mid, hyes, h⟩
    rw [reads_block_iff] at hyes
    split at h
    · simp only [Reads.bind_iff, reads_expect_iff, Reads.pure_iff] at h
      obtain ⟨o, xs, ⟨rfl, ho⟩, no, end', hno, rfl, rfl⟩ := h
      exact .condElse ht hl htest hr hyes ho (reads_block_iff.1 hno)
    · next hk =>
      obtain ⟨rfl, rfl⟩ := Reads.pure_iff.1 h
      exact .cond ht hl htest hr hyes hk
  · intro h
    cases h with
    | cond _ hl htest hr hyes hk =>
      refine ⟨_, _, ⟨rfl, hl⟩, _, _, htest, _, _, ⟨rfl, hr⟩, _, _, reads_block_iff.2 hyes, ?_⟩
      rw [if_neg hk]
      exact Reads.pure_iff.2 ⟨rfl, rfl⟩
    | condElse _ hl htest hr hyes ho hno =>
      refine ⟨_, _, ⟨rfl, hl⟩, _, _, htest, _, _, ⟨rfl, hr⟩, _, _, reads_block_iff.2 hyes, ?_⟩
      simp only [nextKind, ho, if_true, Reads.bind_iff, reads_expect_iff, Reads.pure_iff]
      exact ⟨_, _, ⟨rfl, ho⟩, _, _, reads_block_iff.2 hno, rfl, rfl⟩
    | name h | int h | str h | yes h | no h | not h | negate h | group h | fn h =>
      rw [ht] at h
      cases h

theorem reads_function_iff {t : Token} {e : Expr} (ht : t.kind = .fnWord) :
    Reads (function sub ts) e rest ↔ Reading.Operand sub (t :: ts) e rest := by
  simp only [function, Reads.bind_iff, reads_expect_iff, reads_separated_iff, reads_param_iff,
    reads_block_iff, Reads.pure_iff]
  constructor
  · rintro ⟨l, us, ⟨rfl, hl⟩, xs, mid, hxs, body, end', hb, rfl, rfl⟩
    exact .fn ht hl hxs hb
  · intro h
    cases h with
    | fn _ hl hxs hb => exact ⟨_, _, ⟨rfl, hl⟩, _, _, hxs, _, _, hb, rfl, rfl⟩
    | name h | int h | str h | yes h | no h | not h | negate h | group h | cond h | condElse h =>
      rw [ht] at h
      cases h

theorem operand_of_reads {e : Expr} (h : Reads (operand sub ts) e rest) :
    Reading.Operand sub ts e rest := by
  cases ts with
  | nil => exact absurd h Reads.not_error
  | cons t ts =>
    unfold operand at h
    dsimp only at h
    split at h
    · next hk => obtain ⟨rfl, rfl⟩ := Reads.ok_iff.1 h; exact .name hk
    · next hk =>
      split at h
      · next n hn => obtain ⟨rfl, rfl⟩ := Reads.ok_iff.1 h; exact .int hk hn
      · exact absurd h Reads.not_error
    · next hk => obtain ⟨rfl, rfl⟩ := Reads.ok_iff.1 h; exact .str hk
    · next hk => obtain ⟨rfl, rfl⟩ := Reads.ok_iff.1 h; exact .yes hk
    · next hk => obtain ⟨rfl, rfl⟩ := Reads.ok_iff.1 h; exact .no hk
    · next hk =>
      simp only [Reads.bind_iff, Reads.pure_iff] at h
      obtain ⟨e, mid, he, rfl, rfl⟩ := h
      exact .not hk he
    · next hk =>
      simp only [Reads.bind_iff, Reads.pure_iff] at h
      obtain ⟨e, mid, he, rfl, rfl⟩ := h
      exact .negate hk he
    · next hk =>
      simp only [Reads.bind_iff, reads_expect_iff, Reads.pure_iff] at h
      obtain ⟨e, mid, he, r, us, ⟨rfl, hr⟩, rfl, rfl⟩ := h
      exact .group hk he hr
    · next hk =>
      simp only [Reads.bind_iff, Reads.pure_iff] at h
      obtain ⟨e, mid, he, rfl, rfl⟩ := h
      exact (reads_conditional_iff hk).1 he
    · next hk =>
      simp only [Reads.bind_iff, Reads.pure_iff] at h
      obtain ⟨e, mid, he, rfl, rfl⟩ := h
      exact (reads_function_iff hk).1 he
    · exact absurd h Reads.not_error

theorem reads_of_operand {e : Expr} (h : Reading.Operand sub ts e rest) :
    Reads (operand sub ts) e rest := by
  cases h with
  | name hk | str hk | yes hk | no hk => simp [operand, hk]
  | int hk hn => simp [operand, hk, hn]
  | not hk he | negate hk he =>
    simp only [operand, hk, Reads.bind_iff, Reads.pure_iff]
    exact ⟨_, _, he, rfl, rfl⟩
  | group hk he hr =>
    simp only [operand, hk, Reads.bind_iff, reads_expect_iff, Reads.pure_iff]
    exact ⟨_, _, he, _, _, ⟨rfl, hr⟩, rfl, rfl⟩
  | cond hk hl htest hr hyes hn =>
    simp only [operand, hk, Reads.bind_iff, Reads.pure_iff]
    exact ⟨_, _, (reads_conditional_iff hk).2 (.cond hk hl htest hr hyes hn), rfl, rfl⟩
  | condElse hk hl htest hr hyes ho hno =>
    simp only [operand, hk, Reads.bind_iff, Reads.pure_iff]
    exact ⟨_, _, (reads_conditional_iff hk).2 (.condElse hk hl htest hr hyes ho hno), rfl, rfl⟩
  | fn hk hl hxs hb =>
    simp only [operand, hk, Reads.bind_iff, Reads.pure_iff]
    exact ⟨_, _, (reads_function_iff hk).2 (.fn hk hl hxs hb), rfl, rfl⟩

theorem reads_operand_iff {e : Expr} :
    Reads (operand sub ts) e rest ↔ Reading.Operand sub ts e rest :=
  ⟨operand_of_reads, reads_of_operand⟩

theorem reads_expr_iff {levels floor : Nat} {e : Expr} :
    Reads (expr (levels + 1) floor ts) e rest ↔
      ∃ left mid, Reading.Operand (expr levels) ts left mid ∧
        Reading.Links (expr levels) floor left mid e rest := by
  simp only [expr, Reads.bind_iff, reads_operand_iff, reads_linksAfter_iff, exists_prop]

end Rule

end LetFn
