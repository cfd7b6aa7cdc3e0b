import LetFn.Proofs.Grammar.Sound

/-!
# What is derived is read

Words that the grammar derives are read as the tree they spell, whatever comes after them, unless
it could carry the tree on.

* `Complete sub inside`: the rule `sub` for the expressions inside reads all that `inside` derives.
* `Primary.reads`, `Call.reads`, `Unary.reads`, `Chain.reads`: the words of an expression bring the
  loop over operators to the point where that expression is its left operand.
* `complete_expr`: the rule for expressions is complete for `Expression`.
-/

namespace LetFn
open Token (Kind)
open Grammar Reading

/-- Neither an operator tighter than `floor` nor the rest of a condition comes next. -/
structure Ends (floor : Nat) (ts : List Token) : Prop where
  stops : Stops floor ts
  ne_elseWord : nextKind ts ≠ .elseWord

theorem Ends.mono {j k : Nat} {ts : List Token} (h : Ends j ts) (hjk : j ≤ k) : Ends k ts :=
  ⟨h.stops.mono hjk, h.ne_elseWord⟩

theorem Ends.of_ofKind? {t : Token} {ts : List Token} {link : Link}
    (h : Link.ofKind? t.kind = some link) : Ends link.strength (t :: ts) := by
  refine ⟨fun link' hl => ?_, fun he => ?_⟩
  · rw [nextKind, h, Option.some.injEq] at hl
    exact Nat.le_of_eq (congrArg Link.strength hl.symm)
  · rw [nextKind] at he
    rw [he] at h
    cases h

/-- A word that is no operator, no bracket of a call and no rest of a condition ends everything. -/
theorem Ends.of_kind {t : Token} {ts : List Token} (h : Link.ofKind? t.kind = none)
    (he : t.kind ≠ .elseWord) (floor : Nat) : Ends floor (t :: ts) :=
  ⟨fun link hl => absurd (h.symm.trans hl) (by simp), he⟩

theorem ofKind?_of_not_mem_carriesOn {k : Kind} (h : k ∉ carriesOn) :
    Link.ofKind? k = none ∧ k ≠ .elseWord ∧ k ≠ .semicolon := by
  cases k <;> first | exact ⟨rfl, by decide, by decide⟩ | exact absurd (by decide) h

theorem ends_append {us rest : List Token} (h : ∀ t ∈ us.head?, t.kind ∉ carriesOn)
    (hrest : Ends 0 rest) (hsemi : nextKind rest ≠ .semicolon) :
    Ends 0 (us ++ rest) ∧ nextKind (us ++ rest) ≠ .semicolon := by
  cases us with
  | nil => exact ⟨hrest, hsemi⟩
  | cons t us =>
    obtain ⟨hk, he, hs⟩ := ofKind?_of_not_mem_carriesOn (h t rfl)
    exact ⟨Ends.of_kind hk he 0, hs⟩

theorem dropSemicolon_of_ne {ts : List Token} (h : nextKind ts ≠ .semicolon) :
    dropSemicolon ts = ts := by
  cases ts with
  | nil => rfl
  | cons t ts => exact if_neg h

theorem ends_nil (floor : Nat) : Ends floor [] := ⟨stops_nil floor, by decide⟩

/-- The operators of tier `j` have strength `j + 1`. -/
theorem ofKind?_of_mem_tier {j : Nat} {tier : Tier} {tighter : List Tier} {k : Kind}
    {op : BinaryOp} (hj : tier :: tighter = tiers.drop j) (h : (k, op) ∈ tier) :
    Link.ofKind? k = some (.binary op) ∧ op.strength = j + 1 ∧ tighter = tiers.drop (j + 1) := by
  rcases j with _ | _ | _ | _ | j
  case succ.succ.succ.succ => rw [List.drop_eq_nil_of_le (Nat.le_add_left 4 j)] at hj; cases hj
  all_goals
    obtain ⟨rfl, rfl⟩ := List.cons.inj hj
    simp only [List.mem_cons, Prod.mk.injEq, List.not_mem_nil, or_false] at h
    obtain ⟨rfl, rfl⟩ | ⟨rfl, rfl⟩ := h <;> exact ⟨rfl, rfl, rfl⟩

/-! ## Rules are complete -/

/-- The rule for the expressions inside reads all that may stand inside. -/
def Complete (sub : Nat → Rule Expr) (inside : List Tier → List Token → Expr → Prop) : Prop :=
  ∀ {floor : Nat} {us rest : List Token} {e : Expr}, floor ≤ 5 →
    inside (tiers.drop floor) us e → Ends floor rest → Reads (sub floor (us ++ rest)) e rest

section
variable {sub : Nat → Rule Expr} {inside : List Tier → List Token → Expr → Prop}

theorem Grammar.Separated.reads_items {α : Type} {item : List Token → α → List Token → Prop}
    {derived : List Token → α → Prop}
    (hitem : ∀ us a t ts, derived us a → t.kind = .comma ∨ t.kind = .rightParen →
      item (us ++ t :: ts) a (t :: ts))
    {us : List Token} {as : List α} (h : Grammar.Separated derived us as) (hne : as ≠ [])
    {r : Token} (hr : r.kind = .rightParen) (rest : List Token) :
    ∃ a bs mid, as = a :: bs ∧ item (us ++ r :: rest) a mid ∧ Items item mid bs rest := by
  induction h with
  | nil => exact absurd rfl hne
  | one ha => exact ⟨_, _, _, rfl, hitem _ _ _ _ ha (.inr hr), .stop hr⟩
  | cons ha hc _ ih =>
    obtain ⟨b, bs, mid, hbs, hb, hitems⟩ := ih (by simp)
    obtain ⟨rfl, rfl⟩ := List.cons.inj hbs
    refine ⟨_, _, _, rfl, ?_, .step hc hb hitems⟩
    rw [List.append_assoc]
    exact hitem _ _ _ _ ha (.inl hc)

theorem Grammar.Separated.reads {α : Type} {item : List Token → α → List Token → Prop}
    {derived : List Token → α → Prop}
    (hitem : ∀ us a t ts, derived us a → t.kind = .comma ∨ t.kind = .rightParen →
      item (us ++ t :: ts) a (t :: ts))
    (hstart : ∀ ts a rest, item ts a rest → nextKind ts ≠ .rightParen)
    {us : List Token} {as : List α} (h : Grammar.Separated derived us as)
    {r : Token} (hr : r.kind = .rightParen) (rest : List Token) :
    Reading.Separated item (us ++ r :: rest) as rest := by
  by_cases hne : as = []
  · subst hne
    cases h
    exact .none hr
  · obtain ⟨a, bs, mid, rfl, ha, hitems⟩ := h.reads_items hitem hne hr rest
    exact .some (hstart _ _ _ ha) ha hitems

theorem Grammar.Separated.reads_params {us : List Token} {xs : List String}
    (h : Grammar.Separated Grammar.Param us xs) {r : Token} (hr : r.kind = .rightParen)
    (rest : List Token) : Reading.Separated Reading.Param (us ++ r :: rest) xs rest := by
  refine h.reads ?_ ?_ hr rest
  · rintro _ x t ts ⟨n, rfl, hk, hx⟩ -
    exact ⟨n, rfl, hk, hx⟩
  · rintro _ x rest ⟨n, rfl, hk, -⟩
    rw [nextKind, hk]
    decide

variable (hsound : Sound sub inside) (hcomplete : Complete sub inside)
include hsound hcomplete

theorem Grammar.Separated.reads_arguments {us : List Token} {as : List Expr}
    (h : Grammar.Separated (inside tiers) us as) {r : Token} (hr : r.kind = .rightParen)
    (rest : List Token) : Arguments sub (us ++ r :: rest) as rest := by
  refine h.reads ?_ ?_ hr rest
  · intro us e t ts he ht
    refine hcomplete (Nat.zero_le 5) he (Ends.of_kind ?_ ?_ 0) <;>
      rcases ht with ht | ht <;> rw [ht] <;> decide
  · intro ts e rest he hk
    have := (hsound he).1
    rw [hk] at this
    exact absurd this (by decide)

theorem Grammar.Statement.reads {us rest : List Token} {s : Stmt}
    (h : Grammar.Statement inside us s) (hrest : Ends 0 rest) :
    Reading.Statement sub (us ++ rest) s (dropSemicolon rest) := by
  cases h with
  | bind hw hx ha hi => exact .bind hw hx ha (hcomplete (Nat.zero_le 5) hi hrest)
  | ret hw hi => exact .ret hw (hcomplete (Nat.zero_le 5) hi hrest)
  | expr hi =>
    have hr := hcomplete (Nat.zero_le 5) hi hrest
    have hk := (hsound hr).1
    refine .expr ?_ ?_ hr <;> intro he <;> rw [he] at hk <;> exact absurd hk (by decide)

theorem Grammar.Statements.reads {us rest : List Token} {b : LetFn.Block}
    (h : Grammar.Statements inside us b) (hrest : Ends 0 rest)
    (hsemi : nextKind rest ≠ .semicolon) : Row sub (us ++ rest) b rest := by
  induction h with
  | nil => exact .nil
  | @closed ts us semi s ss hs hk _ ih =>
    have hends : Ends 0 (semi :: (us ++ rest)) :=
      Ends.of_kind (by rw [hk]; rfl) (by rw [hk]; decide) 0
    have hread := hs.reads hsound hcomplete hends
    rw [dropSemicolon, if_pos hk] at hread
    rw [List.append_assoc]
    exact .cons hread ih
  | @«open» ts us s ss hs hhead _ ih =>
    obtain ⟨hends, hne⟩ := ends_append hhead hrest hsemi
    have hread := hs.reads hsound hcomplete hends
    rw [dropSemicolon_of_ne hne] at hread
    rw [List.append_assoc]
    exact .cons hread ih

omit hcomplete in
/-- A row of statements that stops at a closing brace is all that stands before it. -/
theorem Reading.Row.statements {us rest : List Token} {b : LetFn.Block} {r : Token}
    (h : Row sub us b (r :: rest)) (hr : r.kind = .rightBrace) :
    Reading.Statements sub us b rest := by
  generalize hmid : r :: rest = mid at h
  induction h with
  | nil =>
    subst hmid
    exact .stop hr
  | @cons ts mid' rest' s ss hs _ ih =>
    have hk := hs.nextKind_mem hsound
    cases ts with
    | nil => exact absurd hk (by decide)
    | cons t ts =>
      refine .step (fun ht => ?_) hs (ih hmid)
      rw [nextKind, ht] at hk
      exact absurd hk (by decide)

theorem Grammar.InBraces.reads {us : List Token} {b : LetFn.Block} (h : InBraces inside us b)
    (rest : List Token) : Reading.Block sub (us ++ rest) b rest := by
  cases h with
  | @mk l r ts _ hl hs hr =>
    have hends : Ends 0 (r :: rest) := Ends.of_kind (by rw [hr]; rfl) (by rw [hr]; decide) 0
    have hrow := hs.reads hsound hcomplete hends (by rw [nextKind, hr]; decide)
    exact ⟨l, ts ++ r :: rest, by simp, hl, hrow.statements hsound hr⟩

theorem Grammar.Primary.reads {us rest : List Token} {e : Expr} (h : Primary inside us e)
    (hrest : nextKind rest ≠ .elseWord) : Operand sub (us ++ rest) e rest := by
  -- what stands between round brackets is read up to the closing one
  have inner {ts more : List Token} {r : Token} {e : Expr} (hi : inside tiers ts e)
      (hr : r.kind = .rightParen) : Reads (sub 0 (ts ++ r :: more)) e (r :: more) :=
    hcomplete (Nat.zero_le 5) hi (Ends.of_kind (by rw [hr]; rfl) (by rw [hr]; decide) 0)
  cases h with
  | name hk => exact .name hk
  | int hk hle => exact .int hk (Token.integer?_eq_some_iff.2 ⟨hle, rfl⟩)
  | str hk => exact .str hk
  | yes hk => exact .yes hk
  | no hk => exact .no hk
  | group hl hi hr =>
    rw [List.cons_append, List.cons_append, List.append_assoc]
    exact .group hl (inner hi hr) hr
  | cond hw hl hi hr hy =>
    simp only [List.cons_append, List.append_assoc]
    exact .cond hw hl (inner hi hr) hr (hy.reads hsound hcomplete rest) hrest
  | condElse hw hl hi hr hy ho hn =>
    simp only [List.cons_append, List.append_assoc]
    exact .condElse hw hl (inner hi hr) hr (hy.reads hsound hcomplete _) ho
      (hn.reads hsound hcomplete rest)
  | fn hw hl hxs hr hb =>
    simp only [List.cons_append, List.append_assoc]
    exact .fn hw hl (hxs.reads_params hr _) (hb.reads hsound hcomplete rest)

theorem Grammar.Call.reads {us rest final : List Token} {e whole : Expr} {floor : Nat}
    (h : Call inside us e) (hfloor : floor ≤ 5) (hrest : nextKind rest ≠ .elseWord)
    (hlinks : Links sub floor e rest whole final) :
    ∃ left mid, Operand sub (us ++ rest) left mid ∧ Links sub floor left mid whole final := by
  induction h generalizing rest with
  | primary hp => exact ⟨_, _, hp.reads hsound hcomplete hrest, hlinks⟩
  | @call l r ts us callee args _ hl hargs hr ih =>
    have hk : Link.ofKind? l.kind = some .call := by rw [hl]; rfl
    have ha := hargs.reads_arguments hsound hcomplete hr rest
    simp only [List.append_assoc, List.cons_append, List.nil_append]
    exact ih (by rw [nextKind, hl]; decide) (.call hk (Nat.lt_succ_of_le hfloor) ha hlinks)

theorem Grammar.Unary.reads {us rest final : List Token} {e whole : Expr} {floor : Nat}
    (h : Unary inside us e) (hfloor : floor ≤ 5) (hrest : Ends 5 rest)
    (hlinks : Links sub floor e rest whole final) :
    ∃ left mid, Operand sub (us ++ rest) left mid ∧ Links sub floor left mid whole final := by
  cases h with
  | call hc => exact hc.reads hsound hcomplete hfloor hrest.ne_elseWord hlinks
  | not hk hi => exact ⟨_, _, .not hk (hcomplete (Nat.le_refl 5) hi hrest), hlinks⟩
  | negate hk hi => exact ⟨_, _, .negate hk (hcomplete (Nat.le_refl 5) hi hrest), hlinks⟩

theorem Grammar.Chain.reads {tighter : List Tier} {us rest final : List Token} {e whole : Expr}
    {floor j : Nat} (h : Chain inside tighter us e) (hj : tighter = tiers.drop j) (hj4 : j ≤ 4)
    (hfloor : floor ≤ j) (hrest : Ends (j + 1) rest)
    (hlinks : Links sub floor e rest whole final) :
    ∃ left mid, Operand sub (us ++ rest) left mid ∧ Links sub floor left mid whole final := by
  induction h generalizing j rest with
  | unary hu => exact hu.reads hsound hcomplete (by omega) (hrest.mono (by omega)) hlinks
  | @first tier tighter ts e _ ih =>
    have hlt : j < 4 := by
      rcases Nat.lt_or_ge j 4 with hlt | hge
      · exact hlt
      · rw [List.drop_eq_nil_of_le hge] at hj; cases hj
    rw [List.drop_eq_getElem_cons (show j < tiers.length from hlt)] at hj
    exact ih (List.cons.inj hj).2 hlt (by omega) (hrest.mono (by omega)) hlinks
  | @more tier tighter ts us t op left right _ hmem hi ih =>
    obtain ⟨hk, hs, rfl⟩ := ofKind?_of_mem_tier hj hmem
    rw [← hs] at hi hrest
    have hr := hcomplete (by cases op <;> decide) hi hrest
    rw [List.append_assoc]
    have ht : Ends (j + 1) (t :: us ++ rest) := hs ▸ Ends.of_ofKind? hk
    exact ih hj hj4 hfloor ht (.binary hk (by omega) hr hlinks)

end

theorem complete_expr (n : Nat) : Complete (Rule.expr n) (Expression n) := by
  induction n with
  | zero => exact fun _ h _ => h.elim
  | succ n ih =>
    intro floor us rest e hfloor h hrest
    have hstop : Links (Rule.expr n) floor e rest e rest := .stop hrest.stops
    rw [Rule.reads_expr_iff]
    rcases Nat.le_succ_iff.1 hfloor with hle | rfl
    · exact Chain.reads (sound_expr n) ih h rfl hle (Nat.le_refl _) (hrest.mono (Nat.le_succ _))
        hstop
    · cases h with
      | unary hu => exact hu.reads (sound_expr n) ih (Nat.le_refl 5) hrest hstop

end LetFn
