import LetFn.Proofs.Eval.Output

/-!
# The limit of calls only cuts off

A run under a lower limit is the run under a higher one, up to the first call that the lower limit
refuses.

* `Point.Active`: the points that a point leads to, by the calls active there; by
  `Point.Active.left_add` these calls and those still allowed make up the limit.
* `Task.plan_raise`: with more calls allowed a plan is the same, unless it refuses a call.
* `Point.fits_or_exceeds`: so a run stays the same, or the lower limit ends it.
* `Program.eval_limit`: the same of whole programs.
-/

namespace LetFn

/-! ## Active calls -/

namespace Point
variable {limit n : Nat} {p q : Point}

/-- The points that a point leads to, by the number of calls that were entered on the way and are
active there. -/
inductive Active (limit : Nat) (p : Point) : Nat → Point → Prop
  | here : Active limit p 0 p
  | goOn {n : Nat} {q : Point} {t : Task} :
      Active limit p n q → q.plan limit = .goOn t → Active limit p n (q.turn t q.machine)
  | part {n : Nat} {q : Point} {t : Task} {k : Value → Task} :
      Active limit p n q → q.plan limit = .part t k → Active limit p n (q.turn t q.machine)
  | next {n : Nat} {q : Point} {t : Task} {k : Value → Task} {v : Value} {m : Machine} :
      Active limit p n q → q.plan limit = .part t k →
      (q.turn t q.machine).run limit = (.ok v, m) → Active limit p n (q.turn (k v) m)
  | enter {n left : Nat} {q : Point} {t : Task} {m : Machine} :
      Active limit p n q → q.plan limit = .enter left t m → Active limit p (n + 1) ⟨left, t, m⟩

/-- The calls active and those that may still be entered. -/
theorem Active.left_add (h : p.Active limit n q) : q.left + n = p.left := by
  induction h with
  | here => rfl
  | goOn _ _ ih | part _ _ ih | next _ _ _ ih => exact ih
  | enter _ hplan ih =>
    obtain ⟨-, -, -, -, hleft, -⟩ := Task.exists_of_plan_enter hplan
    dsimp only
    omega

theorem Active.visits (h : p.Active limit n q) : p.Visits limit q := by
  induction h with
  | here => exact .refl
  | goOn _ hplan ih => exact ih.tail (.goOn hplan)
  | part _ hplan ih => exact ih.tail (.part hplan)
  | next _ hplan hv ih => exact ih.tail (.next hplan hv)
  | enter _ hplan ih => exact ih.tail (.enter hplan)

theorem Visits.exists_active (h : p.Visits limit q) : ∃ n, p.Active limit n q := by
  induction h with
  | refl => exact ⟨0, .here⟩
  | tail _ hstarts ih =>
    obtain ⟨n, hn⟩ := ih
    cases hstarts with
    | goOn hplan => exact ⟨n, hn.goOn hplan⟩
    | part hplan => exact ⟨n, hn.part hplan⟩
    | next hplan hv => exact ⟨n, hn.next hplan hv⟩
    | enter hplan => exact ⟨n + 1, hn.enter hplan⟩

end Point

/-! ## Runs under two limits -/

/-- A plan with more calls left. -/
def Plan.raise (extra : Nat) : Plan → Plan
  | .enter left t m => .enter (left + extra) t m
  | plan => plan

/-- A point with more calls left. -/
def Point.raise (extra : Nat) (p : Point) : Point := { p with left := p.left + extra }

/-- With more calls allowed a plan is the same, or what was refused is entered. -/
theorem Task.plan_raise (limit extra left : Nat) (m : Machine) (t : Task) :
    t.plan (limit + extra) (left + extra) m = (t.plan limit left m).raise extra ∨
      t.plan limit left m = .done (.error (.tooManyCalls limit)) m ∧
        ∃ left' t' m', t.plan (limit + extra) (left + extra) m = .enter left' t' m' ∧
          left' < extra ∧ m'.sink = m.sink := by
  cases t with
  | expr scope e site => cases e <;> exact .inl rfl
  | sign | operator | bind | give | right => exact .inl rfl
  | branch scope v yes no site =>
    refine .inl ?_
    show (if v.truthy then _ else _) = Plan.raise _ (if v.truthy then _ else _)
    split
    · rfl
    · cases no <;> rfl
  | args scope callee done es site => cases es <;> exact .inl rfl
  | call v as =>
    cases v with
    | closure c =>
      by_cases hlen : as.length ≠ c.params.length
      · simp only [plan, if_pos hlen]
        exact .inl rfl
      · simp only [plan, if_neg hlen]
        cases left with
        | succ left =>
          rw [Nat.succ_add]
          exact .inl rfl
        | zero =>
          rw [Nat.zero_add]
          cases extra with
          | zero => exact .inl rfl
          | succ extra => exact .inr ⟨rfl, _, _, _, rfl, Nat.lt_succ_self _, rfl⟩
    | builtin | int | bool | str | null | returned | error => exact .inl rfl
  | stmt scope s site => cases s <;> exact .inl rfl
  | block scope last ss site => cases ss <;> exact .inl rfl
  | rest scope v ss site =>
    refine .inl ?_
    show (if v.isReturned then _ else _) = Plan.raise _ (if v.isReturned then _ else _)
    split <;> rfl

namespace Point

/-- The run stays the same with `extra` more calls allowed, none of which is entered. -/
structure Fits (limit extra : Nat) (p : Point) : Prop where
  run_eq : (p.raise extra).run (limit + extra) = p.run limit
  le_left : ∀ q, (p.raise extra).Visits (limit + extra) q → extra ≤ q.left

/-- The limit ends the run, which would enter one of `extra` more calls and write on. -/
structure Exceeds (limit extra : Nat) (p : Point) : Prop where
  fault : (p.run limit).1 = .error (.tooManyCalls limit)
  writes_on : (p.run limit).2.sink.Extends ((p.raise extra).run (limit + extra)).2.sink
  exists_left_lt : ∃ q, (p.raise extra).Visits (limit + extra) q ∧ q.left < extra

section
variable {limit : Nat} {p : Point} {P : Point → Prop} {t : Task} {m : Machine}

/-! What holds of a point and of those that its plan leads to holds of all that it visits. -/

theorem forall_visits_of_done {o : Except Fault Value} (h : p.plan limit = .done o m) (hp : P p) :
    ∀ q, p.Visits limit q → P q := by
  intro q hq
  obtain rfl | ⟨r, hr, -⟩ := hq.cases_head
  · exact hp
  · cases hr with
    | goOn h' | part h' | next h' | enter h' => cases h.symm.trans h'

theorem forall_visits_of_goOn (h : p.plan limit = .goOn t) (hp : P p)
    (ht : ∀ q, (p.turn t p.machine).Visits limit q → P q) : ∀ q, p.Visits limit q → P q := by
  intro q hq
  obtain rfl | ⟨r, hr, hq⟩ := hq.cases_head
  · exact hp
  · cases hr with
    | goOn h' =>
      cases h.symm.trans h'
      exact ht q hq
    | part h' | next h' | enter h' => cases h.symm.trans h'

theorem forall_visits_of_part {k : Value → Task} (h : p.plan limit = .part t k) (hp : P p)
    (ht : ∀ q, (p.turn t p.machine).Visits limit q → P q)
    (hk : ∀ v m, (p.turn t p.machine).run limit = (.ok v, m) →
      ∀ q, (p.turn (k v) m).Visits limit q → P q) : ∀ q, p.Visits limit q → P q := by
  intro q hq
  obtain rfl | ⟨r, hr, hq⟩ := hq.cases_head
  · exact hp
  · cases hr with
    | part h' =>
      cases h.symm.trans h'
      exact ht q hq
    | next h' hv =>
      cases h.symm.trans h'
      exact hk _ _ hv q hq
    | goOn h' | enter h' => cases h.symm.trans h'

theorem forall_visits_of_enter {left : Nat} (h : p.plan limit = .enter left t m) (hp : P p)
    (ht : ∀ q, Visits limit ⟨left, t, m⟩ q → P q) : ∀ q, p.Visits limit q → P q := by
  intro q hq
  obtain rfl | ⟨r, hr, hq⟩ := hq.cases_head
  · exact hp
  · cases hr with
    | enter h' =>
      cases h.symm.trans h'
      exact ht q hq
    | goOn h' | part h' | next h' => cases h.symm.trans h'

end

/-- A lower limit leaves a run as it is, or ends it. -/
theorem fits_or_exceeds (limit extra : Nat) (p : Point) :
    p.Fits limit extra ∨ p.Exceeds limit extra := by
  -- on the run under the lower limit: its plans are those of the other run, until it refuses a call
  induction p using Point.induction limit with
  | h p ih =>
    have hleft : extra ≤ (p.raise extra).left := Nat.le_add_left _ _
    obtain hraise | ⟨hrefused, left, t, m, henter, hlt, hsink⟩ :=
      p.task.plan_raise limit extra p.left p.machine
    · change (p.raise extra).plan (limit + extra) = (p.plan limit).raise extra at hraise
      cases h : p.plan limit with
      | done o m =>
        rw [h] at hraise
        exact .inl ⟨(run_of_done hraise).trans (run_of_done h).symm,
          forall_visits_of_done hraise hleft⟩
      | goOn t =>
        rw [h] at hraise
        obtain ⟨hrun, hvisits⟩ | ⟨hfault, hwrites, q, hq, hlt⟩ := ih _ (.goOn h)
        · exact .inl ⟨(run_of_goOn hraise).trans (hrun.trans (run_of_goOn h).symm),
            forall_visits_of_goOn hraise hleft hvisits⟩
        · refine .inr ⟨?_, ?_, q, .head (.goOn hraise) hq, hlt⟩
          · rwa [run_of_goOn h]
          · rw [run_of_goOn h, run_of_goOn hraise]
            exact hwrites
      | part t k =>
        rw [h] at hraise
        obtain ⟨hrun, hvisits⟩ | ⟨hfault, hwrites, q, hq, hlt⟩ := ih _ (.part h)
        · rcases hr : (p.turn t p.machine).run limit with ⟨f | v, m⟩
          · refine .inl ⟨?_, forall_visits_of_part hraise hleft hvisits fun v m hv => ?_⟩
            · rw [run_of_part_error h hr, run_of_part_error hraise (hrun.trans hr)]
            · cases (hrun.trans hr).symm.trans hv
          · have hraised := hrun.trans hr
            obtain ⟨hrun', hvisits'⟩ | ⟨hfault, hwrites, q, hq, hlt⟩ := ih _ (.next h hr)
            · refine .inl ⟨?_, forall_visits_of_part hraise hleft hvisits fun w n hw => ?_⟩
              · rw [run_of_next h hr, ← hrun']
                exact run_of_next hraise hraised
              · cases hraised.symm.trans hw
                exact hvisits'
            · refine .inr ⟨?_, ?_, q, .head (.next hraise hraised) hq, hlt⟩
              · rwa [run_of_next h hr]
              · rw [run_of_next h hr, run_of_next hraise hraised]
                exact hwrites
        · refine .inr ⟨?_, ?_, q, .head (.part hraise) hq, hlt⟩
          · rw [run_of_part_error h (Prod.ext hfault rfl)]
          · rw [run_of_part_error h (Prod.ext hfault rfl)]
            exact hwrites.trans (part_extends hraise)
      | enter left t m =>
        rw [h] at hraise
        obtain ⟨hrun, hvisits⟩ | ⟨hfault, hwrites, q, hq, hlt⟩ := ih _ (.enter h)
        · refine .inl ⟨?_, forall_visits_of_enter hraise hleft hvisits⟩
          rw [run_of_enter h, run_of_enter hraise, ← hrun]
          rfl
        · refine .inr ⟨?_, ?_, q, .head (.enter hraise) hq, hlt⟩
          · rw [run_of_enter h, hfault]
            rfl
          · rw [run_of_enter h, run_of_enter hraise]
            exact hwrites
    -- whatever the refused call would write comes after all that was written so far
    · change p.plan limit = _ at hrefused
      change (p.raise extra).plan (limit + extra) = _ at henter
      refine .inr ⟨?_, ?_, ⟨left, t, m⟩, .single (.enter henter), hlt⟩
      · rw [run_of_done hrefused]
      · rw [run_of_done hrefused, run_of_enter henter, ← hsink]
        exact run_extends _ ⟨left, t, m⟩

end Point

/-! ## Programs -/

/-- Under a limit, a program runs as it does under a higher one whose run never has more calls
active than the limit. Else the limit ends the run, and what was written until then is what the
higher one lets it write first. No run has more calls active than its limit, and builtins run
whatever calls are left. -/
theorem Program.eval_limit {low high : Nat} (hle : low ≤ high) (tree : Nat) (scope : Scope)
    (p : Program) (m : Machine) :
    ((∀ n q, (p.point high tree scope m).Active high n q → n ≤ low) →
        (p.eval low tree scope).run m = (p.eval high tree scope).run m) ∧
      ((∃ n q, (p.point high tree scope m).Active high n q ∧ low < n) →
        ((p.eval low tree scope).run m).1 = .error (.tooManyCalls low) ∧
          ∃ rest, ((p.eval high tree scope).run m).2.sink.textAfter m.sink.accepted.length =
            ((p.eval low tree scope).run m).2.sink.textAfter m.sink.accepted.length ++ rest) ∧
      (∀ n q, (p.point high tree scope m).Active high n q → n ≤ high ∧ q.left = high - n) ∧
      ∀ left b as, apply high left (.builtin b) as = b.run as := by
  obtain ⟨extra, rfl⟩ := Nat.exists_eq_add_of_le hle
  have hactive : ∀ n q, (p.point (low + extra) tree scope m).Active (low + extra) n q →
      q.left + n = low + extra := fun n q h => h.left_add
  have hcases : (p.point low tree scope m).Fits low extra ∨
      (p.point low tree scope m).Exceeds low extra := Point.fits_or_exceeds low extra _
  refine ⟨fun hfew => ?_, fun ⟨n, q, hq, hn⟩ => ?_, fun n q hq => ?_, fun left b as => ?_⟩
  · obtain ⟨hrun, -⟩ | ⟨-, -, q, hq, hlt⟩ := hcases
    · rw [run_eval, run_eval, ← hrun]
      rfl
    · obtain ⟨n, hn⟩ := Point.Visits.exists_active hq
      have hsum := hactive n q hn
      have hle := hfew n q hn
      omega
  · obtain ⟨-, hvisits⟩ | ⟨hfault, hwrites, -⟩ := hcases
    · have hsum := hactive n q hq
      have hle := hvisits q hq.visits
      omega
    · rw [run_eval, run_eval, hfault]
      exact ⟨rfl, (Point.run_extends low _).exists_textAfter hwrites⟩
  · have hsum := hactive n q hq
    omega
  · cases left <;> rfl

/-- The program `let f = fn() { puts(1) }; let g = fn() { puts(2); f() }; g()`. -/
def callInCall : Program :=
  ⟨[.bind "f" (.fn [] [.expr (.call (.name "puts") [.int 1])]),
    .bind "g" (.fn [] [.expr (.call (.name "puts") [.int 2]), .expr (.call (.name "f") [])]),
    .expr (.call (.name "g") [])]⟩

/-- Two calls are active at a time: a limit of two leaves the run as it is under three, a limit of
one ends it after the first line. -/
theorem Program.eval_limit_callInCall :
    (2 ≤ 3 ∧
        (∀ n q, (callInCall.point 3 0 ⟨0⟩ ⟨Store.empty.fresh.2, .endless⟩).Active 3 n q → n ≤ 2) ∧
        (callInCall.eval 2 0 ⟨0⟩).run ⟨Store.empty.fresh.2, .endless⟩ =
          (callInCall.eval 3 0 ⟨0⟩).run ⟨Store.empty.fresh.2, .endless⟩) ∧
      1 ≤ 2 ∧
        (∃ n q, (callInCall.point 2 0 ⟨0⟩ ⟨Store.empty.fresh.2, .endless⟩).Active 2 n q ∧ 1 < n) ∧
        ((callInCall.eval 1 0 ⟨0⟩).run ⟨Store.empty.fresh.2, .endless⟩).1 =
          .error (.tooManyCalls 1) ∧
        ((callInCall.eval 1 0 ⟨0⟩).run ⟨Store.empty.fresh.2, .endless⟩).2.sink.text = "2\n" ∧
        ((callInCall.eval 2 0 ⟨0⟩).run ⟨Store.empty.fresh.2, .endless⟩).2.sink.text =
          "2\n" ++ "1\n" := by
  have h₁ : ((callInCall.eval 1 0 ⟨0⟩).run ⟨Store.empty.fresh.2, .endless⟩).2.sink.text =
      "2\n" := by
    decide
  have h₂ : ((callInCall.eval 2 0 ⟨0⟩).run ⟨Store.empty.fresh.2, .endless⟩).1 = .ok .null := rfl
  have h₂' : ((callInCall.eval 2 0 ⟨0⟩).run ⟨Store.empty.fresh.2, .endless⟩).2.sink.text =
      "2\n" ++ "1\n" := by
    decide
  have hlimit := eval_limit (Nat.le_succ 2) 0 ⟨0⟩ callInCall ⟨Store.empty.fresh.2, .endless⟩
  have hlimit' := eval_limit (Nat.le_succ 1) 0 ⟨0⟩ callInCall ⟨Store.empty.fresh.2, .endless⟩
  have hfew : ∀ n q,
      (callInCall.point 3 0 ⟨0⟩ ⟨Store.empty.fresh.2, .endless⟩).Active 3 n q → n ≤ 2 := by
    intro n q hq
    by_contra hn
    have hfault := (hlimit.2.1 ⟨n, q, hq, Nat.lt_of_not_le hn⟩).1
    cases h₂.symm.trans hfault
  have hmany : ∃ n q,
      (callInCall.point 2 0 ⟨0⟩ ⟨Store.empty.fresh.2, .endless⟩).Active 2 n q ∧ 1 < n := by
    by_contra hno
    have hsame := hlimit'.1 fun n q hq => Nat.le_of_not_lt fun hn => hno ⟨n, q, hq, hn⟩
    rw [← hsame, h₁] at h₂'
    exact absurd h₂' (by decide)
  exact ⟨⟨by decide, hfew, hlimit.1 hfew⟩, by decide, hmany, (hlimit'.2.1 hmany).1, h₁, h₂'⟩

end LetFn
