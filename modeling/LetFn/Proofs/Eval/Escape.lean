import LetFn.Proofs.Eval.Task
import LetFn.Proofs.Operator

/-!
# Where a `return` can escape

A `return` travels as a value, so a condition that returns hands it on wherever the condition's
value is used. Runs in which that does not happen keep it out of names, arguments and outcomes, and
every other run lets one escape.

* `Value.Plain`, `Value.Wraps`: values that are not on their way out, and those that are, of a plain
  one; `Point.Clean`: only plain values are bound and held.
* `Point.Avoids`: no `return` comes out of a condition whose value is used. By
  `Point.Clean.settles` clean points that avoid this come to clean machines and to plain values, or
  to wrapped ones where a block ends.
* `Point.Within`, `Point.Body`: the points of one body, and the bodies of a run. By
  `Point.Within.leaves` and `Point.exists_ret` what is on its way out of a body comes from one of
  its `return` statements, and reaches its end.
* `Point.Keeps`: no `return` escapes; `Point.keeps_iff` says when.
-/

namespace LetFn

/-! ## Plain values -/

/-- A value that is not on its way out of a function. -/
def Value.Plain (v : Value) : Prop := v.isReturned = false

/-- A plain value that is on its way out. -/
def Value.Wraps (v : Value) : Prop := ∃ w : Value, w.Plain ∧ v = .returned w

theorem Value.IsScalar.plain {v : Value} (h : v.IsScalar) : v.Plain := by
  cases v with
  | returned => exact h.elim
  | _ => rfl

theorem plain_of_unscoped {x : String} {v : Value} (h : unscoped x = .ok v) : v.Plain := by
  unfold unscoped at h
  split at h
  · cases h
    rfl
  · cases h

theorem Value.Plain.unwrap {v : Value} (h : v.Plain) : v.unwrap = v := by
  cases v with
  | returned => cases h
  | _ => rfl

/-- The values that a task holds are plain, but for one that may have ended a statement. -/
def Task.Plain : Task → Prop
  | .expr .. | .stmt .. => True
  | .sign _ v | .right _ _ v _ _ | .branch _ v _ _ _ | .bind _ _ v | .give v => v.Plain
  | .operator _ v w => v.Plain ∧ w.Plain
  | .args _ callee done _ _ => callee.Plain ∧ ∀ v ∈ done, v.Plain
  | .call callee as => callee.Plain ∧ ∀ v ∈ as, v.Plain
  | .block _ last _ _ => last.Plain
  | .rest _ v _ _ => v.Plain ∨ v.Wraps

/-- A task that was not given what ended a statement or is returned. -/
def Task.IsFresh : Task → Prop
  | .give _ => False
  | .rest _ v _ _ => v.Plain
  | _ => True

/-- Only what runs the statements of a block in place can come to a value on its way out. -/
def Task.returns : Task → Bool
  | .expr _ (.cond ..) _ | .branch .. | .stmt _ (.ret _) _ | .stmt _ (.expr _) _ | .give _
  | .block .. | .rest .. => true
  | _ => false

/-- What a plan keeps plain, for a task that may come to a value on its way out or not. -/
def Plan.Sound (returns : Bool) : Plan → Prop
  | .done o m =>
    m.store.Every Value.Plain ∧ ∀ v, o = .ok v → v.Plain ∨ returns = true ∧ v.Wraps
  | .goOn t => t.Plain ∧ (t.returns = true → returns = true)
  | .part t k =>
    t.Plain ∧ ∀ v, v.Plain ∨ t.isExpr = false ∧ v.Wraps →
      (k v).Plain ∧ ((k v).returns = true → returns = true)
  | .enter _ t m => m.store.Every Value.Plain ∧ t.Plain

theorem Plan.sound_done {returns : Bool} {o : Except Fault Value} {m : Machine}
    (hm : m.store.Every Value.Plain) (ho : ∀ v, o = .ok v → v.Plain) :
    (Plan.done o m).Sound returns := ⟨hm, fun v hv => .inl (ho v hv)⟩

/-- The first value of an expression is plain when it decides what is left. -/
theorem Plan.sound_part {returns : Bool} {scope : Scope} {e : Expr} {site : Site} {k : Value → Task}
    (hk : ∀ v : Value, v.Plain → (k v).Plain ∧ ((k v).returns = true → returns = true)) :
    (Plan.part (.expr scope e site) k).Sound returns := by
  refine ⟨trivial, fun v hv => ?_⟩
  rcases hv with hv | ⟨h, _⟩
  · exact hk v hv
  · cases h

/-- What is left may hand on no `return` at all. -/
theorem Plan.sound_operand {returns : Bool} {scope : Scope} {e : Expr} {site : Site}
    {k : Value → Task} (hk : ∀ v : Value, v.Plain → (k v).Plain)
    (hreturns : ∀ v, (k v).returns = false) : (Plan.part (.expr scope e site) k).Sound returns := by
  refine Plan.sound_part fun v hv => ⟨hk v hv, fun h => ?_⟩
  rw [hreturns v] at h
  cases h

namespace Point

/-- Only plain values are bound, and held by the task. -/
structure Clean (p : Point) : Prop where
  bound : p.machine.store.Every Value.Plain
  held : p.task.Plain

/-- Plans keep values plain, one task at a time. -/
theorem Clean.plan {p : Point} (hp : p.Clean) (limit : Nat) :
    (p.plan limit).Sound p.task.returns := by
  obtain ⟨left, t, m⟩ := p
  obtain ⟨hm, ht⟩ := hp
  change m.store.Every Value.Plain at hm
  change t.Plain at ht
  show (t.plan limit left m).Sound t.returns
  cases t with
  | expr scope e site =>
    cases e with
    | name x =>
      refine Plan.sound_done hm fun v hv => ?_
      cases hx : m.store.lookup scope x with
      | some w =>
        rw [hx] at hv
        cases hv
        exact hm.lookup hx
      | none =>
        rw [hx] at hv
        exact plain_of_unscoped hv
    | int | bool | str | fn => exact Plan.sound_done hm fun v hv => by cases hv; rfl
    | unary op e => exact Plan.sound_operand (fun _ hv => hv) fun _ => rfl
    | binary op l r => exact Plan.sound_operand (fun _ hv => hv) fun _ => rfl
    | cond t y no => exact Plan.sound_part fun v hv => ⟨hv, fun _ => rfl⟩
    | call f as =>
      exact Plan.sound_operand (fun _ hv => ⟨hv, List.forall_mem_nil _⟩) fun _ => rfl
  | sign op v => exact Plan.sound_done hm fun w hw => (isScalar_of_unary hw).plain
  | right scope op v r site => exact Plan.sound_operand (fun _ hw => ⟨ht, hw⟩) fun _ => rfl
  | operator op v w => exact Plan.sound_done hm fun u hu => (isScalar_of_binary hu).plain
  | branch scope v yes no site =>
    show Plan.Sound _ (if v.truthy then _ else _)
    split
    · exact ⟨rfl, fun _ => rfl⟩
    · cases no with
      | none => exact Plan.sound_done hm fun w hw => by cases hw; rfl
      | some n => exact ⟨rfl, fun _ => rfl⟩
  | args scope callee done es site =>
    cases es with
    | nil => exact ⟨ht, fun h => by cases h⟩
    | cons e es =>
      refine Plan.sound_operand (fun v hv => ⟨ht.1, fun w hw => ?_⟩) fun _ => rfl
      rcases List.mem_append.1 hw with hw | hw
      · exact ht.2 w hw
      · rw [List.mem_singleton.1 hw]
        exact hv
  | call v as =>
    cases v with
    | closure c =>
      show Plan.Sound _ (if as.length ≠ c.params.length then _ else _)
      split
      · exact Plan.sound_done hm fun w hw => by cases hw
      · cases left with
        | zero => exact Plan.sound_done hm fun w hw => by cases hw
        | succ left => exact ⟨(hm.enclose c.scope).bindAll _ c.params as ht.2, rfl⟩
    | builtin b =>
      obtain ⟨o, sink, hrun, hnull⟩ := b.exists_run as m
      show Plan.Sound _ (.done ((b.run as).run m).1 ((b.run as).run m).2)
      rw [hrun]
      refine Plan.sound_done hm fun w hw => ?_
      rw [hnull w hw]
      rfl
    | int | bool | str | null | returned | error =>
      exact Plan.sound_done hm fun w hw => by cases hw
  | stmt scope s site =>
    cases s with
    | bind x e => exact Plan.sound_operand (fun _ hv => hv) fun _ => rfl
    | ret e => exact Plan.sound_part fun v hv => ⟨hv, fun _ => rfl⟩
    | expr e => exact ⟨trivial, fun _ => rfl⟩
  | bind scope x v => exact Plan.sound_done (hm.bind scope x ht) fun w hw => by cases hw; rfl
  | give v => exact ⟨hm, fun w hw => .inr ⟨rfl, v, ht, by cases hw; rfl⟩⟩
  | block scope last ss site =>
    cases ss with
    | nil =>
      refine Plan.sound_done hm fun w hw => ?_
      cases hw
      exact ht
    | cons s ss =>
      refine ⟨trivial, fun v hv => ⟨?_, fun _ => rfl⟩⟩
      rcases hv with hv | ⟨_, hv⟩
      · exact .inl hv
      · exact .inr hv
  | rest scope v ss site =>
    show Plan.Sound _ (if v.isReturned then _ else _)
    split
    · next h =>
      refine ⟨hm, fun w hw => .inr ⟨rfl, ?_⟩⟩
      cases hw
      rcases ht with hv | hv
      · rw [hv] at h
        cases h
      · exact hv
    · next h => exact ⟨Bool.eq_false_iff.2 h, fun _ => rfl⟩

theorem Clean.part {limit : Nat} {p : Point} {t : Task} {k : Value → Task} (hp : p.Clean)
    (h : p.plan limit = .part t k) : (p.turn t p.machine).Clean := by
  have hsound := hp.plan limit
  rw [h] at hsound
  exact ⟨hp.bound, hsound.1⟩

/-! ## Runs without a `return` out of a used condition -/

/-- No `return` comes out of a condition whose value decides what is left: an operand, the test of a
condition, a function or an argument of a call, or what a `let` or a `return` is given. -/
def Avoids (limit : Nat) (p : Point) : Prop :=
  ∀ scope t y no site k v, p.plan limit = .part (.expr scope (.cond t y no) site) k →
    ((p.turn (.expr scope (.cond t y no) site) p.machine).run limit).1 ≠ .ok (.returned v)

/-- What a clean point comes to: a machine that binds plain values, and a plain value unless the
task may end a block. -/
structure Settles (limit : Nat) (p : Point) : Prop where
  bound : (p.run limit).2.store.Every Value.Plain
  value : ∀ v, (p.run limit).1 = .ok v → v.Plain ∨ p.task.returns = true ∧ v.Wraps

variable {limit : Nat} {p q : Point}

theorem Avoids.value {t : Task} {k : Value → Task} {v : Value} (ha : p.Avoids limit)
    (hplan : p.plan limit = .part t k) (ht : Settles limit (p.turn t p.machine))
    (hv : ((p.turn t p.machine).run limit).1 = .ok v) : v.Plain ∨ t.isExpr = false ∧ v.Wraps := by
  rcases ht.value v hv with h | ⟨hreturns, hwraps⟩
  · exact .inl h
  · obtain ⟨w, -, rfl⟩ := id hwraps
    cases t with
    | expr scope e site =>
      cases e with
      | cond t y no => exact absurd hv (ha scope t y no site k w hplan)
      | _ => cases hreturns
    | _ => exact .inr ⟨rfl, hwraps⟩

/-- Clean points lead to clean points, if what decides on the next one is settled. -/
theorem Clean.of_starts (hp : p.Clean) (ha : p.Avoids limit) (h : p.Starts limit q)
    (hpart : ∀ t k, p.plan limit = .part t k → Settles limit (p.turn t p.machine)) : q.Clean := by
  have hsound := hp.plan limit
  cases h with
  | goOn h =>
    rw [h] at hsound
    exact ⟨hp.bound, hsound.1⟩
  | part h => exact hp.part h
  | @next t k v m h hv =>
    rw [h] at hsound
    have ht := hpart t k h
    have hval := ha.value h ht (by rw [hv])
    refine ⟨?_, (hsound.2 v hval).1⟩
    have hm := ht.bound
    rw [hv] at hm
    exact hm
  | enter h =>
    rw [h] at hsound
    exact ⟨hsound.1, hsound.2⟩

/-- What leaves a body is plain. -/
theorem Settles.unwrap (h : p.Settles limit) {v : Value}
    (hv : (p.run limit).1.map Value.unwrap = .ok v) : v.Plain := by
  cases hrun : (p.run limit).1 with
  | error f =>
    rw [hrun] at hv
    cases hv
  | ok w =>
    rw [hrun] at hv
    cases hv
    rcases h.value w hrun with hw | ⟨-, u, hu, rfl⟩
    · rw [hw.unwrap]
      exact hw
    · exact hu

/-- Clean points settle, if no `return` comes out of a used condition on their way. -/
theorem Clean.settles (hp : p.Clean) (ha : ∀ q, p.Visits limit q → q.Avoids limit) :
    p.Settles limit := by
  induction p using Point.induction limit with
  | h p ih =>
    -- every point that `p` leads to is clean, and so settles
    have hpart : ∀ t k, p.plan limit = .part t k → Settles limit (p.turn t p.machine) := by
      intro t k h
      exact ih _ (.part h) (hp.part h) fun q hq => ha q (.head (.part h) hq)
    have hstep : ∀ q, p.Starts limit q → q.Settles limit := fun q hq =>
      ih q hq (hp.of_starts (ha p .refl) hq hpart) fun r hr => ha r (.head hq hr)
    have hsound := hp.plan limit
    cases hplan : p.plan limit with
    | done o m =>
      rw [hplan] at hsound
      refine ⟨?_, ?_⟩ <;> rw [run_of_done hplan]
      · exact hsound.1
      · exact hsound.2
    | goOn t =>
      rw [hplan] at hsound
      have ht := hstep _ (.goOn hplan)
      refine ⟨?_, ?_⟩ <;> rw [run_of_goOn hplan]
      · exact ht.bound
      · intro v hv
        exact (ht.value v hv).imp_right fun h => ⟨hsound.2 h.1, h.2⟩
    | part t k =>
      rw [hplan] at hsound
      have ht := hpart t k hplan
      rcases hrun : (p.turn t p.machine).run limit with ⟨f | v, m⟩
      · refine ⟨?_, ?_⟩ <;> rw [run_of_part_error hplan hrun]
        · have hm := ht.bound
          rw [hrun] at hm
          exact hm
        · intro v hv
          cases hv
      · have hnext := hstep _ (.next hplan hrun)
        have hval := (ha p .refl).value hplan ht (by rw [hrun])
        refine ⟨?_, ?_⟩ <;> rw [run_of_next hplan hrun]
        · exact hnext.bound
        · intro w hw
          exact (hnext.value w hw).imp_right fun h => ⟨(hsound.2 v hval).2 h.1, h.2⟩
    | enter left t m =>
      have ht := hstep _ (.enter hplan)
      refine ⟨?_, ?_⟩ <;> rw [run_of_enter hplan]
      · exact ht.bound
      · intro v hv
        exact .inl (ht.unwrap hv)

/-- All points that a clean one leads to are clean, if no `return` comes out of a used condition. -/
theorem Clean.of_visits (hp : p.Clean) (ha : ∀ q, p.Visits limit q → q.Avoids limit)
    (h : p.Visits limit q) : q.Clean := by
  induction h using Relation.ReflTransGen.head_induction_on with
  | refl => exact hp
  | head hpq _ ih =>
    refine ih (hp.of_starts (ha _ .refl) hpq ?_) fun r hr => ha r (.head hpq hr)
    intro t k hplan
    exact (hp.part hplan).settles fun r hr => ha r (.head (.part hplan) hr)

/-! ## Bodies -/

/-- The points of the body that starts at `b`, the functions that it calls left out. The way to a
point is straight if it leads through blocks and statements, and into no value that decides what is
left. -/
inductive Within (limit : Nat) (b : Point) : Bool → Point → Prop
  | start : Within limit b true b
  | goOn {straight : Bool} {q : Point} {t : Task} :
      Within limit b straight q → q.plan limit = .goOn t →
      Within limit b straight (q.turn t q.machine)
  | part {straight : Bool} {q : Point} {t : Task} {k : Value → Task} :
      Within limit b straight q → q.plan limit = .part t k →
      Within limit b (straight && !t.isExpr) (q.turn t q.machine)
  | next {straight : Bool} {q : Point} {t : Task} {k : Value → Task} {v : Value} {m : Machine} :
      Within limit b straight q → q.plan limit = .part t k →
      (q.turn t q.machine).run limit = (.ok v, m) → Within limit b straight (q.turn (k v) m)

/-- The bodies of a run, each with the outcome of its program or call. -/
inductive Body (limit : Nat) (p : Point) : Point → Except Fault Value → Prop
  | program : Body limit p p ((p.run limit).1.map Value.unwrap)
  | call {q : Point} {left : Nat} {t : Task} {m : Machine} :
      p.Visits limit q → q.plan limit = .enter left t m → Body limit p ⟨left, t, m⟩ (q.run limit).1

/-- No `return` of the program that runs at `p` escapes as data. -/
structure Keeps (limit : Nat) (p : Point) : Prop where
  outcome : ∀ v, (p.run limit).1.map Value.unwrap = .ok v → v.Plain
  bound : ∀ q, p.Visits limit q →
    q.machine.store.Every Value.Plain ∧ (q.run limit).2.store.Every Value.Plain
  passed : ∀ q f as, p.Visits limit q → q.task = .call f as → ∀ v ∈ as, v.Plain
  /-- What a `return` statement gives is the outcome of the program or call around it, which it
  reaches as it is. -/
  caught : ∀ b o straight q scope e site v, p.Body limit b o → b.Within limit straight q →
    q.task = .stmt scope (.ret e) site → (q.run limit).1 = .ok (.returned v) →
    straight = true ∧ o = .ok v

variable {b r : Point} {straight straight' : Bool}

theorem Within.visits (h : b.Within limit straight q) : b.Visits limit q := by
  induction h with
  | start => exact .refl
  | goOn _ hplan ih => exact ih.tail (.goOn hplan)
  | part _ hplan ih => exact ih.tail (.part hplan)
  | next _ hplan hrun ih => exact ih.tail (.next hplan hrun)

theorem Within.trans (h : b.Within limit straight q) (h' : q.Within limit straight' r) :
    b.Within limit (straight && straight') r := by
  induction h' with
  | start =>
    rw [Bool.and_true]
    exact h
  | goOn _ hplan ih => exact ih.goOn hplan
  | part _ hplan ih =>
    rw [← Bool.and_assoc]
    exact ih.part hplan
  | next _ hplan hrun ih => exact ih.next hplan hrun

theorem Body.visits {o : Except Fault Value} (h : p.Body limit b o) : p.Visits limit b := by
  cases h with
  | program => exact .refl
  | call hq hplan => exact hq.tail (.enter hplan)

theorem Body.outcome_eq {o : Except Fault Value} (h : p.Body limit b o) :
    o = (b.run limit).1.map Value.unwrap := by
  cases h with
  | program => rfl
  | call _ hplan => rw [run_of_enter hplan]

/-- Every point of a run lies in one of its bodies. -/
theorem exists_body (h : p.Visits limit q) :
    ∃ b o straight, p.Body limit b o ∧ b.Within limit straight q := by
  induction h with
  | refl => exact ⟨p, _, true, .program, .start⟩
  | tail hpq hstep ih =>
    obtain ⟨b, o, straight, hb, hq⟩ := ih
    cases hstep with
    | goOn hplan => exact ⟨b, o, straight, hb, hq.goOn hplan⟩
    | part hplan => exact ⟨b, o, _, hb, hq.part hplan⟩
    | next hplan hrun => exact ⟨b, o, straight, hb, hq.next hplan hrun⟩
    | enter hplan => exact ⟨_, _, true, .call hpq hplan, .start⟩

/-- Only the statements of a block are parts that are no expressions. -/
theorem rest_of_part {t : Task} {k : Value → Task} (h : p.plan limit = .part t k)
    (ht : t.isExpr = false) : ∃ scope ss site, ∀ v, k v = .rest scope v ss site := by
  obtain ⟨left, u, m⟩ := p
  change u.plan limit left m = .part t k at h
  cases u with
  | expr scope e site => cases e <;> cases h <;> cases ht
  | right => cases h; cases ht
  | args scope callee done es site => cases es <;> cases h; cases ht
  | stmt scope s site => cases s <;> cases h <;> cases ht
  | block scope last ss site =>
    cases ss with
    | nil => cases h
    | cons s ss =>
      cases h
      exact ⟨scope, ss, site.child 1, fun _ => rfl⟩
  | branch scope v yes no site =>
    cases no <;> (rw [Task.plan] at h; split at h <;> cases h)
  | rest scope v ss site => rw [Task.plan] at h; split at h <;> cases h
  | call v as =>
    cases v with
    | closure c =>
      change (if as.length ≠ c.params.length then _ else _) = _ at h
      split at h
      · cases h
      · cases left <;> cases h
    | _ => cases h
  | sign | operator | bind | give => cases h

/-- A statement that ends in a value on its way out ends its block in it. -/
theorem run_of_returned {t : Task} {k : Value → Task} {v : Value} {m : Machine}
    (h : p.plan limit = .part t k) (ht : t.isExpr = false)
    (hv : (p.turn t p.machine).run limit = (.ok (.returned v), m)) :
    p.run limit = (.ok (.returned v), m) := by
  obtain ⟨scope, ss, site, hk⟩ := rest_of_part h ht
  rw [run_of_next h hv, hk]
  exact run_of_done rfl

/-- Without a `return` out of a used condition, what is on its way out at a point of a body got
there straight, and leaves the body. -/
theorem Within.leaves {v : Value} (hb : b.Clean) (ha : ∀ q, b.Visits limit q → q.Avoids limit)
    (h : b.Within limit straight q) (hv : (q.run limit).1 = .ok (.returned v)) :
    straight = true ∧ (b.run limit).1 = .ok (.returned v) := by
  induction h with
  | start => exact ⟨rfl, hv⟩
  | goOn _ hplan ih =>
    rw [← run_of_goOn hplan] at hv
    exact ih hv
  | @part straight q t k hq hplan ih =>
    have hsettles : (q.turn t q.machine).Settles limit :=
      (hb.of_visits ha (hq.part hplan).visits).settles fun r hr =>
        ha r ((hq.part hplan).visits.trans hr)
    have ht : t.isExpr = false := by
      rcases (ha q hq.visits).value hplan hsettles hv with hplain | ⟨ht, -⟩
      · cases hplain
      · exact ht
    have hrun := run_of_returned hplan ht (Prod.ext hv rfl)
    obtain ⟨hstraight, hout⟩ := ih (by rw [hrun])
    exact ⟨by rw [hstraight, ht]; rfl, hout⟩
  | next _ hplan hrun ih =>
    rw [← run_of_next hplan hrun] at hv
    exact ih hv

/-- What is on its way out comes from a `return` statement of the same body. -/
theorem exists_ret {v : Value} (hp : p.Clean) (ha : ∀ q, p.Visits limit q → q.Avoids limit)
    (hfresh : p.task.IsFresh) (hv : (p.run limit).1 = .ok (.returned v)) :
    ∃ straight q scope e site, p.Within limit straight q ∧ q.task = .stmt scope (.ret e) site ∧
      (q.run limit).1 = .ok (.returned v) := by
  induction p using Point.induction limit with
  | h p ih =>
    -- a point that `p` leads to in the same body, and that comes to the same
    have hfrom : ∀ {q straight}, p.Starts limit q → p.Within limit straight q → q.task.IsFresh →
        (q.run limit).1 = .ok (.returned v) →
        ∃ straight q scope e site, p.Within limit straight q ∧
          q.task = .stmt scope (.ret e) site ∧ (q.run limit).1 = .ok (.returned v) := by
      intro q straight hq hwithin hfresh hv
      have hclean := hp.of_visits ha (.single hq)
      obtain ⟨straight', r, scope, e, site, hr, hrest⟩ :=
        ih q hq hclean (fun r hr => ha r (.head hq hr)) hfresh hv
      exact ⟨_, r, scope, e, site, hwithin.trans hr, hrest⟩
    have hgoOn : ∀ t, p.plan limit = .goOn t → t.IsFresh → _ := fun t hplan ht =>
      hfrom (.goOn hplan) (Within.start.goOn hplan) ht (by rw [← run_of_goOn hplan]; exact hv)
    have hnext : ∀ t k w m, p.plan limit = .part t k →
        (p.turn t p.machine).run limit = (.ok w, m) → (k w).IsFresh → _ :=
      fun t k w m hplan hrun hk => hfrom (.next hplan hrun) (Within.start.next hplan hrun) hk
        (by rw [← run_of_next hplan hrun]; exact hv)
    have hreturns : p.task.returns = true := by
      rcases (hp.settles ha).value _ hv with hplain | ⟨hreturns, -⟩
      · cases hplain
      · exact hreturns
    obtain ⟨left, t, m⟩ := p
    cases t with
    | expr scope e site =>
      cases e with
      | cond u y no =>
        rcases hrun : run limit ⟨left, .expr scope u (site.child 0), m⟩ with ⟨f | w, m'⟩
        · rw [run_of_part_error rfl hrun] at hv
          cases hv
        · exact hnext _ _ w m' rfl hrun trivial
      | _ => cases hreturns
    | branch scope w yes no site =>
      by_cases hw : w.truthy = true
      · exact hgoOn _ (if_pos hw) trivial
      · cases no with
        | none =>
          have hplan : plan limit ⟨left, .branch scope w yes none site, m⟩ = .done (.ok .null) m :=
            if_neg hw
          rw [run_of_done hplan] at hv
          cases hv
        | some n => exact hgoOn (.block scope .null n (site.child 2)) (if_neg hw) trivial
    | stmt scope s site =>
      cases s with
      | bind => cases hreturns
      | ret e => exact ⟨true, _, scope, e, site, .start, rfl, hv⟩
      | expr e => exact hgoOn _ rfl trivial
    | block scope last ss site =>
      cases ss with
      | nil =>
        rw [run_of_done rfl] at hv
        cases hv
        cases hp.held
      | cons s ss =>
        rcases hrun : run limit ⟨left, .stmt scope s (site.child 0), m⟩ with ⟨f | w, m'⟩
        · rw [run_of_part_error rfl hrun] at hv
          cases hv
        · cases w with
          | returned u =>
            rw [run_of_returned rfl rfl hrun] at hv
            cases hv
            exact hfrom (.part rfl) (Within.start.part rfl) trivial (congrArg Prod.fst hrun)
          | _ => exact hnext _ _ _ m' rfl hrun rfl
    | rest scope w ss site =>
      refine hgoOn (.block scope w ss site) (if_neg ?_) trivial
      rw [show w.isReturned = false from hfresh]
      decide
    | give => exact hfresh.elim
    | _ => cases hreturns

/-! ## When returns are kept -/

theorem keeps_of_avoids (hp : p.Clean) (ha : ∀ q, p.Visits limit q → q.Avoids limit) :
    p.Keeps limit where
  outcome _ hv := (hp.settles ha).unwrap hv
  bound q hq := by
    have hclean := hp.of_visits ha hq
    exact ⟨hclean.bound, (hclean.settles fun r hr => ha r (hq.trans hr)).bound⟩
  passed q f as hq htask := by
    have hheld := (hp.of_visits ha hq).held
    rw [htask] at hheld
    exact hheld.2
  caught b o straight q scope e site v hb hq htask hv := by
    have hclean := hp.of_visits ha hb.visits
    obtain ⟨hstraight, hout⟩ := hq.leaves hclean (fun r hr => ha r (hb.visits.trans hr)) hv
    refine ⟨hstraight, ?_⟩
    rw [hb.outcome_eq, hout]
    rfl

/-- A `return` out of a used condition is not caught. -/
theorem Keeps.avoids (h : p.Keeps limit) (hq : p.Visits limit q) (hclean : q.Clean)
    (ha : ∀ t k, q.plan limit = .part t k →
      ∀ r, (q.turn t q.machine).Visits limit r → r.Avoids limit) : q.Avoids limit := by
  intro scope t y no site k v hplan hv
  obtain ⟨b, o, straight, hb, hwithin⟩ := exists_body hq
  have hpart := hwithin.part hplan
  have hcond := hclean.part hplan
  obtain ⟨straight', r, scope', e, site', hr, htask, hret⟩ :=
    exists_ret hcond (ha _ k hplan) trivial hv
  have hcaught := h.caught b o _ r scope' e site' v hb (hpart.trans hr) htask hret
  rw [Task.isExpr, Bool.not_true, Bool.and_false, Bool.false_and] at hcaught
  cases hcaught.1

theorem avoids_of_keeps (hp : p.Clean) (h : p.Keeps limit) (q : Point) (hq : p.Visits limit q) :
    q.Avoids limit := by
  -- from each point on the way, all those that it leads to
  suffices hall : ∀ q, p.Visits limit q → q.Clean → ∀ r, q.Visits limit r → r.Avoids limit from
    hall p .refl hp q hq
  intro q
  induction q using Point.induction limit with
  | h q ih =>
    intro hq hclean r hr
    have hpart : ∀ t k, q.plan limit = .part t k →
        ∀ r, (q.turn t q.machine).Visits limit r → r.Avoids limit := by
      intro t k hplan
      exact ih _ (.part hplan) (hq.tail (.part hplan)) (hclean.part hplan)
    have havoids := h.avoids hq hclean hpart
    rcases Relation.ReflTransGen.cases_head hr with rfl | ⟨q', hstep, hr'⟩
    · exact havoids
    · refine ih q' hstep (hq.tail hstep) (hclean.of_starts havoids hstep fun t k hplan => ?_) r hr'
      exact (hclean.part hplan).settles (hpart t k hplan)

/-- No `return` escapes exactly when none comes out of a condition whose value is used. -/
theorem keeps_iff (hp : p.Clean) :
    p.Keeps limit ↔ ∀ q, p.Visits limit q → q.Avoids limit :=
  ⟨avoids_of_keeps hp, keeps_of_avoids hp⟩

end Point

end LetFn
