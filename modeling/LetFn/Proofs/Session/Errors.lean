import LetFn.Proofs.Eval.Invariant
import LetFn.Proofs.Session

/-!
# Errors are no values of programs

The outcome of a run is folded into one value, a fault into an error, and taken apart again. That
loses nothing: a program that starts where no error is bound never gets hold of one.

* `Point.Fails`: an operation that fails; by `Point.run_eq_error_iff` a run fails where one does.
* `Session.run_eq_eval`: folding and unfolding an outcome is the identity.
* `Session.runs_unforged`: no run of a session binds, passes, returns or comes to an error.
-/

namespace LetFn

/-! ## Operations that fail -/

namespace Point
variable {limit : Nat} {p q : Point} {f : Fault} {m : Machine}

/-- An operation fails: its outcome is a fault at once, and `m` the machine that it leaves. -/
def Fails (limit : Nat) (p : Point) (f : Fault) (m : Machine) : Prop :=
  p.plan limit = .done (.error f) m

/-- What a point leads to stops it by failing. -/
theorem run_error_of_starts (h : p.Starts limit q) (hq : q.run limit = (.error f, m)) :
    p.run limit = (.error f, m) := by
  cases h with
  | goOn hplan => rw [run_of_goOn hplan, hq]
  | part hplan => exact run_of_part_error hplan hq
  | next hplan hv => rw [run_of_next hplan hv, hq]
  | enter hplan =>
    rw [run_of_enter hplan, hq]
    rfl

/-- A point fails exactly if it leads to an operation that does, with its fault and its machine. -/
theorem run_eq_error_iff :
    p.run limit = (.error f, m) ↔ ∃ q, p.Visits limit q ∧ q.Fails limit f m := by
  constructor
  · intro h
    induction p using Point.induction limit with
    | h p ih =>
      have hlater : ∀ q, p.Starts limit q → q.run limit = (.error f, m) →
          ∃ q, p.Visits limit q ∧ q.Fails limit f m := by
        intro q hstarts hq
        obtain ⟨r, hvisits, hfails⟩ := ih q hstarts hq
        exact ⟨r, .head hstarts hvisits, hfails⟩
      cases hplan : p.plan limit with
      | done o m' =>
        rw [run_of_done hplan] at h
        cases h
        exact ⟨p, .refl, hplan⟩
      | goOn t =>
        rw [run_of_goOn hplan] at h
        exact hlater _ (.goOn hplan) h
      | part t k =>
        rcases ht : (p.turn t p.machine).run limit with ⟨g | v, m'⟩
        · rw [run_of_part_error hplan ht] at h
          exact hlater _ (.part hplan) (ht.trans h)
        · rw [run_of_next hplan ht] at h
          exact hlater _ (.next hplan ht) h
      | enter left t m' =>
        rw [run_of_enter hplan] at h
        refine hlater _ (.enter hplan) ?_
        rcases hbody : run limit ⟨left, t, m'⟩ with ⟨g | v, n⟩
        · rw [hbody] at h
          exact h
        · rw [hbody] at h
          cases h
  · rintro ⟨q, hvisits, hfails⟩
    induction hvisits using Relation.ReflTransGen.head_induction_on with
    | refl => exact run_of_done hfails
    | head hstarts _ ih => exact run_error_of_starts hstarts ih

end Point

/-! ## Runs of a session -/

namespace Session
variable {s : Session}

/-- Evaluation starts with errors nowhere. -/
theorem errorless_point (hs : s.machine.store.Every Value.Errorless) (t : Tree) :
    errorless.Kept (s.point t) :=
  ⟨fun scope x v hv => errorless_value_iff.2 (hs scope x v hv), trivial, trivial⟩

/-- Folding the outcome of an evaluation into a value and taking it apart again is the identity,
where no error is bound. -/
theorem run_eq_eval (hs : s.machine.store.Every Value.Errorless) (t : Tree) :
    s.run t =
      (((t.program.eval s.config.maxCallDepth t.number s.root).run s.machine).1,
        { s with
          machine := ((t.program.eval s.config.maxCallDepth t.number s.root).run s.machine).2 }) := by
  rw [Program.run_eval]
  refine Prod.ext ?_ (run_snd t)
  rw [run_fst]
  show _ = ((s.point t).run s.config.maxCallDepth).1.map Value.unwrap
  cases h : ((s.point t).run s.config.maxCallDepth).1 with
  | error f => rfl
  | ok v =>
    have hv := ((errorless_point hs t).ends s.config.maxCallDepth).value v h
    exact Value.outcome_of_type (errorless_value_iff.1 (Invariant.value_unwrap hv)).type_ne

/-- Where no error is bound, a run fails with a fault only. -/
theorem run_eq_error_iff (hs : s.machine.store.Every Value.Errorless) {t : Tree} {f : Fault} :
    (s.run t).1 = .error f ↔ ((s.point t).run s.config.maxCallDepth).1 = .error f := by
  rw [run_eq_eval hs, Program.run_eval]
  show ((s.point t).run s.config.maxCallDepth).1.map Value.unwrap = _ ↔ _
  cases ((s.point t).run s.config.maxCallDepth).1 with
  | error g => exact Iff.rfl
  | ok v => exact ⟨nofun, nofun⟩

/-- Errors are no values of a run. -/
structure Unforged (s : Session) (t : Tree) : Prop where
  bound : ∀ q, (s.point t).Visits s.config.maxCallDepth q →
    q.machine.store.Every Value.Errorless ∧
      (q.run s.config.maxCallDepth).2.store.Every Value.Errorless
  passed : ∀ q f as, (s.point t).Visits s.config.maxCallDepth q → q.task = .call f as →
    ∀ v ∈ f :: as, v.Errorless
  returned : ∀ q v, (s.point t).Visits s.config.maxCallDepth q → q.task = .give v → v.Errorless
  value : ∀ q v, (s.point t).Visits s.config.maxCallDepth q →
    (q.run s.config.maxCallDepth).1 = .ok v → v.Errorless
  result : ∀ v, (s.run t).1 = .ok v → v.Errorless
  /-- The run fails exactly if an operation on its way does, and stops there. -/
  fails_iff : ∀ f m, s.run t = (.error f, { s with machine := m }) ↔
    ∃ q, (s.point t).Visits s.config.maxCallDepth q ∧ q.Fails s.config.maxCallDepth f m
  /-- Its outcome is the one of the evaluation, which was a value in between. -/
  unfolds : ∀ o m, s.run t = (o, { s with machine := m }) ↔
    (t.program.eval s.config.maxCallDepth t.number s.root).run s.machine = (o, m)

theorem run_eq_iff (hs : s.machine.store.Every Value.Errorless) (t : Tree)
    (o : Except Fault Value) (m : Machine) :
    s.run t = (o, { s with machine := m }) ↔
      (t.program.eval s.config.maxCallDepth t.number s.root).run s.machine = (o, m) := by
  rw [run_eq_eval hs]
  constructor
  · intro h
    obtain ⟨ho, hm⟩ := Prod.ext_iff.1 h
    exact Prod.ext ho (congrArg machine hm)
  · intro h
    rw [h]

theorem unforged (hs : s.machine.store.Every Value.Errorless) (t : Tree) : s.Unforged t where
  bound q hq := by
    have hkept := (errorless_point hs t).of_visits hq
    have hends := hkept.ends s.config.maxCallDepth
    exact ⟨fun scope x v hv => errorless_value_iff.1 (hkept.bound scope x v hv),
      fun scope x v hv => errorless_value_iff.1 (hends.bound scope x v hv)⟩
  passed q f as hq htask v hv := by
    have hheld := ((errorless_point hs t).of_visits hq).held
    rw [htask] at hheld
    exact errorless_value_iff.1 (hheld v hv)
  returned q v hq htask := by
    have hheld := ((errorless_point hs t).of_visits hq).held
    rw [htask] at hheld
    exact errorless_value_iff.1 hheld
  value q v hq hv := errorless_value_iff.1
    ((((errorless_point hs t).of_visits hq).ends s.config.maxCallDepth).value v hv)
  result v hv := errorless_value_iff.1
    (((errorless_point hs t).ends s.config.maxCallDepth).value_of_map (run_eq_ok hv))
  fails_iff f m := by
    rw [run_eq_iff hs, ← Point.run_eq_error_iff, Program.run_eval]
    show (((s.point t).run _).1.map _, ((s.point t).run _).2) = _ ↔ _
    rcases (s.point t).run s.config.maxCallDepth with ⟨g | v, n⟩
    · exact Iff.rfl
    · exact ⟨nofun, nofun⟩
  unfolds := run_eq_iff hs t

/-- Whatever a session is asked to run, if no scope of it binds an error: no run binds, passes,
returns or comes to one, and those that fail do so at an operation that fails. -/
theorem runs_unforged (s : Session) (inputs : List Input)
    (hs : s.machine.store.Every Value.Errorless) : ∀ r ∈ s.runs inputs, r.2.Unforged r.1 := by
  induction inputs generalizing s with
  | nil => exact fun _ h => absurd h List.not_mem_nil
  | cons i is ih =>
    rw [runs]
    cases hi : s.take i with
    | error es =>
      have hsame : (s.perform i).2 = s := by rw [perform, hi]
      rw [hsame]
      exact ih s hs
    | ok r =>
      have hstart : r.2.machine.store.Every Value.Errorless := by
        rw [machine_of_take hi]
        exact hs
      have hrun := unforged hstart r.1
      refine List.forall_mem_cons.2 ⟨hrun, ih _ ?_⟩
      rw [perform_of_take hi, machine_run]
      exact (hrun.bound _ .refl).2

/-- `let f = fn(x) { -x }; f(true)` fails, and so a sign did on its way. -/
theorem runs_unforged_negateTrue :
    (start ⟨512⟩ .endless).machine.store.Every Value.Errorless ∧
      ∃ r ∈ (start ⟨512⟩ .endless).runs [.tree ⟨0, ⟨[
          .bind "f" (.fn ["x"] [.expr (.unary .negate (.name "x"))]),
          .expr (.call (.name "f") [.bool true])]⟩⟩],
        (r.2.run r.1).1 = .error (.noUnary .negate .bool) ∧
          ∃ q m, (r.2.point r.1).Visits r.2.config.maxCallDepth q ∧
            q.Fails r.2.config.maxCallDepth (.noUnary .negate .bool) m := by
  have hs : (start ⟨512⟩ .endless).machine.store.Every Value.Errorless := Store.every_fresh _
  have hunforged := runs_unforged (start ⟨512⟩ .endless) [.tree ⟨0, ⟨[
    .bind "f" (.fn ["x"] [.expr (.unary .negate (.name "x"))]),
    .expr (.call (.name "f") [.bool true])]⟩⟩] hs
  refine ⟨hs, _, List.mem_cons_self, rfl, ?_⟩
  obtain ⟨q, hvisits, hfails⟩ :=
    ((hunforged _ List.mem_cons_self).fails_iff (.noUnary .negate .bool) _).1
      (Prod.ext rfl (run_snd _))
  exact ⟨q, _, hvisits, hfails⟩

/-- Where an error is bound, a run can fail without an operation that does. -/
example : (((start ⟨512⟩ .endless).setIn ⟨0⟩ "e" (.error .overflow)).run
    ⟨0, ⟨[.expr (.name "e")]⟩⟩).1 = .error .overflow := rfl

end Session

end LetFn
