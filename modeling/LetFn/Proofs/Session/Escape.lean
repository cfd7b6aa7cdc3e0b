import LetFn.Proofs.Eval.Escape
import LetFn.Proofs.Session

/-!
# When a session lets a `return` escape

Sessions hold no value on its way out as long as no run uses the value of a condition that returns;
the first run that does lets it escape.

* `Session.Keeps`: a run gives a plain value, leaves a plain store, and keeps every `return` inside
  of the function or program around it.
* `Session.returns_kept_iff`: the runs of a session keep returns exactly when they avoid using the
  value of a condition that returns. One that does not is a `return` of such a condition.
-/

namespace LetFn

namespace Session

/-- No `return` of a run escapes as data. -/
structure Keeps (s : Session) (t : Tree) : Prop where
  result : ∀ v, (s.run t).1 = .ok v → v.Plain
  store : (s.run t).2.machine.store.Every Value.Plain
  run : (s.point t).Keeps s.config.maxCallDepth

/-- No `return` of a run comes out of a condition whose value is used. -/
def Avoids (s : Session) (t : Tree) : Prop :=
  ∀ q, (s.point t).Visits s.config.maxCallDepth q → q.Avoids s.config.maxCallDepth

theorem keeps_iff_avoids {s : Session} (hs : s.machine.store.Every Value.Plain) (t : Tree) :
    s.Keeps t ↔ s.Avoids t := by
  have hclean : (s.point t).Clean := ⟨hs, rfl⟩
  constructor
  · intro h
    exact (Point.keeps_iff hclean).1 h.run
  · intro h
    have hkeeps := (Point.keeps_iff hclean).2 h
    refine ⟨fun v hv => hkeeps.outcome v (run_eq_ok hv), ?_, hkeeps⟩
    rw [machine_run]
    exact (hkeeps.bound _ .refl).2

/-- Whatever a session is asked to run, if its scopes bind plain values only: no `return` escapes as
data exactly when none comes out of a condition whose value is used. -/
theorem returns_kept_iff (s : Session) (inputs : List Input)
    (hs : s.machine.store.Every Value.Plain) :
    (∀ r ∈ s.runs inputs, r.2.Keeps r.1) ↔ ∀ r ∈ s.runs inputs, r.2.Avoids r.1 := by
  induction inputs generalizing s with
  | nil =>
    rw [runs]
    exact ⟨fun _ => List.forall_mem_nil _, fun _ => List.forall_mem_nil _⟩
  | cons i is ih =>
    rw [runs]
    cases hi : s.take i with
    | error es =>
      have hsame : (s.perform i).2 = s := by rw [perform, hi]
      rw [hsame]
      exact ih s hs
    | ok r =>
      have hstart : r.2.machine.store.Every Value.Plain := by
        rw [machine_of_take hi]
        exact hs
      rw [List.forall_mem_cons, List.forall_mem_cons, keeps_iff_avoids hstart]
      refine and_congr_right fun havoids => ?_
      refine ih _ ?_
      rw [perform_of_take hi]
      exact ((keeps_iff_avoids hstart r.1).2 havoids).store

/-- A `return` of what a condition returns: its run does not avoid using that. -/
theorem returns_kept_iff_return_of_condition :
    (start ⟨512⟩ .endless).machine.store.Every Value.Plain ∧
      ¬ ∀ r ∈ (start ⟨512⟩ .endless).runs
        [.tree ⟨0, ⟨[.ret (.cond (.bool true) [.ret (.int 1)] none)]⟩⟩], r.2.Avoids r.1 := by
  have hstore : (start ⟨512⟩ .endless).machine.store.Every Value.Plain := Store.every_fresh _
  refine ⟨hstore, fun havoids => ?_⟩
  have hkeeps := (returns_kept_iff (start ⟨512⟩ .endless) _ hstore).2 havoids
  cases (hkeeps _ List.mem_cons_self).result (.returned (.int 1)) rfl

/-- The text of such a program: its value is one that is still on its way out. -/
theorem return_escapes :
    ((start ⟨512⟩ .endless).evaluate "return if (true) \x7b return 1 \x7d").1 =
        .ok (.returned (.int 1)) ∧
      ¬ ∀ r ∈ (start ⟨512⟩ .endless).runs [.text "return if (true) \x7b return 1 \x7d"],
        r.2.Keeps r.1 := by
  have hparse : Program.parse "return if (true) \x7b return 1 \x7d" =
      .ok ⟨[.ret (.cond (.bool true) [.ret (.int 1)] none)]⟩ := by
    have hbeq : (match Program.parse "return if (true) \x7b return 1 \x7d" with
        | .ok p => p == ⟨[.ret (.cond (.bool true) [.ret (.int 1)] none)]⟩
        | .error _ => false) = true := by decide +kernel
    split at hbeq
    · next p hp => rw [hp, beq_iff_eq.1 hbeq]
    · cases hbeq
  have hread : (start ⟨512⟩ .endless).read "return if (true) \x7b return 1 \x7d" =
      .ok (⟨0, ⟨[.ret (.cond (.bool true) [.ret (.int 1)] none)]⟩⟩,
        { start ⟨512⟩ .endless with trees := 1 }) := by
    rw [read, hparse]
    rfl
  refine ⟨?_, fun hkeeps => ?_⟩
  · rw [evaluate, hread]
    rfl
  · rw [runs, take, hread] at hkeeps
    cases (hkeeps _ List.mem_cons_self).result (.returned (.int 1)) rfl

end Session

end LetFn
