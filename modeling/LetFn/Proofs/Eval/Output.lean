import LetFn.Proofs.Eval.Task

/-!
# Output only grows

What a run has written stays written.

* `Sink.Extends`: a sink after further writes; by `Sink.Extends.exists_textAfter` the text that it
  took before comes first.
* `Point.run_extends`: every run extends the sink that it starts with; by `Point.part_extends` what
  the first part of a task writes comes before the rest.
-/

namespace LetFn

/-! ## Sinks after further writes -/

/-- A sink after further writes. -/
structure Sink.Extends (s s' : Sink) : Prop where
  refusal_eq : s'.refusal = s.refusal
  exists_accepted : ∃ texts, s'.accepted = texts ++ s.accepted

namespace Sink.Extends
variable {s s' s'' : Sink}

@[refl] theorem refl (s : Sink) : s.Extends s := ⟨rfl, [], rfl⟩

theorem trans (h : s.Extends s') (h' : s'.Extends s'') : s.Extends s'' := by
  obtain ⟨texts, htexts⟩ := h.exists_accepted
  obtain ⟨more, hmore⟩ := h'.exists_accepted
  refine ⟨h'.refusal_eq.trans h.refusal_eq, more ++ texts, ?_⟩
  rw [hmore, htexts, List.append_assoc]

theorem write {text : String} (h : s.write text = .ok s') : s.Extends s' := by
  unfold Sink.write at h
  split at h
  · cases h
  · cases h
    exact ⟨rfl, [text], rfl⟩

/-- What a sink takes comes before what it takes later. -/
theorem exists_textAfter (h : s.Extends s') (h' : s'.Extends s'') :
    ∃ rest, s''.textAfter s.accepted.length = s'.textAfter s.accepted.length ++ rest := by
  obtain ⟨texts, htexts⟩ := h.exists_accepted
  obtain ⟨more, hmore⟩ := h'.exists_accepted
  refine ⟨String.join more.reverse, ?_⟩
  have htake : ∀ {t : Sink} {xs : List String}, t.accepted = xs ++ s.accepted →
      t.textAfter s.accepted.length = String.join xs.reverse := by
    intro t xs hxs
    rw [textAfter, hxs, List.length_append, Nat.add_sub_cancel, List.take_left]
  rw [htexts, ← List.append_assoc] at hmore
  rw [htake hmore, htake htexts, List.reverse_append, String.join_append]

end Sink.Extends

/-! ## Runs -/

theorem extends_bind {α β : Type} {x : EvalM α} {k : α → EvalM β}
    (hx : ∀ m : Machine, m.sink.Extends (x.run m).2.sink)
    (hk : ∀ a (m : Machine), m.sink.Extends ((k a).run m).2.sink) (m : Machine) :
    m.sink.Extends ((x >>= k).run m).2.sink := by
  have h := hx m
  rw [run_bind]
  generalize x.run m = r at h
  obtain ⟨f | a, m'⟩ := r
  · exact h
  · exact h.trans (hk a m')

theorem EvalM.write_extends (text : String) (m : Machine) :
    m.sink.Extends ((write text).run m).2.sink := by
  rw [run_write]
  cases h : m.sink.write text with
  | ok sink => exact .write h
  | error reason => exact .refl _

theorem EvalM.writeAll_extends (texts : List String) (m : Machine) :
    m.sink.Extends ((writeAll texts).run m).2.sink := by
  induction texts generalizing m with
  | nil => exact .refl _
  | cons text texts ih => exact extends_bind (write_extends text) (fun _ => ih) m

theorem Builtin.run_extends (b : Builtin) (as : List Value) (m : Machine) :
    m.sink.Extends ((b.run as).run m).2.sink := by
  rw [b.run_eq as]
  refine extends_bind (EvalM.writeAll_extends _) (fun _ _ => ?_) m
  exact .refl _

/-- What was written before a run stays written. -/
theorem Point.run_extends (limit : Nat) (p : Point) :
    p.machine.sink.Extends (p.run limit).2.sink := by
  induction p using Point.induction limit with
  | h p ih =>
    cases h : p.plan limit with
    | done o m =>
      rw [run_of_done h]
      obtain rfl | ⟨scope, x, v, -, rfl⟩ | ⟨b, as, -, rfl⟩ := Task.machine_of_plan_done h
      · rfl
      · exact .refl _
      · exact b.run_extends as p.machine
    | goOn t =>
      rw [run_of_goOn h]
      exact ih _ (.goOn h)
    | part t k =>
      have hpart := ih _ (.part h)
      rcases hr : (p.turn t p.machine).run limit with ⟨f | v, m⟩
      · rw [run_of_part_error h hr]
        rwa [hr] at hpart
      · rw [run_of_next h hr]
        rw [hr] at hpart
        exact hpart.trans (ih _ (.next h hr))
    | enter left t m =>
      obtain ⟨c, as, -, -, -, -, rfl⟩ := Task.exists_of_plan_enter h
      rw [run_of_enter h]
      exact ih _ (.enter h)

/-- What the first part of a task writes stays written. -/
theorem Point.part_extends {limit : Nat} {p : Point} {t : Task} {k : Value → Task}
    (h : p.plan limit = .part t k) :
    ((p.turn t p.machine).run limit).2.sink.Extends (p.run limit).2.sink := by
  rcases hr : (p.turn t p.machine).run limit with ⟨f | v, m⟩
  · rw [run_of_part_error h hr]
  · rw [run_of_next h hr]
    exact run_extends limit (p.turn (k v) m)

end LetFn
