import LetFn.Proofs.Eval.Steps

/-!
# Effects

What a run does to the machine, one thing after another: the texts that it sends to the sink, taken
or refused, the scopes that it makes and the names that it binds.

* `Effect`: one of these things; `Machine.after` is what it makes of a machine.
* `Machine.Takes`: nothing of some effects is refused; `Machine.RefusesLast`: only the last one is.
* `Machine.sent`: texts that are written, up to the first that is refused. By
  `Builtin.run_takes_or_refuses` that is what a builtin does.
* `Moment.effects`: what the next step does. `Moment.step_effects`: the step does that to the
  machine and nothing else, and a refusal is its outcome.
* `Moment.Does`: what a run does from one moment to another.
-/

namespace LetFn

/-! ## Effects on machines -/

/-- What can be done to a machine: a text is sent to the sink, a scope is made inside another, a
name is bound. -/
inductive Effect
  | write (text : String)
  | enclose (outer : Scope)
  | bind (scope : Scope) (x : String) (v : Value)

namespace Machine

/-- The machine after an effect. A text that is refused changes nothing. -/
def after (m : Machine) : Effect → Machine
  | .write text =>
    match m.sink.write text with
    | .ok sink => { m with sink }
    | .error _ => m
  | .enclose outer => { m with store := (m.store.enclose outer).2 }
  | .bind scope x v => { m with store := m.store.bind scope x v }

def afterAll (m : Machine) (es : List Effect) : Machine := es.foldl after m

/-- Why an effect is refused. Only texts are. -/
def refusal? (m : Machine) : Effect → Option String
  | .write text => m.sink.refusal m.sink.accepted text
  | _ => none

/-- None of some effects is refused. -/
def Takes (m : Machine) : List Effect → Prop
  | [] => True
  | e :: es => m.refusal? e = none ∧ (m.after e).Takes es

/-- The last of some effects is refused, and none before it. -/
def RefusesLast (m : Machine) (es : List Effect) (reason : String) : Prop :=
  ∃ before e, es = before ++ [e] ∧ m.Takes before ∧ (m.afterAll before).refusal? e = some reason

variable {m : Machine}

theorem afterAll_append (m : Machine) (es fs : List Effect) :
    m.afterAll (es ++ fs) = (m.afterAll es).afterAll fs :=
  List.foldl_append

theorem after_of_refusal {e : Effect} {reason : String} (h : m.refusal? e = some reason) :
    m.after e = m := by
  cases e with
  | write text =>
    have hwrite : m.sink.write text = .error reason := by
      unfold Sink.write
      rw [show m.sink.refusal m.sink.accepted text = some reason from h]
    simp only [after, hwrite]
  | enclose | bind => cases h

theorem takes_append {es fs : List Effect} :
    m.Takes (es ++ fs) ↔ m.Takes es ∧ (m.afterAll es).Takes fs := by
  induction es generalizing m with
  | nil => exact ⟨fun h => ⟨trivial, h⟩, fun h => h.2⟩
  | cons e es ih =>
    refine ⟨fun h => ?_, fun h => ⟨h.1.1, ih.2 ⟨h.1.2, h.2⟩⟩⟩
    obtain ⟨hes, hfs⟩ := ih.1 h.2
    exact ⟨⟨h.1, hes⟩, hfs⟩

theorem Takes.refusesLast_append {es fs : List Effect} {reason : String} (h : m.Takes es)
    (h' : (m.afterAll es).RefusesLast fs reason) : m.RefusesLast (es ++ fs) reason := by
  obtain ⟨before, e, rfl, htakes, hrefusal⟩ := h'
  refine ⟨es ++ before, e, (List.append_assoc ..).symm, takes_append.2 ⟨h, htakes⟩, ?_⟩
  rwa [afterAll_append]

theorem RefusesLast.not_takes {es : List Effect} {reason : String} (h : m.RefusesLast es reason) :
    ¬ m.Takes es := by
  obtain ⟨before, e, rfl, -, hrefusal⟩ := h
  intro htakes
  cases hrefusal.symm.trans (takes_append.1 htakes).2.1

theorem RefusesLast.single {e : Effect} {reason : String} (h : m.refusal? e = some reason) :
    m.RefusesLast [e] reason :=
  ⟨[], e, rfl, trivial, h⟩

/-- Texts that are sent one after another, up to the first that is refused. -/
def sent (m : Machine) : List String → List Effect
  | [] => []
  | text :: texts =>
    .write text ::
      match m.refusal? (.write text) with
      | none => (m.after (.write text)).sent texts
      | some _ => []

end Machine

/-! ## Builtins -/

theorem EvalM.run_write_eq (text : String) (m : Machine) :
    (write text).run m =
      (match m.refusal? (.write text) with
        | none => .ok ()
        | some reason => .error (.output reason), m.after (.write text)) := by
  rw [run_write]
  simp only [Machine.after, Machine.refusal?, Sink.write]
  cases m.sink.refusal m.sink.accepted text <;> rfl

theorem EvalM.writeAll_takes_or_refuses (texts : List String) (m : Machine) :
    (m.Takes (m.sent texts) ∧ m.sent texts = texts.map .write ∧
        (writeAll texts).run m = (.ok (), m.afterAll (m.sent texts))) ∨
      ∃ reason, m.RefusesLast (m.sent texts) reason ∧
        (writeAll texts).run m = (.error (.output reason), m.afterAll (m.sent texts)) := by
  induction texts generalizing m with
  | nil => exact .inl ⟨trivial, rfl, rfl⟩
  | cons text texts ih =>
    have hwrite := run_write_eq text m
    cases hrefusal : m.refusal? (.write text) with
    | some reason =>
      rw [hrefusal] at hwrite
      have hsent : m.sent (text :: texts) = [.write text] := by rw [Machine.sent, hrefusal]
      rw [hsent]
      exact .inr ⟨reason, .single hrefusal, run_bind_of_error hwrite⟩
    | none =>
      rw [hrefusal] at hwrite
      have hsent : m.sent (text :: texts) =
          .write text :: (m.after (.write text)).sent texts := by rw [Machine.sent, hrefusal]
      rw [hsent]
      obtain ⟨htakes, hall, hrun⟩ | ⟨reason, hlast, hrun⟩ := ih (m.after (.write text))
      · refine .inl ⟨⟨hrefusal, htakes⟩, ?_, (run_bind_of_ok hwrite).trans hrun⟩
        rw [hall, List.map_cons]
      · refine .inr ⟨reason, ?_, (run_bind_of_ok hwrite).trans hrun⟩
        have hfirst : m.Takes [.write text] := ⟨hrefusal, trivial⟩
        exact hfirst.refusesLast_append hlast

/-- A builtin sends its texts, or those up to the first that is refused. -/
theorem Builtin.run_takes_or_refuses (b : Builtin) (as : List Value) (m : Machine) :
    (m.Takes (m.sent (b.writes as)) ∧ m.sent (b.writes as) = (b.writes as).map .write ∧
        (b.run as).run m = (.ok .null, m.afterAll (m.sent (b.writes as)))) ∨
      ∃ reason, m.RefusesLast (m.sent (b.writes as)) reason ∧
        (b.run as).run m = (.error (.output reason), m.afterAll (m.sent (b.writes as))) := by
  rw [b.run_eq as]
  obtain ⟨htakes, hall, hrun⟩ | ⟨reason, hlast, hrun⟩ :=
    EvalM.writeAll_takes_or_refuses (b.writes as) m
  · exact .inl ⟨htakes, hall, run_bind_of_ok hrun⟩
  · exact .inr ⟨reason, hlast, run_bind_of_error hrun⟩

/-! ## Steps -/

/-- What is done to the machine at once for a task, while `left` more calls may be entered. -/
def Task.effects (left : Nat) (m : Machine) : Task → List Effect
  | .bind scope x v => [.bind scope x v]
  | .call (.closure c) as =>
    if as.length = c.params.length ∧ left ≠ 0 then
      .enclose c.scope :: (c.params.zip as).map fun (x, v) => .bind m.store.next x v
    else []
  | .call (.builtin b) as => m.sent (b.writes as)
  | _ => []

/-- The machine that a plan goes on with, if not with that of its task. -/
def Plan.machine (m : Machine) : Plan → Machine
  | .done _ m' => m'
  | .goOn _ => m
  | .part _ _ => m
  | .enter _ _ m' => m'

theorem Machine.afterAll_bind (m : Machine) (scope : Scope) (xs : List (String × Value)) :
    m.afterAll (xs.map fun (x, v) => .bind scope x v) =
      { m with store := m.store.bindAll scope xs } := by
  induction xs generalizing m with
  | nil => rfl
  | cons a xs ih => exact ih { m with store := m.store.bind scope a.1 a.2 }

theorem Machine.takes_bind (m : Machine) (scope : Scope) (xs : List (String × Value)) :
    m.Takes (xs.map fun (x, v) => .bind scope x v) := by
  induction xs generalizing m with
  | nil => trivial
  | cons a xs ih => exact ⟨rfl, ih _⟩

theorem Task.effects_closure (left : Nat) (m : Machine) (c : Closure) (as : List Value)
    (h : ¬ (as.length = c.params.length ∧ left ≠ 0)) :
    (Task.call (.closure c) as).effects left m = [] :=
  if_neg h

/-- A plan does to the machine what the effects of its task do. If one is refused, that is what the
task comes to. -/
theorem Task.plan_effects (limit left : Nat) (m : Machine) (t : Task) :
    (t.plan limit left m).machine m = m.afterAll (t.effects left m) ∧
      (m.Takes (t.effects left m) ∨
        ∃ reason, m.RefusesLast (t.effects left m) reason ∧
          ∃ m', t.plan limit left m = .done (.error (.output reason)) m') := by
  cases t with
  | expr scope e site => cases e <;> exact ⟨rfl, .inl trivial⟩
  | sign | operator | give | right => exact ⟨rfl, .inl trivial⟩
  | branch scope v yes no site =>
    refine ⟨?_, .inl trivial⟩
    change (ite _ _ _ : Plan).machine m = m
    split
    · rfl
    · cases no <;> rfl
  | args scope callee done es site => cases es <;> exact ⟨rfl, .inl trivial⟩
  | call v as =>
    cases v with
    | closure c =>
      by_cases hlen : as.length = c.params.length
      · cases left with
        | zero =>
          rw [effects_closure _ _ _ _ fun h => h.2 rfl, plan, if_neg (not_not_intro hlen)]
          exact ⟨rfl, .inl trivial⟩
        | succ left =>
          rw [effects, if_pos ⟨hlen, Nat.succ_ne_zero left⟩, plan, if_neg (not_not_intro hlen)]
          refine ⟨?_, .inl ⟨rfl, Machine.takes_bind ..⟩⟩
          exact (Machine.afterAll_bind (m.after (.enclose c.scope)) m.store.next _).symm
      · have hplan : (Task.call (.closure c) as).plan limit left m =
            .done (.error (.wrongArity c.params.length as.length)) m := if_pos hlen
        rw [effects_closure _ _ _ _ fun h => hlen h.1, hplan]
        exact ⟨rfl, .inl trivial⟩
    | builtin b =>
      obtain ⟨htakes, -, hrun⟩ | ⟨reason, hlast, hrun⟩ := b.run_takes_or_refuses as m
      · exact ⟨congrArg Prod.snd hrun, .inl htakes⟩
      · have hplan : (Task.call (.builtin b) as).plan limit left m =
            .done ((b.run as).run m).1 ((b.run as).run m).2 := rfl
        rw [hplan, hrun]
        exact ⟨rfl, .inr ⟨reason, hlast, _, rfl⟩⟩
    | int | bool | str | null | returned | error => exact ⟨rfl, .inl trivial⟩
  | stmt scope s site => cases s <;> exact ⟨rfl, .inl trivial⟩
  | bind scope x v => exact ⟨rfl, .inl ⟨rfl, trivial⟩⟩
  | block scope last ss site => cases ss <;> exact ⟨rfl, .inl trivial⟩
  | rest scope v ss site =>
    refine ⟨?_, .inl trivial⟩
    change (ite _ _ _ : Plan).machine m = m
    split <;> rfl

namespace Moment

/-- What the next step does. -/
def effects (limit : Nat) (c : Moment) : List Effect :=
  match c.focus with
  | .task t => t.effects (limit - c.depth) c.machine
  | _ => []

/-- What a run does on its way from one moment to another. -/
inductive Does (limit : Nat) : Moment → List Effect → Moment → Prop
  | refl (c : Moment) : Does limit c [] c
  | step {c d e : Moment} {es : List Effect} :
      c.step limit = some d → Does limit d es e → Does limit c (c.effects limit ++ es) e

variable {limit : Nat} {c d : Moment}

theorem machine_follow (c : Moment) (plan : Plan) :
    (c.follow plan).machine = plan.machine c.machine := by
  cases plan <;> rfl

/-- A step does its effects to the machine and nothing else. If one is refused, that is the
outcome. -/
theorem step_effects (h : c.step limit = some d) :
    d.machine = c.machine.afterAll (c.effects limit) ∧
      (c.machine.Takes (c.effects limit) ∨
        ∃ reason, c.machine.RefusesLast (c.effects limit) reason ∧
          d.focus = .outcome (.error (.output reason))) := by
  obtain ⟨depth, focus, waiting, m⟩ := c
  cases focus with
  | task t =>
    obtain hstep | ⟨scope, x, site, rfl⟩ := t.step_eq_or_name limit
    · cases h.symm.trans (hstep depth waiting m)
      obtain ⟨hmachine, hend⟩ := t.plan_effects limit (limit - depth) m
      refine ⟨(machine_follow ..).trans hmachine, hend.imp_right ?_⟩
      rintro ⟨reason, hlast, m', hplan⟩
      exact ⟨reason, hlast, by rw [hplan]; rfl⟩
    · cases h
      exact ⟨rfl, .inl trivial⟩
  | find x scopes =>
    refine ⟨?_, .inl trivial⟩
    cases scopes with
    | nil =>
      cases h
      rfl
    | cons scope scopes =>
      simp only [step] at h
      cases hv : m.store.get? scope x <;> rw [hv] at h <;> cases h <;> rfl
  | outcome o =>
    refine ⟨?_, .inl trivial⟩
    cases waiting with
    | nil => cases o <;> cases h
    | cons w waiting => cases w <;> cases o <;> cases h <;> rfl

/-- A fault is handed on, and nothing is done any more. -/
theorem step_error {f : Fault} (hfocus : c.focus = .outcome (.error f))
    (h : c.step limit = some d) : d.focus = .outcome (.error f) ∧ c.effects limit = [] := by
  obtain ⟨depth, focus, waiting, m⟩ := c
  cases hfocus
  cases waiting with
  | nil => cases h
  | cons w waiting =>
    cases w <;> cases h <;> exact ⟨rfl, rfl⟩

theorem effects_of_last (h : c.step limit = none) : c.effects limit = [] := by
  obtain ⟨depth, focus, waiting, m⟩ := c
  cases focus with
  | task t =>
    obtain hstep | ⟨scope, x, site, rfl⟩ := t.step_eq_or_name limit
    · cases h.symm.trans (hstep depth waiting m)
    · cases h
  | find | outcome => rfl

namespace Does
variable {es fs : List Effect} {e : Moment}

/-- The machine is as the effects make it. -/
theorem machine_eq (h : c.Does limit es d) : d.machine = c.machine.afterAll es := by
  induction h with
  | refl => rfl
  | step hstep _ ih => rw [ih, (step_effects hstep).1, Machine.afterAll_append]

theorem of_error {f : Fault} (h : c.Does limit es d) (hfocus : c.focus = .outcome (.error f)) :
    es = [] ∧ d.focus = .outcome (.error f) := by
  induction h with
  | refl => exact ⟨rfl, hfocus⟩
  | step hstep _ ih =>
    obtain ⟨hnext, hnone⟩ := step_error hfocus hstep
    obtain ⟨rfl, hend⟩ := ih hnext
    exact ⟨by rw [hnone, List.append_nil], hend⟩

/-- Until the end of a run its next step is done. -/
theorem effects_prefix (h : c.Does limit es d) (hlast : d.step limit = none) :
    c.effects limit <+: es := by
  cases h with
  | refl =>
    have hnone := effects_of_last hlast
    exact hnone ▸ List.nil_prefix
  | step => exact List.prefix_append _ _

/-- There is one last moment, and one list of effects on the way there. -/
theorem eq_of_last (h : c.Does limit es d) (hlast : d.step limit = none)
    (h' : c.Does limit fs e) (hlast' : e.step limit = none) : es = fs ∧ d = e := by
  induction h generalizing fs with
  | refl =>
    cases h' with
    | refl => exact ⟨rfl, rfl⟩
    | step hstep _ => cases hlast.symm.trans hstep
  | step hstep _ ih =>
    cases h' with
    | refl => cases hlast'.symm.trans hstep
    | step hstep' hrest =>
      cases hstep.symm.trans hstep'
      obtain ⟨rfl, rfl⟩ := ih hlast hrest
      exact ⟨rfl, rfl⟩

end Does

theorem Reaches.exists_does (h : c.Reaches limit d) : ∃ es, c.Does limit es d := by
  induction h using Relation.ReflTransGen.head_induction_on with
  | refl => exact ⟨[], .refl _⟩
  | head hstep _ ih =>
    obtain ⟨es, hes⟩ := ih
    exact ⟨_, .step hstep hes⟩

end Moment
end LetFn
