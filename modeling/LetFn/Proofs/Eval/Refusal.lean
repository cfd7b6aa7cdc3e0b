import LetFn.Proofs.Eval.Effects
import LetFn.Proofs.Eval.Output

/-!
# Sinks that refuse

A sink that refuses a text cuts the run off right there: before that the run is the one with a sink
that takes everything, and after it nothing more is done.

* `Sink.unlimited`: a sink that refuses nothing from now on, and `Machine.unlimited`,
  `Moment.unlimited` with such a sink.
* `Machine.afterAll_unlimited`, `Task.plan_unlimited`, `Moment.step_unlimited`: what is taken makes
  no difference.
* `Program.Does`: all that the run of a program does.
* `Program.eval_refused`: the run with a sink does what the one with an unlimited sink does, up to
  the first refusal.
-/

namespace LetFn

/-! ## Sinks that take everything -/

def Sink.unlimited (s : Sink) : Sink := ⟨s.accepted, fun _ _ => none⟩

namespace Machine
variable {m : Machine}

def unlimited (m : Machine) : Machine := { m with sink := m.sink.unlimited }

theorem refusal?_unlimited (m : Machine) (e : Effect) : m.unlimited.refusal? e = none := by
  cases e <;> rfl

theorem after_unlimited {e : Effect} (h : m.refusal? e = none) :
    m.unlimited.after e = (m.after e).unlimited := by
  cases e with
  | write text =>
    have hwrite : m.sink.write text = .ok { m.sink with accepted := text :: m.sink.accepted } := by
      unfold Sink.write
      rw [show m.sink.refusal m.sink.accepted text = none from h]
    simp only [after, hwrite]
    rfl
  | enclose | bind => rfl

theorem takes_unlimited (m : Machine) (es : List Effect) : m.unlimited.Takes es := by
  induction es generalizing m with
  | nil => trivial
  | cons e es ih =>
    have hafter : m.unlimited.after e = (m.unlimited.after e).unlimited :=
      after_unlimited (m.refusal?_unlimited e)
    refine ⟨m.refusal?_unlimited e, ?_⟩
    rw [hafter]
    exact ih _

theorem afterAll_unlimited {es : List Effect} (h : m.Takes es) :
    m.unlimited.afterAll es = (m.afterAll es).unlimited := by
  induction es generalizing m with
  | nil => rfl
  | cons e es ih =>
    change (m.unlimited.after e).afterAll es = _
    rw [after_unlimited h.1]
    exact ih h.2

theorem sent_unlimited (m : Machine) (texts : List String) :
    m.unlimited.sent texts = texts.map .write := by
  induction texts generalizing m with
  | nil => rfl
  | cons text texts ih =>
    have hnext : m.unlimited.after (.write text) =
        unlimited { m with sink.accepted := text :: m.sink.accepted } := rfl
    rw [sent, refusal?_unlimited, hnext, ih, List.map_cons]

theorem sent_prefix (m : Machine) (texts : List String) : m.sent texts <+: texts.map .write := by
  induction texts generalizing m with
  | nil => exact List.prefix_refl _
  | cons text texts ih =>
    rw [sent, List.map_cons, List.prefix_cons_inj]
    split
    · exact ih _
    · exact List.nil_prefix

end Machine

/-! ## Plans and steps -/

/-- A builtin whose texts are all taken does the same with an unlimited sink. -/
theorem Builtin.run_unlimited {b : Builtin} {as : List Value} {m : Machine}
    (h : m.Takes (m.sent (b.writes as))) :
    (b.run as).run m.unlimited = (((b.run as).run m).1, ((b.run as).run m).2.unlimited) := by
  obtain ⟨-, hall, hrun⟩ | ⟨reason, hlast, -⟩ := b.run_takes_or_refuses as m
  · obtain ⟨-, hall', hrun'⟩ | ⟨reason, hlast, -⟩ := b.run_takes_or_refuses as m.unlimited
    · rw [hrun, hrun', hall', ← hall, Machine.afterAll_unlimited h]
    · exact (hlast.not_takes (m.takes_unlimited _)).elim
  · exact (hlast.not_takes h).elim

/-- A plan that goes on with a machine that takes everything. -/
def Plan.unlimited : Plan → Plan
  | .done o m => .done o m.unlimited
  | .goOn t => .goOn t
  | .part t k => .part t k
  | .enter left t m => .enter left t m.unlimited

namespace Task
variable {left : Nat} {m : Machine} {t : Task}

theorem plan_unlimited (limit : Nat) (h : m.Takes (t.effects left m)) :
    t.plan limit left m.unlimited = (t.plan limit left m).unlimited := by
  cases t with
  | expr scope e site => cases e <;> rfl
  | sign | operator | bind | give | right => rfl
  | branch scope v yes no site =>
    change (ite _ _ _ : Plan) = (ite _ _ _ : Plan).unlimited
    split
    · rfl
    · cases no <;> rfl
  | args scope callee done es site => cases es <;> rfl
  | call v as =>
    cases v with
    | closure c =>
      change (ite _ _ _ : Plan) = (ite _ _ _ : Plan).unlimited
      split
      · rfl
      · cases left <;> rfl
    | builtin b =>
      have hplan : ∀ m, (call (.builtin b) as).plan limit left m =
          .done ((b.run as).run m).1 ((b.run as).run m).2 := fun _ => rfl
      rw [hplan, hplan, Builtin.run_unlimited h]
      rfl
    | int | bool | str | null | returned | error => rfl
  | stmt scope s site => cases s <;> rfl
  | block scope last ss site => cases ss <;> rfl
  | rest scope v ss site =>
    change (ite _ _ _ : Plan) = (ite _ _ _ : Plan).unlimited
    split <;> rfl

/-- With an unlimited sink at least as much is done, and the same if nothing is refused. -/
theorem effects_unlimited (left : Nat) (m : Machine) (t : Task) :
    t.effects left m <+: t.effects left m.unlimited ∧
      (m.Takes (t.effects left m) → t.effects left m.unlimited = t.effects left m) := by
  cases t with
  | call v as =>
    cases v with
    | builtin b =>
      simp only [effects, Machine.sent_unlimited]
      refine ⟨m.sent_prefix _, fun htakes => ?_⟩
      obtain ⟨-, hall, -⟩ | ⟨reason, hlast, -⟩ := b.run_takes_or_refuses as m
      · exact hall.symm
      · exact (hlast.not_takes htakes).elim
    | _ => exact ⟨List.prefix_rfl, fun _ => rfl⟩
  | _ => exact ⟨List.prefix_rfl, fun _ => rfl⟩

end Task

namespace Moment
variable {limit : Nat} {c last last' : Moment}

def unlimited (c : Moment) : Moment := { c with machine := c.machine.unlimited }

theorem effects_unlimited (limit : Nat) (c : Moment) :
    c.effects limit <+: c.unlimited.effects limit ∧
      (c.machine.Takes (c.effects limit) → c.unlimited.effects limit = c.effects limit) := by
  obtain ⟨depth, focus, waiting, m⟩ := c
  cases focus with
  | task t => exact t.effects_unlimited (limit - depth) m
  | find | outcome => exact ⟨List.prefix_rfl, fun _ => rfl⟩

/-- What is taken makes no difference for the next step. -/
theorem step_unlimited (h : c.machine.Takes (c.effects limit)) :
    c.unlimited.step limit = (c.step limit).map unlimited := by
  obtain ⟨depth, focus, waiting, m⟩ := c
  cases focus with
  | task t =>
    obtain hstep | ⟨scope, x, site, rfl⟩ := t.step_eq_or_name limit
    · refine (hstep depth waiting m.unlimited).trans ?_
      rw [hstep, Task.plan_unlimited limit h]
      cases t.plan limit (limit - depth) m <;> rfl
    · rfl
  | find x scopes =>
    cases scopes with
    | nil => rfl
    | cons scope scopes =>
      have hget : m.unlimited.store.get? scope x = m.store.get? scope x := rfl
      simp only [step, unlimited, hget]
      cases m.store.get? scope x <;> rfl
  | outcome o =>
    cases waiting with
    | nil => cases o <;> rfl
    | cons w waiting => cases w <;> cases o <;> rfl

/-- A run does what the run with an unlimited sink does, up to the first refusal. With that it ends,
and without any it is the same run. -/
theorem Does.takes_or_refuses {done all : List Effect} (h : c.Does limit done last)
    (hlast : last.step limit = none) (h' : c.unlimited.Does limit all last')
    (hlast' : last'.step limit = none) :
    (c.machine.Takes done ∧ all = done ∧ last' = last.unlimited) ∨
      ∃ reason, c.machine.RefusesLast done reason ∧ done <+: all ∧
        last.focus = .outcome (.error (.output reason)) := by
  induction h generalizing all with
  | refl c =>
    have htakes : c.machine.Takes (c.effects limit) := by
      rw [effects_of_last hlast]
      trivial
    have hstep : c.unlimited.step limit = none := by
      rw [step_unlimited htakes, hlast]
      rfl
    obtain ⟨rfl, rfl⟩ := (Does.refl _).eq_of_last hstep h' hlast'
    exact .inl ⟨trivial, rfl, rfl⟩
  | @step c d last es hstep hrest ih =>
    obtain ⟨hmachine, htakes | ⟨reason, hrefuses, hfocus⟩⟩ := step_effects hstep
    · have hstep' : c.unlimited.step limit = some d.unlimited := by
        rw [step_unlimited htakes, hstep]
        rfl
      cases h' with
      | refl => cases hlast'.symm.trans hstep'
      | step hstep'' hrest' =>
        cases hstep'.symm.trans hstep''
        rw [(c.effects_unlimited limit).2 htakes]
        obtain ⟨hall, rfl, rfl⟩ | ⟨reason, hrefuses, hprefix, hend⟩ := ih hlast hrest'
        · rw [hmachine] at hall
          exact .inl ⟨Machine.takes_append.2 ⟨htakes, hall⟩, rfl, rfl⟩
        · rw [hmachine] at hrefuses
          refine .inr ⟨reason, htakes.refusesLast_append hrefuses, ?_, hend⟩
          exact (List.prefix_append_right_inj _).2 hprefix
    · -- From here on the fault is handed on, so the run does nothing more.
      obtain ⟨rfl, hend⟩ := hrest.of_error hfocus
      rw [List.append_nil]
      refine .inr ⟨reason, hrefuses, ?_, hend⟩
      exact (c.effects_unlimited limit).1.trans (h'.effects_prefix hlast')

end Moment

/-! ## Text -/

namespace Machine

theorem after_extends (m : Machine) (e : Effect) : m.sink.Extends (m.after e).sink := by
  cases e with
  | write text =>
    unfold after
    dsimp only
    split
    · next h => exact .write h
    · exact .refl _
  | enclose | bind => exact .refl _

theorem afterAll_extends (m : Machine) (es : List Effect) :
    m.sink.Extends (m.afterAll es).sink := by
  induction es generalizing m with
  | nil => exact .refl _
  | cons e es ih => exact (m.after_extends e).trans (ih (m.after e))

/-- What is taken first comes first in the text of an unlimited sink. -/
theorem exists_textAfter {m : Machine} {taken all : List Effect} (h : m.Takes taken)
    (hall : taken <+: all) :
    ∃ text, (m.unlimited.afterAll all).sink.textAfter m.sink.accepted.length =
      (m.afterAll taken).sink.textAfter m.sink.accepted.length ++ text := by
  obtain ⟨rest, rfl⟩ := hall
  rw [afterAll_append, afterAll_unlimited h]
  have htaken := m.unlimited.afterAll_extends taken
  rw [afterAll_unlimited h] at htaken
  exact htaken.exists_textAfter (afterAll_extends _ rest)

end Machine

/-! ## Programs -/

/-- All that the run of a program does to its machine. -/
def Program.Does (limit tree : Nat) (scope : Scope) (p : Program) (m : Machine)
    (es : List Effect) : Prop :=
  ∃ last, (p.moment tree scope m).Does limit es last ∧ last.step limit = none

/-- Whatever the program, the scopes, the limit of calls and the sink: the text that the sink took
is how the text of the same run with an unlimited sink begins. If nothing was refused, both runs do
the same and have the same outcome. If a text was refused, it is the last thing that the run did,
all of which the unlimited run did too, and the refusal is what the run comes to. -/
theorem Program.eval_refused (limit tree : Nat) (scope : Scope) (p : Program) (m : Machine) :
    ∃ done all : List Effect,
      p.Does limit tree scope m done ∧ p.Does limit tree scope m.unlimited all ∧
      ((p.eval limit tree scope).run m).2 = m.afterAll done ∧
      ((p.eval limit tree scope).run m.unlimited).2 = m.unlimited.afterAll all ∧
      (∃ text, ((p.eval limit tree scope).run m.unlimited).2.sink.textAfter
          m.sink.accepted.length =
        ((p.eval limit tree scope).run m).2.sink.textAfter m.sink.accepted.length ++ text) ∧
      ((m.Takes done ∧ all = done ∧
          (p.eval limit tree scope).run m.unlimited =
            (((p.eval limit tree scope).run m).1, ((p.eval limit tree scope).run m).2.unlimited)) ∨
        ∃ reason, m.RefusesLast done reason ∧ done <+: all ∧
          ((p.eval limit tree scope).run m).1 = .error (.output reason)) := by
  obtain ⟨o, m₁, hreaches, hlast, hrun⟩ := (p.eval_ends limit tree scope m).1
  obtain ⟨o', m₂, hreaches', hlast', hrun'⟩ := (p.eval_ends limit tree scope m.unlimited).1
  obtain ⟨done, hdone⟩ := hreaches.exists_does
  obtain ⟨all, hall⟩ := hreaches'.exists_does
  have hm₁ : m₁ = m.afterAll done := hdone.machine_eq
  have hm₂ : m₂ = m.unlimited.afterAll all := hall.machine_eq
  rw [hrun, hrun']
  refine ⟨done, all, ⟨_, hdone, hlast⟩, ⟨_, hall, hlast'⟩, hm₁, hm₂, ?_⟩
  subst hm₁ hm₂
  obtain ⟨htakes, rfl, hend⟩ | ⟨reason, hrefuses, hprefix, hfocus⟩ :=
    hdone.takes_or_refuses hlast hall hlast'
  · obtain ⟨-, hfocus, -, hmachine⟩ := Moment.mk.inj hend
    refine ⟨Machine.exists_textAfter htakes List.prefix_rfl, .inl ⟨htakes, rfl, ?_⟩⟩
    rw [Focus.outcome.inj hfocus]
    exact congrArg (_, ·) hmachine
  · refine ⟨?_, .inr ⟨reason, hrefuses, hprefix, ?_⟩⟩
    · obtain ⟨before, e, rfl, htakes, hrefusal⟩ := hrefuses
      have hbefore : m.afterAll (before ++ [e]) = m.afterAll before := by
        rw [Machine.afterAll_append]
        exact Machine.after_of_refusal hrefusal
      rw [hbefore]
      exact Machine.exists_textAfter htakes ((List.prefix_append _ _).trans hprefix)
    · cases hfocus
      rfl

/-- A call of a builtin, and a binding behind it. -/
def putThenLet : Program :=
  ⟨[.expr (.call (.name "puts") [.int 7]), .bind "x" (.int 1)]⟩

/-- A sink with room for one text takes the number and refuses its line feed, so nothing is
bound. -/
example :
    let sink : Sink := ⟨[], fun accepted _ => if accepted.isEmpty then none else some "full"⟩
    let r := (putThenLet.eval 9 0 ⟨0⟩).run ⟨Store.empty.fresh.2, sink⟩
    r.1 = .error (.output "full") ∧ r.2.sink.accepted = ["7"] ∧ r.2.store = Store.empty.fresh.2 :=
  ⟨rfl, rfl, rfl⟩

end LetFn
