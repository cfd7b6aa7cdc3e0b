import LetFn.Proofs.Eval.Task

/-!
# Evaluation step by step

A run of the evaluator on a stack: what is done now, and what waits for its value. Calls are counted
up when they are entered and down when they are left, and the bodies that are run come from the
closures of the store, so nothing in a step itself says that there is a last one.

* `Moment`: a run between two steps; `Moment.step` is the next one, if there is one.
* `Moment.Reaches`: what a moment comes to in some steps.
* `Point.reaches`: a task comes to its outcome, with as many calls active and as much waiting as
  before.
* `Program.eval_ends`: so every program comes to an end.
-/

namespace LetFn

/-! ## Moments and steps -/

/-- What waits for a value: what is left of a task, or the call of a function whose body runs. -/
inductive Waiting
  | next (k : Value → Task)
  | call

/-- What is done now: a task, the search for a name in the scopes that are left, or the end of
either. -/
inductive Focus
  | task (t : Task)
  | find (x : String) (scopes : List Scope)
  | outcome (o : Except Fault Value)

/-- A run between two steps: the number of calls active, what is done now and what waits for it, the
innermost first. -/
structure Moment where
  depth : Nat
  focus : Focus
  waiting : List Waiting
  machine : Machine

namespace Moment

/-- The moment after a plan was made for a task. -/
def follow (c : Moment) : Plan → Moment
  | .done o m => { c with focus := .outcome o, machine := m }
  | .goOn t => { c with focus := .task t }
  | .part t k => { c with focus := .task t, waiting := .next k :: c.waiting }
  | .enter _ t m => ⟨c.depth + 1, .task t, .call :: c.waiting, m⟩

/-- The next moment. A fault is handed on by everything that waits. -/
def step (limit : Nat) (c : Moment) : Option Moment :=
  match c.focus, c.waiting with
  | .task (.expr scope (.name x) _), _ =>
    some { c with focus := .find x (c.machine.store.chain scope) }
  | .task t, _ => some (c.follow (t.plan limit (limit - c.depth) c.machine))
  | .find x [], _ => some { c with focus := .outcome (unscoped x) }
  | .find x (scope :: scopes), _ =>
    match c.machine.store.get? scope x with
    | some v => some { c with focus := .outcome (.ok v) }
    | none => some { c with focus := .find x scopes }
  | .outcome (.ok v), .next k :: waiting => some { c with focus := .task (k v), waiting }
  | .outcome (.error f), .next _ :: waiting =>
    some { c with focus := .outcome (.error f), waiting }
  | .outcome o, .call :: waiting =>
    some { c with depth := c.depth - 1, focus := .outcome (o.map Value.unwrap), waiting }
  | .outcome _, [] => none

/-- A call is left with what leaves the body of its function. -/
theorem step_leave (limit depth : Nat) (o : Except Fault Value) (waiting : List Waiting)
    (m : Machine) : step limit ⟨depth + 1, .outcome o, .call :: waiting, m⟩ =
      some ⟨depth, .outcome (o.map Value.unwrap), waiting, m⟩ := by
  cases o <;> rfl

/-- What a moment comes to in some steps. -/
def Reaches (limit : Nat) : Moment → Moment → Prop :=
  Relation.ReflTransGen fun c d => c.step limit = some d

/-- From a moment that reaches a last one, steps cannot go on for ever. -/
theorem Reaches.not_forever {limit : Nat} {c d : Moment} (h : c.Reaches limit d)
    (hlast : d.step limit = none) :
    ¬ ∃ f : Nat → Moment, f 0 = c ∧ ∀ n, (f n).step limit = some (f (n + 1)) := by
  induction h using Relation.ReflTransGen.head_induction_on with
  | refl =>
    rintro ⟨f, rfl, hf⟩
    cases hlast.symm.trans (hf 0)
  | head hstep _ ih =>
    rintro ⟨f, rfl, hf⟩
    refine ih ⟨fun n => f (n + 1), ?_, fun n => hf (n + 1)⟩
    exact Option.some.inj ((hf 0).symm.trans hstep)

end Moment

/-! ## Tasks come to their outcomes -/

/-- A name is searched for, any other task follows its plan. -/
theorem Task.step_eq_or_name (limit : Nat) (t : Task) :
    (∀ depth waiting m, Moment.step limit ⟨depth, .task t, waiting, m⟩ =
        some (Moment.follow ⟨depth, .task t, waiting, m⟩ (t.plan limit (limit - depth) m))) ∨
      ∃ scope x site, t = .expr scope (.name x) site := by
  cases t with
  | expr scope e site =>
    cases e with
    | name x => exact .inr ⟨scope, x, site, rfl⟩
    | _ => exact .inl fun _ _ _ => rfl
  | _ => exact .inl fun _ _ _ => rfl

/-- The search for a name comes to what the scopes say about it. -/
theorem Moment.reaches_find (limit depth : Nat) (waiting : List Waiting) (m : Machine) (x : String)
    (scopes : List Scope) :
    Reaches limit ⟨depth, .find x scopes, waiting, m⟩
      ⟨depth, .outcome (match scopes.findSome? (m.store.get? · x) with
        | some v => .ok v
        | none => unscoped x), waiting, m⟩ := by
  induction scopes with
  | nil => exact .single rfl
  | cons scope scopes ih =>
    rw [List.findSome?_cons]
    cases h : m.store.get? scope x with
    | some v => exact .single (by simp only [step, h])
    | none => exact .head (by simp only [step, h]) ih

namespace Point

/-- A task comes to its outcome, whatever waits for that, and the calls that it enters are left. -/
theorem reaches {limit : Nat} (p : Point) (depth : Nat) (hdepth : limit - depth = p.left)
    (waiting : List Waiting) :
    Moment.Reaches limit ⟨depth, .task p.task, waiting, p.machine⟩
      ⟨depth, .outcome (p.run limit).1, waiting, (p.run limit).2⟩ := by
  induction p using Point.induction limit generalizing depth waiting with
  | h p ih =>
    obtain hstep | ⟨scope, x, site, hname⟩ := p.task.step_eq_or_name limit
    · have hfirst := hstep depth waiting p.machine
      rw [hdepth] at hfirst
      change _ = some (Moment.follow _ (p.plan limit)) at hfirst
      cases h : p.plan limit with
      | done o m =>
        rw [h] at hfirst
        rw [run_of_done h]
        exact .single hfirst
      | goOn t =>
        rw [h] at hfirst
        rw [run_of_goOn h]
        exact .head hfirst (ih _ (.goOn h) depth hdepth waiting)
      | part t k =>
        rw [h] at hfirst
        have hpart := ih _ (.part h) depth hdepth (.next k :: waiting)
        rcases hr : (p.turn t p.machine).run limit with ⟨f | v, m⟩
        · rw [run_of_part_error h hr]
          rw [hr] at hpart
          exact .head hfirst (hpart.tail rfl)
        · rw [run_of_next h hr]
          rw [hr] at hpart
          exact .head hfirst (hpart.trans (.head rfl (ih _ (.next h hr) depth hdepth waiting)))
      | enter left t m =>
        rw [h] at hfirst
        obtain ⟨-, -, -, -, hleft, -⟩ := Task.exists_of_plan_enter h
        have hbody : limit - (depth + 1) = left := by omega
        rw [run_of_enter h]
        exact .head hfirst ((ih _ (.enter h) (depth + 1) hbody (.call :: waiting)).tail
          (Moment.step_leave ..))
    · obtain ⟨left, t, m⟩ := p
      cases hname
      rw [run_of_done rfl]
      exact .head rfl (Moment.reaches_find limit depth waiting m x _)

end Point

/-- A program before its first step. -/
def Program.moment (tree : Nat) (scope : Scope) (p : Program) (m : Machine) : Moment :=
  ⟨0, .task (.block scope .null p.statements ⟨tree, []⟩), [], m⟩

/-- Whatever the program, the scopes and the functions bound in them, the limit of calls and the
sink: the steps of a run come to a last one, where no call is active and nothing waits, and the
value or the fault there is what the program comes to. There is no run without end. -/
theorem Program.eval_ends (limit tree : Nat) (scope : Scope) (p : Program) (m : Machine) :
    (∃ o m', (p.moment tree scope m).Reaches limit ⟨0, .outcome o, [], m'⟩ ∧
        Moment.step limit ⟨0, .outcome o, [], m'⟩ = none ∧
        (p.eval limit tree scope).run m = (o.map Value.unwrap, m')) ∧
      ¬ ∃ f : Nat → Moment, f 0 = p.moment tree scope m ∧
        ∀ n, (f n).step limit = some (f (n + 1)) := by
  have hreaches := (p.point limit tree scope m).reaches 0 rfl []
  have hlast : ∀ o m', Moment.step limit ⟨0, .outcome o, [], m'⟩ = none := fun o m' => by
    cases o <;> rfl
  exact ⟨⟨_, _, hreaches, hlast _ _, p.run_eval limit tree scope m⟩,
    hreaches.not_forever (hlast _ _)⟩

end LetFn
