import LetFn.Proofs.Eval.Run
import Mathlib.Data.Prod.Lex
import Mathlib.Logic.Relation

/-!
# Evaluation as tasks

A run of the evaluator taken apart into what it does next, so that statements about everything that
happens in a run can be made, and proved by looking at one task at a time.

* `Task`: what there is to evaluate, or what is left of it once some values are known.
* `Point`: a task, the machine it starts in and the number of calls that may still be entered;
  `Point.run` is what the evaluator comes to there.
* `Point.plan`: how the outcome of a point comes from those of others; `Point.run_eq` says that it
  does. `Task.machine_of_plan_done` and `Task.exists_of_plan_enter` say what plans do to the machine.
* `Point.Starts`, `Point.Visits`: the points that a point leads to, at once and in the end. By
  `Point.lt_of_starts` each is smaller than the one before, which gives `Point.induction`.
-/

namespace LetFn

/-! ## Tasks -/

/-- What there is to evaluate, or what is left of it once some values are known. -/
inductive Task
  | expr (scope : Scope) (e : Expr) (site : Site)
  | sign (op : UnaryOp) (v : Value)
  | right (scope : Scope) (op : BinaryOp) (v : Value) (r : Expr) (site : Site)
  | operator (op : BinaryOp) (v w : Value)
  | branch (scope : Scope) (v : Value) (yes : Block) (no : Option Block) (site : Site)
  | args (scope : Scope) (callee : Value) (done : List Value) (es : List Expr) (site : Site)
  | call (callee : Value) (args : List Value)
  | stmt (scope : Scope) (s : Stmt) (site : Site)
  | bind (scope : Scope) (x : String) (v : Value)
  | give (v : Value)
  | block (scope : Scope) (last : Value) (ss : Block) (site : Site)
  | rest (scope : Scope) (v : Value) (ss : Block) (site : Site)

/-- What the evaluator does for a task. The site of a branch is that of its condition, that of
arguments the one of their list. -/
def Task.eval (call : Value → List Value → EvalM Value) : Task → EvalM Value
  | .expr scope e site => e.eval call scope site
  | .sign op v => liftExcept (Value.unary op v)
  | .right scope op v r site => do
    let w ← r.eval call scope site
    liftExcept (Value.binary op v w)
  | .operator op v w => liftExcept (Value.binary op v w)
  | .branch scope v yes no site =>
    if v.truthy then Block.eval call scope .null yes (site.child 1)
    else
      match no with
      | none => return .null
      | some n => Block.eval call scope .null n (site.child 2)
  | .args scope callee done es site => do
    let ws ← Expr.evalAll call scope es site
    call callee (done ++ ws)
  | .call callee as => call callee as
  | .stmt scope s site => s.eval call scope site
  | .bind scope x v => do
    EvalM.bind scope x v
    return .null
  | .give v => return .returned v
  | .block scope last ss site => Block.eval call scope last ss site
  | .rest scope v ss site => if v.isReturned then return v else Block.eval call scope v ss site

/-- What is evaluated of a task, for its size. -/
noncomputable def Task.weight : Task → Nat
  | .expr _ e _ => 2 * sizeOf e
  | .right _ _ _ r _ => 2 * sizeOf r + 1
  | .branch _ _ yes no _ => 2 * (sizeOf yes + sizeOf no) + 1
  | .args _ _ _ es _ => 2 * sizeOf es + 1
  | .stmt _ s _ => 2 * sizeOf s
  | .block _ _ ss _ => 2 * sizeOf ss
  | .rest _ _ ss _ => 2 * sizeOf ss + 1
  | .sign .. | .operator .. | .call .. | .bind .. | .give .. => 0

/-- An expression stands where its value is used: every other task hands on a value that it was
given, or that a block came to. -/
def Task.isExpr : Task → Bool
  | .expr .. => true
  | _ => false

/-! ## Points and plans -/

/-- Somewhere in a run: the calls that may still be entered, what is to be done, and on what. -/
structure Point where
  left : Nat
  task : Task
  machine : Machine

/-- How the outcome of a point comes about. -/
inductive Plan
  /-- It is reached. -/
  | done (o : Except Fault Value) (m : Machine)
  /-- It is that of another task. -/
  | goOn (t : Task)
  /-- The value of one task decides what is left. -/
  | part (t : Task) (k : Value → Task)
  /-- It is what leaves the body of a function. -/
  | enter (left : Nat) (t : Task) (m : Machine)

/-- The plan for a task. -/
def Task.plan (limit left : Nat) (m : Machine) : Task → Plan
  | .expr scope (.name x) _ =>
    .done (match m.store.lookup scope x with | some v => .ok v | none => unscoped x) m
  | .expr _ (.int n) _ => .done (.ok (.int n)) m
  | .expr _ (.bool b) _ => .done (.ok (.bool b)) m
  | .expr _ (.str s) _ => .done (.ok (.str s)) m
  | .expr scope (.unary op e) site => .part (.expr scope e (site.child 0)) (.sign op)
  | .expr scope (.binary op l r) site =>
    .part (.expr scope l (site.child 0)) fun v => .right scope op v r (site.child 1)
  | .expr scope (.cond t y no) site =>
    .part (.expr scope t (site.child 0)) fun v => .branch scope v y no site
  | .expr scope (.fn params body) site => .done (.ok (.closure ⟨⟨params, body, site⟩, scope⟩)) m
  | .expr scope (.call f as) site =>
    .part (.expr scope f (site.child 0)) fun v => .args scope v [] as (site.child 1)
  | .sign op v => .done (Value.unary op v) m
  | .right scope op v r site => .part (.expr scope r site) (.operator op v)
  | .operator op v w => .done (Value.binary op v w) m
  | .branch scope v yes no site =>
    if v.truthy then .goOn (.block scope .null yes (site.child 1))
    else
      match no with
      | none => .done (.ok .null) m
      | some n => .goOn (.block scope .null n (site.child 2))
  | .args _ callee done [] _ => .goOn (.call callee done)
  | .args scope callee done (e :: es) site =>
    .part (.expr scope e (site.child 0)) fun v => .args scope callee (done ++ [v]) es (site.child 1)
  | .call (.closure c) as =>
    if as.length ≠ c.params.length then .done (.error (.wrongArity c.params.length as.length)) m
    else
      match left with
      | 0 => .done (.error (.tooManyCalls limit)) m
      | left + 1 =>
        let (scope, store) := m.store.enclose c.scope
        .enter left (.block scope .null c.body (c.site.child 0))
          { m with store := store.bindAll scope (c.params.zip as) }
  | .call (.builtin b) as => .done ((b.run as).run m).1 ((b.run as).run m).2
  | .call v _ => .done (.error (.notCallable v.type)) m
  | .stmt scope (.bind x e) site => .part (.expr scope e (site.child 0)) (.bind scope x)
  | .stmt scope (.ret e) site => .part (.expr scope e (site.child 0)) .give
  | .stmt scope (.expr e) site => .goOn (.expr scope e (site.child 0))
  | .bind scope x v => .done (.ok .null) { m with store := m.store.bind scope x v }
  | .give v => .done (.ok (.returned v)) m
  | .block _ last [] _ => .done (.ok last) m
  | .block scope _ (s :: ss) site =>
    .part (.stmt scope s (site.child 0)) fun v => .rest scope v ss (site.child 1)
  | .rest scope v ss site =>
    if v.isReturned then .done (.ok v) m else .goOn (.block scope v ss site)

namespace Point

/-- The same place with another task, on the machine as it is then. -/
def turn (p : Point) (t : Task) (m : Machine) : Point := ⟨p.left, t, m⟩

/-- What the evaluator comes to. -/
def run (limit : Nat) (p : Point) : Except Fault Value × Machine :=
  (p.task.eval (apply limit p.left)).run p.machine

def plan (limit : Nat) (p : Point) : Plan := p.task.plan limit p.left p.machine

/-- The points that a point leads to at once. -/
inductive Starts (limit : Nat) (p : Point) : Point → Prop
  | goOn {t : Task} : p.plan limit = .goOn t → Starts limit p (p.turn t p.machine)
  | part {t : Task} {k : Value → Task} :
      p.plan limit = .part t k → Starts limit p (p.turn t p.machine)
  | next {t : Task} {k : Value → Task} {v : Value} {m : Machine} :
      p.plan limit = .part t k → (p.turn t p.machine).run limit = (.ok v, m) →
      Starts limit p (p.turn (k v) m)
  | enter {left : Nat} {t : Task} {m : Machine} :
      p.plan limit = .enter left t m → Starts limit p ⟨left, t, m⟩

/-- All points that a point leads to. -/
def Visits (limit : Nat) : Point → Point → Prop := Relation.ReflTransGen (Starts limit)

end Point

/-- What a plan comes to, given what points come to. -/
def Plan.follow (run : Point → Except Fault Value × Machine) (p : Point) :
    Plan → Except Fault Value × Machine
  | .done o m => (o, m)
  | .goOn t => run (p.turn t p.machine)
  | .part t k =>
    match run (p.turn t p.machine) with
    | (.ok v, m) => run (p.turn (k v) m)
    | (.error f, m) => (.error f, m)
  | .enter left t m => ((run ⟨left, t, m⟩).1.map Value.unwrap, (run ⟨left, t, m⟩).2)

/-! ## Runs follow plans -/

namespace Point

/-- The evaluator runs one task and goes on with one for its value. -/
theorem run_part {limit : Nat} {p : Point} {t : Task} {k : Value → Task}
    (hplan : p.plan limit = .part t k)
    (heval : p.task.eval (apply limit p.left) =
      t.eval (apply limit p.left) >>= fun v => (k v).eval (apply limit p.left)) :
    p.run limit = (p.plan limit).follow (run limit) p := by
  have hrun : (p.turn t p.machine).run limit = (t.eval (apply limit p.left)).run p.machine := rfl
  rw [run, heval, run_bind, hplan, Plan.follow, hrun]
  rcases (t.eval (apply limit p.left)).run p.machine with ⟨f | v, m⟩
  · rfl
  · rfl

theorem run_closure (limit left : Nat) (m : Machine) (c : Closure) (as : List Value) :
    (apply limit left (.closure c) as).run m =
      ((Task.call (.closure c) as).plan limit left m).follow (run limit)
        ⟨left, .call (.closure c) as, m⟩ := by
  show _ = Plan.follow _ _ (if as.length ≠ c.params.length then _ else _)
  split
  · next hlen =>
    rw [apply_of_length_ne limit left c hlen]
    rfl
  · next hlen =>
    cases left with
    | zero =>
      rw [apply, if_neg hlen]
      rfl
    | succ left => exact (run_apply_succ limit left c (not_not.1 hlen) m).trans (run_unwrap _ _)

theorem eval_cond (call : Value → List Value → EvalM Value) (scope : Scope) (t : Expr) (y : Block)
    (no : Option Block) (site : Site) :
    (Task.expr scope (.cond t y no) site).eval call =
      (Task.expr scope t (site.child 0)).eval call >>= fun v =>
        (Task.branch scope v y no site).eval call := by
  cases no with
  | none => simp only [Task.eval, Expr.eval]
  | some n => simp only [Task.eval, Expr.eval]

theorem eval_args (call : Value → List Value → EvalM Value) (scope : Scope) (callee : Value)
    (done : List Value) (e : Expr) (es : List Expr) (site : Site) :
    (Task.args scope callee done (e :: es) site).eval call =
      (Task.expr scope e (site.child 0)).eval call >>= fun v =>
        (Task.args scope callee (done ++ [v]) es (site.child 1)).eval call := by
  simp only [Task.eval, Expr.evalAll, bind_assoc, pure_bind, List.append_assoc,
    List.singleton_append]

/-- What a point comes to is what its plan does. -/
theorem run_eq (limit : Nat) (p : Point) :
    p.run limit = (p.plan limit).follow (run limit) p := by
  obtain ⟨left, t, m⟩ := p
  cases t with
  | expr scope e site =>
    cases e with
    | name x =>
      refine (run_bind_of_ok (EvalM.run_lookup scope x m)).trans ?_
      show _ = (match m.store.lookup scope x with | some v => Except.ok v | none => unscoped x, m)
      cases m.store.lookup scope x with
      | some v => rfl
      | none => exact run_liftExcept (unscoped x) m
    | int | bool | str | fn => rfl
    | unary op e => exact run_part rfl rfl
    | binary op l r => exact run_part rfl rfl
    | cond t y no => exact run_part rfl (eval_cond _ scope t y no site)
    | call f as => exact run_part rfl rfl
  | sign op v => exact run_liftExcept _ m
  | right scope op v r site => exact run_part rfl rfl
  | operator op v w => exact run_liftExcept _ m
  | branch scope v yes no site =>
    show (ite (v.truthy = true) _ _ : EvalM Value).run m =
      Plan.follow _ _ (ite (v.truthy = true) _ _)
    split
    · rfl
    · cases no with
      | none => rfl
      | some n => rfl
  | args scope callee done es site =>
    cases es with
    | nil =>
      refine (run_bind_of_ok (run_pure [] m)).trans ?_
      rw [List.append_nil]
      rfl
    | cons e es => exact run_part rfl (eval_args _ scope callee done e es site)
  | call v as =>
    cases v with
    | closure c => exact run_closure limit left m c as
    | builtin b => cases left <;> rfl
    | int | bool | str | null | returned | error => cases left <;> rfl
  | stmt scope s site =>
    cases s with
    | bind x e => exact run_part rfl rfl
    | ret e => exact run_part rfl rfl
    | expr e => rfl
  | bind scope x v => rfl
  | give v => rfl
  | block scope last ss site =>
    cases ss with
    | nil => rfl
    | cons s ss => exact run_part rfl rfl
  | rest scope v ss site =>
    show (ite (v.isReturned = true) _ _ : EvalM Value).run m =
      Plan.follow _ _ (ite (v.isReturned = true) _ _)
    split
    · rfl
    · rfl

section
variable {limit : Nat} {p : Point}

theorem run_of_done {o : Except Fault Value} {m : Machine} (h : p.plan limit = .done o m) :
    p.run limit = (o, m) := by
  rw [run_eq, h]
  rfl

theorem run_of_goOn {t : Task} (h : p.plan limit = .goOn t) :
    p.run limit = (p.turn t p.machine).run limit := by
  rw [run_eq, h]
  rfl

theorem run_of_next {t : Task} {k : Value → Task} {v : Value} {m : Machine}
    (h : p.plan limit = .part t k) (hv : (p.turn t p.machine).run limit = (.ok v, m)) :
    p.run limit = (p.turn (k v) m).run limit := by
  rw [run_eq, h, Plan.follow, hv]

theorem run_of_part_error {t : Task} {k : Value → Task} {f : Fault} {m : Machine}
    (h : p.plan limit = .part t k) (hf : (p.turn t p.machine).run limit = (.error f, m)) :
    p.run limit = (.error f, m) := by
  rw [run_eq, h, Plan.follow, hf]

theorem run_of_enter {left : Nat} {t : Task} {m : Machine} (h : p.plan limit = .enter left t m) :
    p.run limit =
      ((run limit ⟨left, t, m⟩).1.map Value.unwrap, (run limit ⟨left, t, m⟩).2) := by
  rw [run_eq, h]
  rfl

end

end Point

/-! ## What plans do to the machine -/

/-- What is reached at once leaves the machine as it is, but for a name that is bound and for what a
builtin writes. -/
theorem Task.machine_of_plan_done {limit left : Nat} {t : Task} {o : Except Fault Value}
    {m m' : Machine} (h : t.plan limit left m = .done o m') :
    m' = m ∨
      (∃ scope x v, t = .bind scope x v ∧ m' = { m with store := m.store.bind scope x v }) ∨
      ∃ b as, t = .call (.builtin b) as ∧ m' = ((b.run as).run m).2 := by
  cases t with
  | expr scope e site =>
    cases e <;> cases h
    all_goals exact .inl rfl
  | sign | operator | give =>
    cases h
    exact .inl rfl
  | right => cases h
  | branch scope v yes no site =>
    change (if v.truthy then _ else _) = _ at h
    split at h
    · cases h
    · cases no <;> cases h
      exact .inl rfl
  | args scope callee done es site => cases es <;> cases h
  | call v as =>
    cases v with
    | closure c =>
      change (if as.length ≠ c.params.length then _ else _) = _ at h
      split at h
      · cases h
        exact .inl rfl
      · cases left <;> cases h
        exact .inl rfl
    | builtin b =>
      cases h
      exact .inr (.inr ⟨b, as, rfl, rfl⟩)
    | int | bool | str | null | returned | error =>
      cases h
      exact .inl rfl
  | stmt scope s site => cases s <;> cases h
  | bind scope x v =>
    cases h
    exact .inr (.inl ⟨scope, x, v, rfl, rfl⟩)
  | block scope last ss site =>
    cases ss <;> cases h
    exact .inl rfl
  | rest scope v ss site =>
    change (if v.isReturned then _ else _) = _ at h
    split at h <;> cases h
    exact .inl rfl

/-- Only the call of a function with as many arguments as parameters is entered, in a scope of its
own inside that of the function. -/
theorem Task.exists_of_plan_enter {limit left left' : Nat} {t t' : Task} {m m' : Machine}
    (h : t.plan limit left m = .enter left' t' m') :
    ∃ c as, t = .call (.closure c) as ∧ as.length = c.params.length ∧ left = left' + 1 ∧
      t' = .block m.store.next .null c.body (c.site.child 0) ∧
      m' = { m with
        store := (m.store.enclose c.scope).2.bindAll m.store.next (c.params.zip as) } := by
  cases t with
  | expr scope e site => cases e <;> cases h
  | sign | operator | bind | give | right => cases h
  | branch scope v yes no site =>
    change (if v.truthy then _ else _) = _ at h
    split at h
    · cases h
    · cases no <;> cases h
  | args scope callee done es site => cases es <;> cases h
  | call v as =>
    cases v with
    | closure c =>
      change (if as.length ≠ c.params.length then _ else _) = _ at h
      split at h
      · cases h
      · next hlen =>
        cases left with
        | zero => cases h
        | succ left =>
          cases h
          exact ⟨c, as, rfl, Decidable.not_not.1 hlen, rfl, rfl, rfl⟩
    | builtin | int | bool | str | null | returned | error => cases h
  | stmt scope s site => cases s <;> cases h
  | block scope last ss site => cases ss <;> cases h
  | rest scope v ss site =>
    change (if v.isReturned then _ else _) = _ at h
    split at h <;> cases h

/-! ## Every run ends -/

/-- What a plan leads to has fewer calls left, or is a smaller task. -/
def Plan.Shrinks (left weight : Nat) : Plan → Prop
  | .done _ _ => True
  | .goOn t => t.weight < weight
  | .part t k => t.weight < weight ∧ ∀ v, (k v).weight < weight
  | .enter left' _ _ => left' < left

theorem Task.plan_shrinks (limit left : Nat) (m : Machine) (t : Task) :
    (t.plan limit left m).Shrinks left t.weight := by
  cases t with
  | expr scope e site =>
    cases e with
    | name | int | bool | str | fn => trivial
    | unary | binary | cond | call =>
      simp only [plan, Plan.Shrinks, weight, Expr.unary.sizeOf_spec, Expr.binary.sizeOf_spec,
        Expr.cond.sizeOf_spec, Expr.call.sizeOf_spec]
      exact ⟨by omega, fun _ => by omega⟩
  | sign | operator | bind | give => trivial
  | right scope op v r site => exact ⟨Nat.lt_succ_self _, fun _ => Nat.succ_pos _⟩
  | branch scope v yes no site =>
    show Plan.Shrinks _ _ (if v.truthy then _ else _)
    split
    · show 2 * sizeOf yes < 2 * (sizeOf yes + sizeOf no) + 1
      omega
    · cases no with
      | none => trivial
      | some n =>
        show 2 * sizeOf n < 2 * (sizeOf yes + sizeOf (some n)) + 1
        rw [Option.some.sizeOf_spec]
        omega
  | args scope callee done es site =>
    cases es with
    | nil => exact Nat.succ_pos _
    | cons e es =>
      simp only [plan, Plan.Shrinks, weight, List.cons.sizeOf_spec]
      exact ⟨by omega, fun _ => by omega⟩
  | call v as =>
    cases v with
    | closure c =>
      show Plan.Shrinks _ _ (if as.length ≠ c.params.length then _ else _)
      split
      · trivial
      · cases left with
        | zero => trivial
        | succ left => exact Nat.lt_succ_self left
    | _ => trivial
  | stmt scope s site =>
    cases s with
    | bind | ret =>
      simp only [plan, Plan.Shrinks, weight, Stmt.bind.sizeOf_spec, Stmt.ret.sizeOf_spec]
      exact ⟨by omega, fun _ => by omega⟩
    | expr e =>
      simp only [plan, Plan.Shrinks, weight, Stmt.expr.sizeOf_spec]
      omega
  | block scope last ss site =>
    cases ss with
    | nil => trivial
    | cons s ss =>
      simp only [plan, Plan.Shrinks, weight, List.cons.sizeOf_spec]
      exact ⟨by omega, fun _ => by omega⟩
  | rest scope v ss site =>
    rw [plan]
    split
    · trivial
    · exact Nat.lt_succ_self _

namespace Point
variable {limit : Nat} {p q : Point}

/-- Fewer calls may be entered, or as many and less is to be done. -/
theorem lt_of_starts (h : p.Starts limit q) :
    Prod.Lex (· < ·) (· < ·) (q.left, q.task.weight) (p.left, p.task.weight) := by
  have hplan : (p.plan limit).Shrinks p.left p.task.weight := p.task.plan_shrinks _ _ _
  cases h with
  | goOn h =>
    rw [h] at hplan
    exact .right _ hplan
  | part h =>
    rw [h] at hplan
    exact .right _ hplan.1
  | next h _ =>
    rw [h] at hplan
    exact .right _ (hplan.2 _)
  | enter h =>
    rw [h] at hplan
    exact .left _ _ hplan

/-- What holds of a point if it does of all that the point leads to holds of every point. -/
theorem induction {P : Point → Prop} (limit : Nat)
    (h : ∀ p, (∀ q, p.Starts limit q → P q) → P p) (p : Point) : P p := by
  have hwf : WellFounded fun q p : Point => p.Starts limit q :=
    Subrelation.wf lt_of_starts
      (InvImage.wf (fun p : Point => (p.left, p.task.weight))
        (WellFounded.prod_lex Nat.lt_wfRel.wf Nat.lt_wfRel.wf))
  exact hwf.induction p h

end Point

/-- A program runs as its block does, without calls so far. -/
def Program.point (limit tree : Nat) (scope : Scope) (p : Program) (m : Machine) : Point :=
  ⟨limit, .block scope .null p.statements ⟨tree, []⟩, m⟩

theorem Program.run_eval (limit tree : Nat) (scope : Scope) (p : Program) (m : Machine) :
    (p.eval limit tree scope).run m =
      (((p.point limit tree scope m).run limit).1.map Value.unwrap,
        ((p.point limit tree scope m).run limit).2) :=
  run_unwrap _ m

end LetFn
