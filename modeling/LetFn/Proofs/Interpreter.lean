import LetFn.Interpreter
import LetFn.Proofs.Eval.Sites
import LetFn.Proofs.Session

/-!
# Interpreters can be reused

Every call sets the counter of an interpreter back, whatever its body came to. So an interpreter is
as good as new after every program, after one that failed many calls deep too.

* `Interpreter.Carries`: a run on an interpreter comes to what one of the evaluator comes to on its
  machine; `Interpreter.Carries.bind` takes a sequence of runs apart.
* `Interpreter.expr_carries`, `Interpreter.call_carries`: trees and calls, against the evaluator
  with as many calls left as the counter is below the limit.
* `Interpreter.run_eval_new`, `Interpreter.exists_run_evalAll_new`: one program on a new
  interpreter, and some one after another.
* `Interpreter.KeepsDepth`: a run comes to an end, with as many calls active as before.
* `Interpreter.reusable`: the counter is kept, and one interpreter does for all programs.
-/

namespace LetFn

namespace Interpreter

/-! ## What an interpreter comes to -/

/-- With a limit and some calls active, `y` comes to what `x` comes to on the machine, and changes
nothing but that. -/
def Carries {α : Type} (limit depth : Nat) (x : EvalM α) (y : InterpreterM α) : Prop :=
  ∀ m : Machine, y.run ⟨limit, depth, m⟩ = some ((x.run m).1, ⟨limit, depth, (x.run m).2⟩)

section
variable {α β : Type} {limit depth : Nat}

/-- The second part runs if the first one ends and does not fail. -/
theorem run_bind_eq (y : InterpreterM α) (l : α → InterpreterM β) (i : Interpreter) :
    (y >>= l).run i = (y.run i).bind fun r => ExceptT.bindCont l r.1 r.2 := rfl

namespace Carries

theorem pure (a : α) : Carries limit depth (Pure.pure a) (Pure.pure a) := fun _ => rfl

theorem fault (f : Fault) : Carries limit depth (throw f : EvalM α) (throw f) := fun _ => rfl

theorem ofExcept (r : Except Fault α) :
    Carries limit depth (liftExcept r) (liftExcept r) := by
  cases r with
  | ok a => exact .pure a
  | error f => exact .fault f

theorem onMachine (x : EvalM α) : Carries limit depth x (onMachine x) := fun _ => rfl

theorem bind {x : EvalM α} {y : InterpreterM α} {k : α → EvalM β} {l : α → InterpreterM β}
    (hx : Carries limit depth x y) (hk : ∀ a, Carries limit depth (k a) (l a)) :
    Carries limit depth (x >>= k) (y >>= l) := by
  intro m
  rw [run_bind_eq, hx m, run_bind, Option.bind_some]
  rcases x.run m with ⟨f | a, m'⟩
  · rfl
  · exact hk a m'

end Carries

end

/-! ## Trees -/

section
variable {limit depth : Nat} {evalCall : Value → List Value → EvalM Value}
  {call : Value → List Value → InterpreterM Value} {scope : Scope}

mutual

theorem expr_carries (hcall : ∀ v as, Carries limit depth (evalCall v as) (call v as)) :
    ∀ (e : Expr) (site : Site),
      Carries limit depth (e.eval evalCall scope site) (expr call scope e site)
  | .name x, site => by
    refine (Carries.onMachine (EvalM.lookup scope x)).bind fun found => ?_
    cases found with
    | some v => exact .pure _
    | none => exact .ofExcept (unscoped x)
  | .int _, _ => .pure _
  | .bool _, _ => .pure _
  | .str _, _ => .pure _
  | .unary op e, site =>
    (expr_carries hcall e (site.child 0)).bind fun v => .ofExcept (Value.unary op v)
  | .binary op l r, site => by
    have hl := expr_carries hcall l (site.child 0)
    have hr := expr_carries hcall r (site.child 1)
    exact hl.bind fun v => hr.bind fun w => .ofExcept (Value.binary op v w)
  | .cond t y none, site => by
    have hy := block_carries hcall y .null (site.child 1)
    refine (expr_carries hcall t (site.child 0)).bind fun v => ?_
    split
    · exact hy
    · exact .pure _
  | .cond t y (some n), site => by
    have hy := block_carries hcall y .null (site.child 1)
    have hn := block_carries hcall n .null (site.child 2)
    refine (expr_carries hcall t (site.child 0)).bind fun v => ?_
    split
    · exact hy
    · exact hn
  | .fn _ _, _ => .pure _
  | .call f as, site => by
    have hf := expr_carries hcall f (site.child 0)
    have has := exprs_carries hcall as (site.child 1)
    exact hf.bind fun v => has.bind fun ws => hcall v ws
termination_by structural e => e

theorem exprs_carries (hcall : ∀ v as, Carries limit depth (evalCall v as) (call v as)) :
    ∀ (es : List Expr) (site : Site),
      Carries limit depth (Expr.evalAll evalCall scope es site) (exprs call scope es site)
  | [], _ => .pure _
  | e :: es, site => by
    have he := expr_carries hcall e (site.child 0)
    have hes := exprs_carries hcall es (site.child 1)
    exact he.bind fun v => hes.bind fun vs => .pure _

theorem stmt_carries (hcall : ∀ v as, Carries limit depth (evalCall v as) (call v as)) :
    ∀ (s : Stmt) (site : Site),
      Carries limit depth (s.eval evalCall scope site) (stmt call scope s site)
  | .bind x e, site => by
    refine (expr_carries hcall e (site.child 0)).bind fun v => ?_
    exact (Carries.onMachine (EvalM.bind scope x v)).bind fun _ => .pure _
  | .ret e, site => (expr_carries hcall e (site.child 0)).bind fun v => .pure _
  | .expr e, site => expr_carries hcall e (site.child 0)

theorem block_carries (hcall : ∀ v as, Carries limit depth (evalCall v as) (call v as)) :
    ∀ (ss : List Stmt) (last : Value) (site : Site),
      Carries limit depth (Block.eval evalCall scope last ss site) (block call scope last ss site)
  | [], _, _ => .pure _
  | s :: ss, _, site => by
    refine (stmt_carries hcall s (site.child 0)).bind fun v => ?_
    split
    · exact .pure _
    · exact block_carries hcall ss v (site.child 1)

end

end

/-! ## Calls -/

section
variable {limit depth left nested : Nat}

/-- The counter is up while the body runs, and back down whatever that came to. -/
theorem enter_carries {evalCall : Value → List Value → EvalM Value}
    {call : Value → List Value → InterpreterM Value}
    (hcall : ∀ v as, Carries limit (depth + 1) (evalCall v as) (call v as)) (scope : Scope)
    (c : Closure) :
    Carries limit depth
      (do let v ← Block.eval evalCall scope .null c.body (c.site.child 0)
          return v.unwrap)
      (enter call scope c) := by
  intro m
  have henter : (enter call scope c).run ⟨limit, depth, m⟩ =
      ((block call scope .null c.body (c.site.child 0)).run ⟨limit, depth + 1, m⟩).bind fun r =>
        some (r.1.map Value.unwrap, { r.2 with depth := r.2.depth - 1 }) := rfl
  have hbody : Carries limit (depth + 1)
      (Block.eval evalCall scope .null c.body (c.site.child 0))
      (block call scope .null c.body (c.site.child 0)) :=
    block_carries hcall c.body .null (c.site.child 0)
  rw [henter, hbody, run_unwrap]
  rfl

theorem call_of_length_ne (c : Closure) {as : List Value} (h : as.length ≠ c.params.length) :
    call nested (.closure c) as = throw (.wrongArity c.params.length as.length) := by
  cases nested <;> exact if_pos h

/-- A counter that has reached the limit refuses a call, however deep calls are followed. -/
theorem run_call_of_le (c : Closure) {as : List Value} (hlen : as.length = c.params.length)
    {i : Interpreter} (h : i.limit ≤ i.depth) :
    (call nested (.closure c) as).run i = some (.error (.tooManyCalls i.limit), i) := by
  cases nested with
  | zero | succ =>
    rw [call, if_neg (not_not_intro hlen), run_bind_eq]
    show (if i.limit ≤ i.depth then _ else _ : InterpreterM Value).run i = _
    rw [if_pos h]
    rfl

theorem run_call_of_lt (c : Closure) {as : List Value} (hlen : as.length = c.params.length)
    {i : Interpreter} (h : i.depth < i.limit) :
    (call (nested + 1) (.closure c) as).run i =
      (do
        let scope ← onMachine (EvalM.enclose c.scope)
        onMachine (EvalM.bindAll scope (c.params.zip as))
        enter (call nested) scope c : InterpreterM Value).run i := by
  rw [call, if_neg (not_not_intro hlen), run_bind_eq]
  show (if i.limit ≤ i.depth then _ else _ : InterpreterM Value).run i = _
  rw [if_neg (Nat.not_le_of_lt h)]

/-- Only the call of a function with as many arguments as parameters asks the counter. -/
theorem call_carries_of_closure {v : Value} {as : List Value}
    (h : ∀ c : Closure, as.length = c.params.length →
      Carries limit depth (apply limit left (.closure c) as) (call nested (.closure c) as)) :
    Carries limit depth (apply limit left v as) (call nested v as) := by
  cases v with
  | closure c =>
    by_cases hlen : as.length = c.params.length
    · exact h c hlen
    · rw [apply_of_length_ne _ _ _ hlen, call_of_length_ne c hlen]
      exact .fault _
  | builtin b => cases left <;> cases nested <;> exact .onMachine (b.run as)
  | int | bool | str | null | returned | error =>
    cases left <;> cases nested <;> exact .fault _

/-- A call that is followed as deep as the counter is below the limit does what the evaluator does
with as many calls left. -/
theorem call_carries (hleft : limit - depth = left) (hnested : left ≤ nested) (v : Value)
    (as : List Value) : Carries limit depth (apply limit left v as) (call nested v as) := by
  induction left generalizing depth nested v as with
  | zero =>
    refine call_carries_of_closure fun c hlen m => ?_
    rw [run_call_of_le c hlen (Nat.sub_eq_zero_iff_le.1 hleft), apply,
      if_neg (not_not_intro hlen)]
    rfl
  | succ left ih =>
    -- the body runs with the counter one up, so with one call less left
    refine call_carries_of_closure fun c hlen m => ?_
    obtain ⟨nested, rfl⟩ := Nat.exists_eq_succ_of_ne_zero (Nat.ne_zero_of_lt hnested)
    have hbody : ∀ v as, Carries limit (depth + 1) (apply limit left v as) (call nested v as) :=
      ih (by omega) (Nat.le_of_succ_le_succ hnested)
    have hlt : depth < limit := by omega
    rw [run_call_of_lt c hlen hlt, apply, if_neg (not_not_intro hlen)]
    refine ((Carries.onMachine _).bind fun scope => (Carries.onMachine _).bind fun _ => ?_) m
    exact enter_carries hbody scope c

end

/-! ## Programs -/

/-- A program at any height of the counter. -/
theorem program_carries {limit depth : Nat} (scope : Scope) (t : Tree) :
    Carries limit depth
      (do let v ← Block.eval (apply limit (limit - depth)) scope .null t.program.statements
            ⟨t.number, []⟩
          return v.unwrap)
      (program scope t) := by
  have hcall : ∀ v as,
      Carries limit depth (apply limit (limit - depth) v as) (call limit v as) :=
    call_carries rfl (Nat.sub_le _ _)
  intro m
  exact ((block_carries hcall t.program.statements .null _).bind fun v => .pure v.unwrap) m

theorem run_eval_of_some {scope : Scope} {t : Tree} {i i' : Interpreter} {o : Except Fault Value}
    (h : (program scope t).run i = some (o, i')) :
    (eval scope t).run i = some (Value.ofOutcome o, i') := by
  show ((program scope t).run i).bind _ = _
  rw [h]
  cases o <;> rfl

/-- A new interpreter comes to the value that a session gives, and is as new again. -/
theorem run_eval_new (s : Session) (config : Config) (scope : Scope) (t : Tree) :
    (eval scope t).run (new config s.machine) =
      some ((s.valueIn config scope t).1, new config (s.valueIn config scope t).2.machine) := by
  have hprogram : Carries config.maxCallDepth 0
      (t.program.eval config.maxCallDepth t.number scope) (program scope t) :=
    program_carries scope t
  rw [new, run_eval_of_some (hprogram s.machine), Session.valueIn]
  rcases (t.program.eval config.maxCallDepth t.number scope).run s.machine with ⟨f | v, m⟩
  · rfl
  · rfl

theorem run_evalAnew (s : Session) (config : Config) (scope : Scope) (t : Tree) :
    (evalAnew config scope t).run s.machine =
      some ((s.valueIn config scope t).1, (s.valueIn config scope t).2.machine) := by
  have hanew : (evalAnew config scope t).run s.machine =
      ((eval scope t).run (new config s.machine)).bind fun r => some (r.1, r.2.machine) := rfl
  rw [hanew, run_eval_new]
  rfl

theorem run_mapM_cons {σ α β : Type} {f : α → StateT σ Option β} {a : α} {as : List α} {b : β}
    {bs : List β} {s s' s'' : σ} (h : (f a).run s = some (b, s'))
    (hs : (as.mapM f).run s' = some (bs, s'')) :
    ((a :: as).mapM f).run s = some (b :: bs, s'') := by
  have hcons : ((a :: as).mapM f).run s = ((f a).run s).bind fun r =>
      ((as.mapM f).run r.2).bind fun rs => some (r.1 :: rs.1, rs.2) := by
    rw [List.mapM_cons]
    rfl
  rw [hcons, h, Option.bind_some, hs, Option.bind_some]

/-- One interpreter for all programs gives the values that one for each gives, and leaves the same
machine. It is as new after them. -/
theorem exists_run_evalAll_new (config : Config) (jobs : List (Scope × Tree)) (s : Session) :
    ∃ vs m, (evalAll jobs).run (new config s.machine) = some (vs, new config m) ∧
      (evalEach config jobs).run s.machine = some (vs, m) := by
  induction jobs generalizing s with
  | nil => exact ⟨[], s.machine, rfl, rfl⟩
  | cons job jobs ih =>
    obtain ⟨scope, t⟩ := job
    obtain ⟨vs, m, hall, heach⟩ := ih (s.valueIn config scope t).2
    exact ⟨_, m, run_mapM_cons (run_eval_new s config scope t) hall,
      run_mapM_cons (run_evalAnew s config scope t) heach⟩

/-! ## Reuse -/

/-- Followed as deep as the limit lets calls nest, or deeper, `y` comes to an end, always the same,
and then as many calls are active as before. It is what `x` comes to on the machine, with as many
calls left as the counter is below the limit. -/
def KeepsDepth {α : Type} (x : (limit left : Nat) → EvalM α) (y : (nested : Nat) → InterpreterM α) :
    Prop :=
  ∀ i : Interpreter, ∃ o i',
    (∀ more, (y (i.limit + more)).run i = some (o, i')) ∧ i'.depth = i.depth ∧
      (x i.limit (i.limit - i.depth)).run i.machine = (o, i'.machine)

/-- What is carried out at every height of the counter leaves the counter there. -/
theorem keepsDepth_of_carries {α : Type} {x : Nat → Nat → EvalM α} {y : Nat → InterpreterM α}
    (h : ∀ limit depth more, Carries limit depth (x limit (limit - depth)) (y (limit + more))) :
    KeepsDepth x y := by
  rintro ⟨limit, depth, m⟩
  exact ⟨_, _, fun more => h limit depth more m, rfl, rfl⟩

/-- Every evaluation comes to an end, in a value, in a `return` on its way or in a fault, and in all
cases as many calls are active after it as before. So programs that are run in scopes one after
another, failing ones too, have the same values, output and scopes whether one interpreter runs
them all or a new one runs each; and a new one gives what a session gives. -/
theorem reusable :
    (∀ (scope : Scope) (last : Value) (ss : Block) (site : Site),
        KeepsDepth (fun limit left => Block.eval (apply limit left) scope last ss site)
          fun nested => block (call nested) scope last ss site) ∧
      (∀ (scope : Scope) (s : Stmt) (site : Site),
        KeepsDepth (fun limit left => s.eval (apply limit left) scope site)
          fun nested => stmt (call nested) scope s site) ∧
      (∀ (scope : Scope) (e : Expr) (site : Site),
        KeepsDepth (fun limit left => e.eval (apply limit left) scope site)
          fun nested => expr (call nested) scope e site) ∧
      (∀ (scope : Scope) (es : List Expr) (site : Site),
        KeepsDepth (fun limit left => Expr.evalAll (apply limit left) scope es site)
          fun nested => exprs (call nested) scope es site) ∧
      (∀ (v : Value) (as : List Value),
        KeepsDepth (fun limit left => apply limit left v as) fun nested => call nested v as) ∧
      (∀ (config : Config) (jobs : List (Scope × Tree)) (m : Machine), ∃ vs m',
        (evalAll jobs).run (new config m) = some (vs, new config m') ∧
          (evalEach config jobs).run m = some (vs, m')) ∧
      ∀ (s : Session) (config : Config) (scope : Scope) (t : Tree),
        (evalAnew config scope t).run s.machine =
          some ((s.valueIn config scope t).1, (s.valueIn config scope t).2.machine) := by
  have hcall : ∀ limit depth more v as,
      Carries limit depth (apply limit (limit - depth) v as) (call (limit + more) v as) :=
    fun limit depth more => call_carries rfl (by omega)
  refine ⟨fun scope last ss site => ?_, fun scope s site => ?_, fun scope e site => ?_,
    fun scope es site => ?_, fun v as => ?_, fun config jobs m => ?_, run_evalAnew⟩
  · exact keepsDepth_of_carries fun limit depth more =>
      block_carries (hcall limit depth more) ss last site
  · exact keepsDepth_of_carries fun limit depth more =>
      stmt_carries (hcall limit depth more) s site
  · exact keepsDepth_of_carries fun limit depth more =>
      expr_carries (hcall limit depth more) e site
  · exact keepsDepth_of_carries fun limit depth more =>
      exprs_carries (hcall limit depth more) es site
  · exact keepsDepth_of_carries fun limit depth more => hcall limit depth more v as
  · exact exists_run_evalAll_new config jobs ⟨m, ⟨0⟩, config, 0⟩

/-- Only one call may be active: `let f = fn() { f() }; f()` fails inside the first one, and
`fn() { 7 }()` has room for its own after that. -/
example :
    ((evalAll [
        (⟨0⟩, ⟨0, ⟨[.bind "f" (.fn [] [.expr (.call (.name "f") [])]),
          .expr (.call (.name "f") [])]⟩⟩),
        (⟨0⟩, ⟨1, ⟨[.expr (.call (.fn [] [.expr (.int 7)]) [])]⟩⟩)]).run
      (new ⟨1⟩ ⟨Store.empty.fresh.2, .endless⟩)).map Prod.fst =
      some [.error (.tooManyCalls 1), .int 7] := by
  rfl

end Interpreter

end LetFn
