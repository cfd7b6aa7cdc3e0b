import LetFn.Operator
import LetFn.Sink
import LetFn.Store

/-!
# Evaluation

Programs run on a machine of bound names and written output. An error ends the run and leaves the
machine as it was reached; a `return` travels up as a `returned` value, which ends each block on
its way and is unwrapped by the function or program around it.

* `Expr.eval`, `Stmt.eval`, `Block.eval`: evaluation in a scope, given what a call does.
* `apply`: what a call does while `left` more calls may be active. The evaluator recurs on trees,
  calls on `left`, so every run ends.
* `Program.eval`: a whole program, with no call active yet.

Evaluation keeps track of the site in the tree that is evaluated, which is what closures keep of
it.
-/

namespace LetFn

/-! ## Machines -/

/-- What a run can change. -/
structure Machine where
  store : Store
  sink : Sink

/-- Runs end in a value or a fault, and in a machine either way. -/
abbrev EvalM := ExceptT Fault (StateM Machine)

namespace EvalM

def lookup (scope : Scope) (x : String) : EvalM (Option Value) :=
  return (← get).store.lookup scope x

def bind (scope : Scope) (x : String) (v : Value) : EvalM Unit :=
  modify fun m => { m with store := m.store.bind scope x v }

def bindAll (scope : Scope) : List (String × Value) → EvalM Unit
  | [] => return
  | (x, v) :: rest => do
    bind scope x v
    bindAll scope rest

/-- A new scope inside another. -/
def enclose (outer : Scope) : EvalM Scope :=
  modifyGet fun m =>
    let (scope, store) := m.store.enclose outer
    (scope, { m with store })

def write (text : String) : EvalM Unit := do
  match (← get).sink.write text with
  | .ok sink => modify fun m => { m with sink }
  | .error reason => throw (.output reason)

end EvalM

/-! ## Trees -/

/-- The value of a name that no scope binds, or the fault. -/
def unscoped (x : String) : Except Fault Value :=
  match Builtin.ofName? x with
  | some b => .ok (.builtin b)
  | none => .error (.unbound x)

section

variable (call : Value → List Value → EvalM Value) (scope : Scope)

mutual

def Expr.eval : Expr → Site → EvalM Value
  | .name x, _ => do
    match ← EvalM.lookup scope x with
    | some v => return v
    | none => liftExcept (unscoped x)
  | .int n, _ => return .int n
  | .bool b, _ => return .bool b
  | .str s, _ => return .str s
  | .unary op e, site => do
    let v ← e.eval (site.child 0)
    liftExcept (Value.unary op v)
  | .binary op l r, site => do
    let v ← l.eval (site.child 0)
    let w ← r.eval (site.child 1)
    liftExcept (Value.binary op v w)
  | .cond t y no, site => do
    let v ← t.eval (site.child 0)
    if v.truthy then Block.eval .null y (site.child 1)
    else
      match no with
      | none => return .null
      | some n => Block.eval .null n (site.child 2)
  | .fn params body, site => return .closure ⟨⟨params, body, site⟩, scope⟩
  | .call f args, site => do
    let v ← f.eval (site.child 0)
    let ws ← Expr.evalAll args (site.child 1)
    call v ws

/-- Values from left to right. -/
def Expr.evalAll : List Expr → Site → EvalM (List Value)
  | [], _ => return []
  | e :: es, site => do
    let v ← e.eval (site.child 0)
    let vs ← Expr.evalAll es (site.child 1)
    return v :: vs

def Stmt.eval : Stmt → Site → EvalM Value
  | .bind x e, site => do
    let v ← e.eval (site.child 0)
    EvalM.bind scope x v
    return .null
  | .ret e, site => do
    let v ← e.eval (site.child 0)
    return .returned v
  | .expr e, site => e.eval (site.child 0)

/-- The last value, or the first that a `return` gave; `last` is that of the statements before. -/
def Block.eval (last : Value) : List Stmt → Site → EvalM Value
  | [], _ => return last
  | s :: ss, site => do
    let v ← s.eval (site.child 0)
    if v.isReturned then return v else Block.eval v ss (site.child 1)

end

end

/-! ## Calls and programs -/

/-- The outcome of a builtin. A line of output is its text, unless empty, and then a line feed. -/
def Builtin.run : Builtin → List Value → EvalM Value
  | .puts, args => do
    let line := " ".intercalate (args.map Value.text)
    if !line.isEmpty then EvalM.write line
    EvalM.write "\n"
    return .null

/-- The outcome of a call while at most `left` of the `limit` calls may still be entered. The
parameters are counted first; the body runs in a scope of its own inside the closure's. -/
def apply (limit : Nat) : (left : Nat) → Value → List Value → EvalM Value
  | left, .closure c, args => do
    if args.length ≠ c.params.length then throw (.wrongArity c.params.length args.length)
    match left with
    | 0 => throw (.tooManyCalls limit)
    | left + 1 =>
      let scope ← EvalM.enclose c.scope
      EvalM.bindAll scope (c.params.zip args)
      let v ← Block.eval (apply limit left) scope .null c.body (c.site.child 0)
      return v.unwrap
  | _, .builtin b, args => b.run args
  | _, v, _ => throw (.notCallable v.type)

/-- The outcome of a whole program, the tree of number `tree`, with at most `limit` calls active at
a time. -/
def Program.eval (limit tree : Nat) (scope : Scope) (p : Program) : EvalM Value := do
  let v ← Block.eval (apply limit limit) scope .null p.statements ⟨tree, []⟩
  return v.unwrap

end LetFn
