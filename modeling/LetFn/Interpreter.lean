import LetFn.Session

/-!
# Interpreters

The evaluator as an object that is kept from one program to the next. It counts the calls that are
active and refuses one more when they are as many as it allows. A program does not reset the
counter: it stands where the calls before have left it.

* `Interpreter`: a limit, the counter and a machine; `InterpreterM` are runs on one.
* `Interpreter.expr`, `Interpreter.exprs`, `Interpreter.stmt`, `Interpreter.block`: trees in a
  scope, given what a call does.
* `Interpreter.call`, `Interpreter.enter`: calls, which count up and down around the body.
* `Interpreter.eval`, `Interpreter.evalAll`: one program, and some by the same interpreter.
* `Interpreter.evalAnew`, `Interpreter.evalEach`: the same with a new interpreter for each program.
-/

namespace LetFn

/-- How many calls may be active at a time, how many are, and what a run can change besides. -/
structure Interpreter where
  limit : Nat
  depth : Nat
  machine : Machine

/-- Runs end in a value or a fault, and in an interpreter either way. A run that is not followed to
its end comes to nothing. -/
abbrev InterpreterM := ExceptT Fault (StateT Interpreter Option)

namespace Interpreter

/-- An interpreter before its first call. -/
def new (config : Config) (machine : Machine) : Interpreter := ⟨config.maxCallDepth, 0, machine⟩

/-- A run on the machine alone. -/
def onMachine {α : Type} (x : EvalM α) : InterpreterM α := fun i =>
  let (o, machine) := x.run i.machine
  some (o, { i with machine })

/-- A run of which no more is followed. -/
def unfollowed {α : Type} : InterpreterM α := fun _ => none

/-! ## Trees -/

section

variable (call : Value → List Value → InterpreterM Value) (scope : Scope)

mutual

def expr : Expr → Site → InterpreterM Value
  | .name x, _ => do
    match ← onMachine (EvalM.lookup scope x) with
    | some v => return v
    | none => liftExcept (unscoped x)
  | .int n, _ => return .int n
  | .bool b, _ => return .bool b
  | .str s, _ => return .str s
  | .unary op e, site => do
    let v ← expr e (site.child 0)
    liftExcept (Value.unary op v)
  | .binary op l r, site => do
    let v ← expr l (site.child 0)
    let w ← expr r (site.child 1)
    liftExcept (Value.binary op v w)
  | .cond t y no, site => do
    let v ← expr t (site.child 0)
    if v.truthy then block .null y (site.child 1)
    else
      match no with
      | none => return .null
      | some n => block .null n (site.child 2)
  | .fn params body, site => return .closure ⟨⟨params, body, site⟩, scope⟩
  | .call f args, site => do
    let v ← expr f (site.child 0)
    let ws ← exprs args (site.child 1)
    call v ws

/-- Values from left to right. -/
def exprs : List Expr → Site → InterpreterM (List Value)
  | [], _ => return []
  | e :: es, site => do
    let v ← expr e (site.child 0)
    let vs ← exprs es (site.child 1)
    return v :: vs

def stmt : Stmt → Site → InterpreterM Value
  | .bind x e, site => do
    let v ← expr e (site.child 0)
    onMachine (EvalM.bind scope x v)
    return .null
  | .ret e, site => do
    let v ← expr e (site.child 0)
    return .returned v
  | .expr e, site => expr e (site.child 0)

/-- The last value, or the first that a `return` gave; `last` is that of the statements before. -/
def block (last : Value) : List Stmt → Site → InterpreterM Value
  | [], _ => return last
  | s :: ss, site => do
    let v ← stmt s (site.child 0)
    if v.isReturned then return v else block v ss (site.child 1)

end

/-! ## Calls -/

/-- What leaves the body of a function. A fault is an outcome here like any other: it is handed on
after the counter went back down. -/
def enter (c : Closure) : InterpreterM Value := ExceptT.mk do
  modify fun i => { i with depth := i.depth + 1 }
  let o ← (block call scope .null c.body (c.site.child 0)).run
  modify fun i => { i with depth := i.depth - 1 }
  return o.map Value.unwrap

end

/-- The outcome of a call, followed as deep as `nested` calls inside each other. Whether a call is
refused is up to the counter; the parameters are counted before. -/
def call : (nested : Nat) → Value → List Value → InterpreterM Value
  | nested, .closure c, args => do
    if args.length ≠ c.params.length then throw (.wrongArity c.params.length args.length)
    let i ← get
    if i.limit ≤ i.depth then throw (.tooManyCalls i.limit)
    match nested with
    | 0 => unfollowed
    | nested + 1 =>
      let scope ← onMachine (EvalM.enclose c.scope)
      onMachine (EvalM.bindAll scope (c.params.zip args))
      enter (call nested) scope c
  | _, .builtin b, args => onMachine (b.run args)
  | _, v, _ => throw (.notCallable v.type)

/-! ## Programs -/

/-- The outcome of a program, with calls followed as deep as the limit lets them nest. -/
def program (scope : Scope) (t : Tree) : InterpreterM Value := do
  let i ← get
  let v ← block (call i.limit) scope .null t.program.statements ⟨t.number, []⟩
  return v.unwrap

/-- The value of a program. A fault is a value too. -/
def eval (scope : Scope) (t : Tree) : StateT Interpreter Option Value := do
  match ← (program scope t).run with
  | .ok v => return v
  | .error f => return .error f

/-- The values of programs, each in its scope, that one interpreter runs in turn. -/
def evalAll (jobs : List (Scope × Tree)) : StateT Interpreter Option (List Value) :=
  jobs.mapM fun (scope, t) => eval scope t

/-- The value of a program that a new interpreter runs, of which only the machine is kept. -/
def evalAnew (config : Config) (scope : Scope) (t : Tree) : StateT Machine Option Value :=
  fun m => do
    let (v, i) ← (eval scope t).run (new config m)
    return (v, i.machine)

/-- The values of programs, each in its scope and run by an interpreter of its own. -/
def evalEach (config : Config) (jobs : List (Scope × Tree)) : StateT Machine Option (List Value) :=
  jobs.mapM fun (scope, t) => evalAnew config scope t

end Interpreter

end LetFn
