import LetFn.Eval
import LetFn.Proofs.Store.Plain

/-!
# Structured returns

A reference for evaluation in which a `return` is no value: it leaves the function or the program
around it at once, and no value, scope or argument ever holds it.

* `Datum`: the values; none of them stands for a `return` on its way.
* `Stop`: what ends a computation before its value, a fault or a `return`.
* `Structured.expr`, `Structured.stmt`, `Structured.block`: evaluation in a scope, given what a call
  does.
* `Structured.apply`, `Structured.program`: calls and programs, which a `return` does not leave
  further.
-/

namespace LetFn

/-! ## Values -/

/-- The values of the reference. -/
inductive Datum
  | int (n : Int64)
  | bool (b : Bool)
  | str (s : String)
  | null
  | error (f : Fault)
  | closure (c : Closure)
  | builtin (b : Builtin)

namespace Datum

def toValue : Datum → Value
  | int n => .int n
  | bool b => .bool b
  | str s => .str s
  | null => .null
  | error f => .error f
  | closure c => .closure c
  | builtin b => .builtin b

/-- A value as a datum, one on its way out as what it carries. -/
def ofValue : Value → Datum
  | .int n => int n
  | .bool b => bool b
  | .str s => str s
  | .null => null
  | .returned v => ofValue v
  | .error f => error f
  | .closure c => closure c
  | .builtin b => builtin b

@[simp] theorem ofValue_toValue (d : Datum) : ofValue d.toValue = d := by cases d <;> rfl

theorem toValue_ofValue {v : Value} (h : v.isReturned = false) : (ofValue v).toValue = v := by
  cases v with
  | returned => cases h
  | _ => rfl

end Datum

/-! ## Computations -/

/-- What ends a computation before its value. -/
inductive Stop
  | fault (f : Fault)
  | leave (d : Datum)

/-- What a computation can change. -/
@[ext]
structure World where
  scopes : Scopes Datum
  sink : Sink

abbrev Structured := ExceptT Stop (StateM World)

namespace Structured

/-- A value of the evaluator, or its fault. -/
def ofExcept : Except Fault Value → Structured Datum
  | .ok v => return .ofValue v
  | .error f => throw (.fault f)

def lookup (scope : Scope) (x : String) : Structured (Option Datum) :=
  return (← get).scopes.lookup scope x

def bind (scope : Scope) (x : String) (d : Datum) : Structured Unit :=
  modify fun w => { w with scopes := w.scopes.bind scope x d }

def bindAll (scope : Scope) : List (String × Datum) → Structured Unit
  | [] => return
  | (x, d) :: rest => do
    bind scope x d
    bindAll scope rest

def enclose (outer : Scope) : Structured Scope :=
  modifyGet fun w =>
    let (scope, scopes) := w.scopes.enclose outer
    (scope, { w with scopes })

def write (text : String) : Structured Unit := do
  match (← get).sink.write text with
  | .ok sink => modify fun w => { w with sink }
  | .error reason => throw (.fault (.output reason))

/-- The outcome of what a `return` does not leave further. -/
def settle : Except Stop Datum → Except Fault Datum
  | .ok d => .ok d
  | .error (.leave d) => .ok d
  | .error (.fault f) => .error f

/-! ## Trees -/

section

variable (call : Datum → List Datum → Structured Datum) (scope : Scope)

mutual

def expr : Expr → Site → Structured Datum
  | .name x, _ => do
    match ← lookup scope x with
    | some d => return d
    | none => ofExcept (unscoped x)
  | .int n, _ => return .int n
  | .bool b, _ => return .bool b
  | .str s, _ => return .str s
  | .unary op e, site => do
    let d ← expr e (site.child 0)
    ofExcept (Value.unary op d.toValue)
  | .binary op l r, site => do
    let d ← expr l (site.child 0)
    let e ← expr r (site.child 1)
    ofExcept (Value.binary op d.toValue e.toValue)
  | .cond t y no, site => do
    let d ← expr t (site.child 0)
    if d.toValue.truthy then block .null y (site.child 1)
    else
      match no with
      | none => return .null
      | some n => block .null n (site.child 2)
  | .fn params body, site => return .closure ⟨⟨params, body, site⟩, scope⟩
  | .call f args, site => do
    let d ← expr f (site.child 0)
    let ds ← exprs args (site.child 1)
    call d ds

def exprs : List Expr → Site → Structured (List Datum)
  | [], _ => return []
  | e :: es, site => do
    let d ← expr e (site.child 0)
    let ds ← exprs es (site.child 1)
    return d :: ds

def stmt : Stmt → Site → Structured Datum
  | .bind x e, site => do
    let d ← expr e (site.child 0)
    bind scope x d
    return .null
  | .ret e, site => do
    let d ← expr e (site.child 0)
    throw (.leave d)
  | .expr e, site => expr e (site.child 0)

/-- The value of the last statement; `last` is that of the ones before. -/
def block (last : Datum) : List Stmt → Site → Structured Datum
  | [], _ => return last
  | s :: ss, site => do
    let d ← stmt s (site.child 0)
    block d ss (site.child 1)

end

end

/-! ## Calls and programs -/

def builtin : Builtin → List Datum → Structured Datum
  | .puts, args => do
    let line := " ".intercalate (args.map fun d => d.toValue.text)
    if !line.isEmpty then write line
    write "\n"
    return .null

/-- The outcome of a call while at most `left` of the `limit` calls may still be entered. -/
def apply (limit : Nat) : (left : Nat) → Datum → List Datum → Structured Datum
  | left, .closure c, args => do
    if args.length ≠ c.params.length then
      throw (.fault (.wrongArity c.params.length args.length))
    match left with
    | 0 => throw (.fault (.tooManyCalls limit))
    | left + 1 =>
      let scope ← enclose c.scope
      bindAll scope (c.params.zip args)
      fun w =>
        let (o, w) := (block (apply limit left) scope .null c.body (c.site.child 0)).run w
        ((settle o).mapError .fault, w)
  | _, .builtin b, args => builtin b args
  | _, d, _ => throw (.fault (.notCallable d.toValue.type))

/-- The outcome of a whole program. -/
def program (limit tree : Nat) (scope : Scope) (p : Program) (w : World) :
    Except Fault Datum × World :=
  let (o, w) := (block (apply limit limit) scope .null p.statements ⟨tree, []⟩).run w
  (settle o, w)

end Structured

end LetFn
