import LetFn.Config
import LetFn.Eval
import LetFn.Program.Recovery

/-!
# Sessions

Texts run one after another against a root scope, so that later ones see what earlier ones bound.

* `Tree`: a program with the number it was read under, which tells apart equal texts.
* `Session.read`: a text into a tree; `Session.run`: a tree in the root scope; `Session.evaluate`:
  both in turn.
* `Session.valueIn`: a tree in any scope, a fault folded into the value.
-/

namespace LetFn

/-- A program that was read, and its number. -/
structure Tree where
  number : Nat
  program : Program

/-- Why a text has no value. -/
inductive EvalError
  | parse (errors : List ParseError)
  | runtime (fault : Fault)

def EvalError.message : EvalError → String
  | parse errors => ParseError.report errors
  | runtime fault => fault.message

/-- A machine with a root scope, and the number of trees read so far. -/
structure Session where
  machine : Machine
  root : Scope
  config : Config
  trees : Nat

namespace Session

/-- A session whose root scope binds nothing. -/
def start (config : Config) (sink : Sink) : Session :=
  let (root, store) := Store.empty.fresh
  ⟨⟨store, sink⟩, root, config, 0⟩

/-- A text as a tree of its own. -/
def read (s : Session) (text : String) : Except (List ParseError) (Tree × Session) := do
  let program ← Program.parse text
  return (⟨s.trees, program⟩, { s with trees := s.trees + 1 })

/-- The value of a tree in a scope. A fault is a value too. -/
def valueIn (s : Session) (config : Config) (scope : Scope) (t : Tree) : Value × Session :=
  match (t.program.eval config.maxCallDepth t.number scope).run s.machine with
  | (.ok v, machine) => (v, { s with machine })
  | (.error f, machine) => (.error f, { s with machine })

/-- The outcome of a tree in the root scope. A value that is a fault is one of the run. -/
def run (s : Session) (t : Tree) : Except Fault Value × Session :=
  match s.valueIn s.config s.root t with
  | (.error f, s) => (.error f, s)
  | (v, s) => (.ok v, s)

/-- The outcome of a text in the root scope. -/
def evaluate (s : Session) (text : String) : Except EvalError Value × Session :=
  match s.read text with
  | .error es => (.error (.parse es), s)
  | .ok (t, s) =>
    let (result, s) := s.run t
    (result.mapError .runtime, s)

/-- The value that a scope sees under a name; builtins are in no scope. -/
def getIn (s : Session) (scope : Scope) (x : String) : Option Value := s.machine.store.lookup scope x

/-- The session after a binding in a scope. -/
def setIn (s : Session) (scope : Scope) (x : String) (v : Value) : Session :=
  { s with machine.store := s.machine.store.bind scope x v }

/-- A new scope of its own. -/
def fresh (s : Session) : Scope × Session :=
  let (scope, store) := s.machine.store.fresh
  (scope, { s with machine.store := store })

/-- A new scope inside another. -/
def enclose (s : Session) (outer : Scope) : Scope × Session :=
  let (scope, store) := s.machine.store.enclose outer
  (scope, { s with machine.store := store })

/-- The end of a session: values that outlive it see an empty root scope. -/
def close (s : Session) : Session :=
  { s with machine.store := s.machine.store.clear s.root }

def describe (s : Session) (scope : Scope) : String := s.machine.store.describe scope

end Session

end LetFn
