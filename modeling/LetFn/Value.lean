import LetFn.Fault

/-!
# Values

What expressions evaluate to and names are bound to.

* `Scope`: where code binds and looks up names.
* `Literal`: what a function literal says; its `site` tells apart equal ones.
* `Closure`: a literal with the scope it was evaluated in.
* `Value`: the values; a `returned` one is on its way out of the function that ran `return`.
* `Value.same`: equality, for closures that of literal and scope.
-/

namespace LetFn

/-- A scope is known by the number of its frame. -/
structure Scope where
  frame : Nat
deriving DecidableEq, Repr

/-- A node of a tree: the tree's number and the way up from the node to the root. -/
structure Site where
  tree : Nat
  path : List Nat
deriving DecidableEq, Repr

/-- The node `k` below a node. -/
def Site.child (s : Site) (k : Nat) : Site := ⟨s.tree, k :: s.path⟩

/-- A function literal that stands at `site`. -/
structure Literal where
  params : List String
  body : Block
  site : Site

/-- A function, whose body runs in scopes inside `scope`. -/
structure Closure extends Literal where
  scope : Scope

/-- The functions that need no definition. -/
inductive Builtin
  | puts
deriving DecidableEq, Repr

def Builtin.name : Builtin → String
  | puts => "puts"

def Builtin.all : List Builtin := [.puts]

def Builtin.ofName? (name : String) : Option Builtin := Builtin.all.find? (·.name == name)

inductive Value
  | int (n : Int64)
  | bool (b : Bool)
  | str (s : String)
  | null
  | returned (v : Value)
  | error (f : Fault)
  | closure (c : Closure)
  | builtin (b : Builtin)

namespace Value

instance : Inhabited Value := ⟨.null⟩

def type : Value → ValueType
  | int _ => .int
  | bool _ => .bool
  | str _ => .str
  | null => .null
  | returned _ => .returned
  | error _ => .error
  | closure _ => .closure
  | builtin _ => .builtin

/-- The printed form. -/
def text : Value → String
  | int n => toString n.toInt
  | bool b => if b then "true" else "false"
  | str s => s
  | null => "null"
  | returned v => v.text
  | error f => "ERROR: " ++ f.message
  | closure _ => "FUNCTION"
  | builtin _ => "BUILTIN"

/-- Conditions fail on null and `false` only. -/
def truthy : Value → Bool
  | null | bool false => false
  | _ => true

/-- Closures are the same if one literal made them in one scope. -/
def same : Value → Value → Bool
  | int m, int n => m == n
  | bool b, bool c => b == c
  | str s, str t => s == t
  | null, null => true
  | returned v, returned w => v.same w
  | error f, error g => f == g
  | closure c, closure d => c.site == d.site && c.scope == d.scope
  | builtin b, builtin c => b == c
  | _, _ => false

/-- Two look-ups agree if both find nothing or the same value. -/
def sameFound : Option Value → Option Value → Bool
  | none, none => true
  | some v, some w => v.same w
  | _, _ => false

/-- The value that leaves a function or a program. -/
def unwrap : Value → Value
  | returned v => v
  | v => v

def isReturned : Value → Bool
  | returned _ => true
  | _ => false

end Value

/-- A short form that shows the parameters. -/
def Closure.describe (c : Closure) : String := "Function(fn(" ++ ", ".intercalate c.params ++ "))"

def Builtin.describe (b : Builtin) : String := "Builtin(" ++ b.name ++ ")"

end LetFn
