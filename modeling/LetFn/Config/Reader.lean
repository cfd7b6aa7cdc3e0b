import LetFn.Config
import LetFn.Decimal.Shortest
import LetFn.Json
import LetFn.Text.Quoted

/-!
# Configurations from JSON

A configuration is an object with at most the member `max_call_depth`, or an array with at most
its value. The text is read from left to right and the first problem ends it: a member of another
name is refused when its name is read, an array or object in place of the number at its bracket, a
number or string there once it is read.

* `ConfigError`: what can be wrong; `ConfigError.message` words it.
* `Config.ofJson`: the configuration of a text.
-/

namespace LetFn

open Json (Flaw)

/-- What stands in a text where something else is wanted. -/
inductive JsonFound
  | null
  | bool (b : Bool)
  | integer (n : Int)
  | float (x : Float)
  | string (s : String)
  | array
  | object

/-- What is wanted: a configuration, or a number of calls. -/
inductive JsonWanted
  | config
  | count
deriving DecidableEq, Repr

/-- What can be wrong with the text of a configuration. -/
inductive ConfigError
  | flawed (flaw : Flaw)
  | unknownMember (name : String)
  | repeatedMember
  | wrongType (found : JsonFound) (wanted : JsonWanted)
  | negative (n : Nat)

/-! ## Messages -/

/-- Floating point numbers have a point from the fifth place after it to the sixteenth digit before
it, and an exponent elsewhere. -/
def floatLayout : Decimal.Layout := ⟨-5, 15⟩

/-- The written form of a finite floating point number. -/
def floatText (x : Float) : String :=
  let bits := x.toBits
  let sign := if bits.toNat < 0x8000000000000000 then [] else ['-']
  let magnitude :=
    if x == 0 then ['0', '.', '0'] else floatLayout.text (Decimal.shortest bits)
  String.ofList (sign ++ magnitude)

def JsonFound.text : JsonFound → String
  | null => "null"
  | bool b => "boolean `" ++ (if b then "true" else "false") ++ "`"
  | integer n => "integer `" ++ toString n ++ "`"
  | float x => "floating point `" ++ floatText x ++ "`"
  | string s => "string " ++ Text.quoted s
  | array => "sequence"
  | object => "map"

def JsonWanted.text : JsonWanted → String
  | config => "struct InterpreterConfig"
  | count => "usize"

/-- The name of the only member. -/
def Config.memberName : String := "max_call_depth"

def ConfigError.message : ConfigError → String
  | flawed .malformed => "malformed JSON"
  | flawed .unfinished => "JSON ends too early"
  | unknownMember name => "unknown field `" ++ name ++ "`, expected `" ++ Config.memberName ++ "`"
  | repeatedMember => "duplicate field `" ++ Config.memberName ++ "`"
  | wrongType found wanted => "invalid type: " ++ found.text ++ ", expected " ++ wanted.text
  | negative n =>
    "invalid value: " ++ (JsonFound.integer (-n)).text ++ ", expected " ++ JsonWanted.count.text

/-! ## Reading -/

namespace ConfigError

def malformed : ConfigError := .flawed .malformed

def unfinished : ConfigError := .flawed .unfinished

/-- A constant that was not wanted, once the rest of it is read. -/
def ofWord (wanted : JsonWanted) (found : JsonFound) (expected cs : List Char) : ConfigError :=
  match Json.word expected cs with
  | .error f => .flawed f
  | .ok _ => .wrongType found wanted

/-- A number that was not wanted. -/
def ofNumber (wanted : JsonWanted) : Except Flaw (Json.Number × List Char) → ConfigError
  | .error f => .flawed f
  | .ok (.natural n, _) => .wrongType (.integer n) wanted
  | .ok (.negative n, _) => .wrongType (.integer (-n)) wanted
  | .ok (.float x, _) => .wrongType (.float x) wanted

/-- The problem with a text whose first value is not the wanted one. -/
def ofValue (wanted : JsonWanted) : List Char → ConfigError
  | [] => unfinished
  | 'n' :: cs => ofWord wanted .null ['u', 'l', 'l'] cs
  | 't' :: cs => ofWord wanted (.bool true) ['r', 'u', 'e'] cs
  | 'f' :: cs => ofWord wanted (.bool false) ['a', 'l', 's', 'e'] cs
  | '-' :: cs => ofNumber wanted (Json.number false cs)
  | '"' :: cs =>
    match Json.string cs with
    | .error f => .flawed f
    | .ok (s, _) => .wrongType (.string s) wanted
  | '[' :: _ => .wrongType .array wanted
  | '{' :: _ => .wrongType .object wanted
  | c :: cs =>
    if isDecimalDigit c then ofNumber wanted (Json.number true (c :: cs)) else malformed

end ConfigError

namespace Config

abbrev Reader (α : Type) := List Char → Except ConfigError (α × List Char)

/-- A number of calls, which 64 bits hold. -/
def count : Reader Nat := fun cs =>
  let cs := Json.skipBlanks cs
  let number? : Option (Except Flaw (Json.Number × List Char)) :=
    match cs with
    | '-' :: rest => some (Json.number false rest)
    | c :: _ => if isDecimalDigit c then some (Json.number true cs) else none
    | [] => none
  match number? with
  | none => .error (.ofValue .count cs)
  | some (.error f) => .error (.flawed f)
  | some (.ok (.natural n, rest)) => .ok (n, rest)
  | some (.ok (.negative n, _)) => .error (.negative n)
  | some (.ok (.float x, _)) => .error (.wrongType (.float x) .count)

/-- The configuration, if nothing comes after it. -/
def finish (config : Config) (cs : List Char) : Except ConfigError Config :=
  if (Json.skipBlanks cs).isEmpty then .ok config else .error .malformed

/-- An array after its opening bracket. -/
def ofArray (cs : List Char) : Except ConfigError Config :=
  match Json.skipBlanks cs with
  | [] => .error .unfinished
  | ']' :: rest => finish {} rest
  | cs => do
    let (n, rest) ← count cs
    match Json.skipBlanks rest with
    | [] => .error .unfinished
    | ']' :: rest => finish ⟨n⟩ rest
    | _ => .error .malformed

/-- The name of a member. -/
def name : Reader String := fun cs =>
  match Json.skipBlanks cs with
  | [] => .error .unfinished
  | '"' :: rest => (Json.string rest).mapError .flawed
  | _ => .error .malformed

/-- An object after its opening brace. After the only member there is none that could follow. -/
def ofObject (cs : List Char) : Except ConfigError Config :=
  match Json.skipBlanks cs with
  | '}' :: rest => finish {} rest
  | cs => do
    let (first, rest) ← name cs
    if first ≠ memberName then .error (.unknownMember first)
    else
      match Json.skipBlanks rest with
      | [] => .error .unfinished
      | ':' :: rest => do
        let (n, rest) ← count rest
        match Json.skipBlanks rest with
        | [] => .error .unfinished
        | '}' :: rest => finish ⟨n⟩ rest
        | ',' :: rest => do
          let (second, _) ← name rest
          if second = memberName then .error .repeatedMember
          else .error (.unknownMember second)
        | _ => .error .malformed
      | _ => .error .malformed

/-- The configuration of a text, or the first problem in it. -/
def ofJson (text : String) : Except ConfigError Config :=
  match Json.skipBlanks text.toList with
  | '[' :: cs => ofArray cs
  | '{' :: cs => ofObject cs
  | cs => .error (.ofValue .config cs)

end Config

end LetFn
