import LetFn.Config.Reader
import LetFn.Session

/-!
# The command line

A script is run in a session of its own, after an optional configuration is read; further
arguments are ignored.

* `FileRead`: what reading a file came to.
* `CommandLine.run`: the exit code and both outputs for some arguments.
-/

namespace LetFn

/-- What reading a file came to. -/
inductive FileRead
  | missing
  | notText
  | text (content : String)

/-- The outcome of reading a file by its bytes, if there is one. -/
def FileRead.ofBytes? : Option ByteArray → FileRead
  | none => .missing
  | some bytes =>
    match String.fromUTF8? bytes with
    | none => .notText
    | some content => .text content

/-- How a program ended. -/
structure Outcome where
  code : UInt32
  stdout : String
  stderr : String

namespace CommandLine

def usage : String := "usage: monkey <script> [config.json]"

/-- An end before anything was run. -/
def refuse (message : String) : Outcome := ⟨1, "", "Error: " ++ message ++ "\n"⟩

/-- The content of a file, or the end of the program. -/
def content (name : String) : FileRead → Except Outcome String
  | .text content => .ok content
  | .missing => .error (unreadable "No such file or directory (os error 2)")
  | .notText => .error (unreadable "stream did not contain valid UTF-8")
where
  unreadable (reason : String) : Outcome :=
    refuse ("reading " ++ name ++ "\n\nCaused by:\n    " ++ reason)

/-- The configuration of the second argument. -/
def config (read : String → FileRead) : List String → Except Outcome Config
  | [] => .ok {}
  | name :: _ => do
    let text ← content name (read name)
    (Config.ofJson text).mapError fun e => refuse e.message

/-- The end of a script. -/
def script (config : Config) (text : String) : Outcome :=
  let (result, session) := (Session.start config .endless).evaluate text
  let written := session.machine.sink.text
  match result with
  | .ok v => ⟨0, written ++ v.text ++ "\n", ""⟩
  | .error e => ⟨1, written, e.message ++ "\n"⟩

/-- How the program ends with some arguments. The configuration is read before the script. -/
def run (read : String → FileRead) : List String → Outcome
  | [] => refuse usage
  | name :: rest =>
    let outcome : Except Outcome Outcome := do
      let config ← config read rest
      let text ← content name (read name)
      return script config text
    match outcome with
    | .ok o | .error o => o

end CommandLine

end LetFn
