/-!
# Output

Where written text goes. A sink accepts or refuses each write as a whole.

* `Sink.write`: one write.
* `Sink.endless` accepts everything; `Sink.ofLines` refuses once it holds some number of lines.
-/

namespace LetFn

/-- The writes accepted so far, the latest first, and why a further one would be refused. -/
structure Sink where
  accepted : List String
  refusal : List String → String → Option String

namespace Sink

/-- The sink after a write, or the reason to refuse it. -/
def write (s : Sink) (text : String) : Except String Sink :=
  match s.refusal s.accepted text with
  | some reason => .error reason
  | none => .ok { s with accepted := text :: s.accepted }

/-- The text accepted after the first `n` writes. -/
def textAfter (s : Sink) (n : Nat) : String :=
  String.join (s.accepted.take (s.accepted.length - n)).reverse

/-- All the text accepted. -/
def text (s : Sink) : String := s.textAfter 0

def endless : Sink := ⟨[], fun _ _ => none⟩

/-- The line feeds in some texts. -/
def lineFeeds (texts : List String) : Nat := (String.join texts).toList.count '\n'

/-- A sink that is full once it accepted `lines` line feeds. -/
def ofLines (lines : Nat) : Sink :=
  ⟨[], fun accepted _ => if lines ≤ lineFeeds accepted then some "sink is full" else none⟩

end Sink

end LetFn
