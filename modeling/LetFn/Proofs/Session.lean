import LetFn.Proofs.Eval.Task
import LetFn.Session

/-!
# Runs of a session

A session is asked to run one input after another. Each that is the text of a program, or a tree,
gives a run, which starts on the machine that the ones before left.

* `Input`: texts and trees; `Session.perform` is the outcome of one.
* `Session.runs`: the runs that some inputs lead to; `Session.point` is where one starts.
* `Session.valueIn_eq`, `Session.run_eq_valueIn`: runs in any scope, and in the root scope.
* `Session.run_fst`, `Session.run_snd`: the outcome of a run and the session that it leaves, by what
  its point comes to.
-/

namespace LetFn

/-- What a session can be asked to run: a text, or a tree that was read before. -/
inductive Input
  | text (text : String)
  | tree (t : Tree)

/-- A value as an outcome: one that is a fault fails. -/
def Value.outcome : Value → Except Fault Value
  | .error f => .error f
  | v => .ok v

theorem Value.outcome_of_type {v : Value} (h : v.type ≠ .error) : v.outcome = .ok v := by
  cases v with
  | error => exact absurd rfl h
  | int | bool | str | null | returned | closure | builtin => rfl

theorem Value.eq_of_outcome {v w : Value} (h : v.outcome = .ok w) : v = w := by
  cases v <;> cases h <;> rfl

/-- An outcome as a value: a fault is one too. -/
def Value.ofOutcome : Except Fault Value → Value
  | .ok v => v
  | .error f => .error f

namespace Session

/-- The tree of an input, and the session that is to run it; none for a text that is no program. -/
def take (s : Session) : Input → Except (List ParseError) (Tree × Session)
  | .text text => s.read text
  | .tree t => .ok (t, s)

/-- The outcome of an input. -/
def perform (s : Session) (i : Input) : Except EvalError Value × Session :=
  match s.take i with
  | .error es => (.error (.parse es), s)
  | .ok (t, s) => ((s.run t).1.mapError .runtime, (s.run t).2)

/-- The runs that inputs lead to: each with its tree, and the session that it starts in. -/
def runs (s : Session) : List Input → List (Tree × Session)
  | [] => []
  | i :: is =>
    match s.take i with
    | .error _ => (s.perform i).2.runs is
    | .ok r => r :: (s.perform i).2.runs is

/-- Where the run of a tree starts. -/
def point (s : Session) (t : Tree) : Point :=
  t.program.point s.config.maxCallDepth t.number s.root s.machine

theorem perform_text (s : Session) (text : String) : s.perform (.text text) = s.evaluate text := by
  have htake : s.take (.text text) = s.read text := rfl
  cases h : s.read text with
  | error es => simp only [perform, evaluate, htake, h]
  | ok r => simp only [perform, evaluate, htake, h]

section
variable {s : Session}

/-- A run is that of the statements in the root scope. -/
theorem run_point (t : Tree) :
    (s.point t).run s.config.maxCallDepth =
      (Block.eval (apply s.config.maxCallDepth s.config.maxCallDepth) s.root .null
        t.program.statements ⟨t.number, []⟩).run s.machine := rfl

/-- The sessions of a read text differ in the number of trees only. -/
theorem machine_of_take {i : Input} {r : Tree × Session} (h : s.take i = .ok r) :
    r.2.machine = s.machine := by
  cases i with
  | text text =>
    change (Program.parse text >>= fun program => _) = _ at h
    cases hp : Program.parse text with
    | error es =>
      rw [hp] at h
      cases h
    | ok program =>
      rw [hp] at h
      cases h
      rfl
  | tree t =>
    cases h
    rfl

theorem perform_of_take {i : Input} {r : Tree × Session} (h : s.take i = .ok r) :
    s.perform i = ((r.2.run r.1).1.mapError .runtime, (r.2.run r.1).2) := by
  rw [perform, h]

/-- A run in any scope gives the outcome that leaves its point, and the machine it ends on. -/
theorem valueIn_eq (config : Config) (scope : Scope) (t : Tree) :
    s.valueIn config scope t =
      (Value.ofOutcome (((t.program.point config.maxCallDepth t.number scope s.machine).run
          config.maxCallDepth).1.map Value.unwrap),
      { s with machine :=
          ((t.program.point config.maxCallDepth t.number scope s.machine).run
            config.maxCallDepth).2 }) := by
  rw [valueIn, Program.run_eval]
  cases ((t.program.point config.maxCallDepth t.number scope s.machine).run
    config.maxCallDepth).1.map Value.unwrap <;> rfl

/-- In the root scope a value that is a fault is one of the run. -/
theorem run_eq_valueIn (t : Tree) :
    s.run t = ((s.valueIn s.config s.root t).1.outcome, (s.valueIn s.config s.root t).2) := by
  rw [run]
  obtain ⟨v, s'⟩ := s.valueIn s.config s.root t
  cases v <;> rfl

/-- A run leaves the machine that its point comes to, and changes nothing else. -/
theorem run_snd (t : Tree) :
    (s.run t).2 = { s with machine := ((s.point t).run s.config.maxCallDepth).2 } := by
  rw [run_eq_valueIn, valueIn_eq]
  rfl

theorem machine_run (t : Tree) :
    (s.run t).2.machine = ((s.point t).run s.config.maxCallDepth).2 := by
  rw [run_snd]

/-- The outcome of a run is the value that leaves its point, as an outcome. -/
theorem run_fst (t : Tree) :
    (s.run t).1 = ((s.point t).run s.config.maxCallDepth).1 >>= fun v => v.unwrap.outcome := by
  rw [run_eq_valueIn, valueIn_eq, point]
  cases ((t.program.point s.config.maxCallDepth t.number s.root s.machine).run
    s.config.maxCallDepth).1 <;> rfl

/-- A text that is a program is run as a tree of its own. -/
theorem evaluate_of_parse {text : String} {p : Program} (h : Program.parse text = .ok p) :
    s.evaluate text =
      (({ s with trees := s.trees + 1 }.run ⟨s.trees, p⟩).1.mapError .runtime,
        ({ s with trees := s.trees + 1 }.run ⟨s.trees, p⟩).2) := by
  simp only [evaluate, read, h]
  rfl

/-- A text that is no program leaves the session as it is. -/
theorem evaluate_of_parse_error {text : String} {es : List ParseError}
    (h : Program.parse text = .error es) : s.evaluate text = (.error (.parse es), s) := by
  simp only [evaluate, read, h]
  rfl

/-- The value of a run is what leaves its point. -/
theorem run_eq_ok {t : Tree} {v : Value} (hv : (s.run t).1 = .ok v) :
    ((s.point t).run s.config.maxCallDepth).1.map Value.unwrap = .ok v := by
  rw [run_fst] at hv
  cases h : ((s.point t).run s.config.maxCallDepth).1 with
  | error f =>
    rw [h] at hv
    cases hv
  | ok w =>
    rw [h] at hv
    exact congrArg Except.ok (Value.eq_of_outcome hv)

end

end Session

end LetFn
