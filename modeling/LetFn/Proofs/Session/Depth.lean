import LetFn.Proofs.Eval.Invariant
import LetFn.Proofs.Session

/-!
# How deep scopes lie

Scoping is lexical: the scope that a piece of code runs in lies inside as many others as there are
function literals around the code, whoever called the function and however many calls are active.

* `Session.Reached`: the sessions that run programs one after another, and the programs that they
  hold, each at its number; `Session.Reached.evaluate` says that texts lead to such sessions.
* `Store.depth`: the number of scopes around a scope.
* `Stands`: a piece of code runs as deep as it is nested; `lexical` says that evaluation keeps it.
* `Session.runs_lexical`: in every run of a session, code runs as deep as it is nested, and every
  function captures a scope as deep as its literal is nested.
-/

namespace LetFn

/-! ## Sessions that run programs -/

/-- The sessions that start with an empty root scope, are given programs, and run these as often as
it may be; with the programs, each at the place of its number. -/
inductive Session.Reached (config : Config) (sink : Sink) : Session → List Program → Prop
  | start : Reached config sink (Session.start config sink) []
  | keep {s : Session} {ps : List Program} (p : Program) :
      Reached config sink s ps → Reached config sink { s with trees := s.trees + 1 } (ps ++ [p])
  | run {s : Session} {ps : List Program} {k : Nat} {p : Program} :
      Reached config sink s ps → ps[k]? = some p → Reached config sink (s.run ⟨k, p⟩).2 ps

namespace Session.Reached
variable {config : Config} {sink : Sink} {s : Session} {ps : List Program}

theorem trees_eq (h : Reached config sink s ps) : s.trees = ps.length := by
  induction h with
  | start => rfl
  | keep p _ ih => rw [List.length_append, ← ih]; rfl
  | run _ _ ih => rw [run_snd, ← ih]

/-- A text is read and run, or leaves the session as it is. -/
theorem evaluate (h : Reached config sink s ps) (text : String) :
    ∃ qs, Reached config sink (s.evaluate text).2 qs := by
  cases hp : Program.parse text with
  | error es =>
    rw [evaluate_of_parse_error hp]
    exact ⟨ps, h⟩
  | ok p =>
    rw [evaluate_of_parse hp]
    refine ⟨ps ++ [p], (h.keep p).run ?_⟩
    rw [h.trees_eq, List.getElem?_concat_length]

end Session.Reached

/-! ## Depth and nesting -/

/-- The number of scopes around a scope. -/
def Store.depth (s : Store) (scope : Scope) : Nat := (s.frame scope).outer.length

/-- A scope lies one deeper than the one that it was made in. -/
theorem Store.depth_enclose (s : Store) (outer : Scope) :
    (s.enclose outer).2.depth (s.enclose outer).1 = s.depth outer + 1 := by
  have hframe : (s.enclose outer).2.frame (s.enclose outer).1 = .inside (s.chain outer) := by
    rw [frame_enclose]
    exact if_pos rfl
  rw [depth, hframe]
  exact List.length_cons

/-- What stands at a site of some programs, and inside how many function literals. -/
def locate? (ps : List Program) (site : Site) : Option (Nat × Code) := do
  let p ← ps[site.tree]?
  Block.locate? p.statements site.path

/-- A scope that was made lies as deep as some code is nested. -/
structure Stands (ps : List Program) (s : Store) (scope : Scope) (c : Code) (site : Site) :
    Prop where
  made : scope.frame < s.frames.size
  locate?_eq : locate? ps site = some (s.depth scope, c)

section
variable {ps : List Program} {s s' : Store} {scope : Scope} {c d : Code} {site : Site}

theorem Stands.grows (h : Stands ps s scope c site) (hg : s.Grows s') :
    Stands ps s' scope c site where
  made := Nat.lt_of_lt_of_le h.made hg.size_le
  locate?_eq := by
    rw [h.locate?_eq, Store.depth, Store.depth, (hg.rebinds scope h.made).outer_eq]

/-- More programs leave the sites of the others as they are. -/
theorem locate?_append {nc : Nat × Code} (h : locate? ps site = some nc) (qs : List Program) :
    locate? (ps ++ qs) site = some nc := by
  obtain ⟨p, hp, hc⟩ := Option.bind_eq_some_iff.1 h
  have hlt := (List.getElem?_eq_some_iff.1 hp).1
  rw [locate?, List.getElem?_append_left hlt, hp]
  exact hc

theorem Stands.append (h : Stands ps s scope c site) (qs : List Program) :
    Stands (ps ++ qs) s scope c site :=
  ⟨h.made, locate?_append h.locate?_eq qs⟩

theorem locate?_child {n : Nat} (h : locate? ps site = some (n, c)) {i : Nat}
    (hd : c.child? i = some d) :
    locate? ps (site.child i) = some (if c.isFn then n + 1 else n, d) := by
  obtain ⟨p, hp, hc⟩ := Option.bind_eq_some_iff.1 h
  show (ps[site.tree]?).bind (fun p => Block.locate? p.statements (i :: site.path)) = _
  rw [hp, Option.bind_some, Block.locate?, hc]
  simp only [Option.bind_eq_bind, Option.bind_some, hd]
  rfl

end

/-- Code runs as deep as it is nested, and functions capture scopes as deep as their literals are
nested. -/
def lexical (ps : List Program) : Invariant where
  code := Stands ps
  closure s c := Stands ps s c.scope (.expr (.fn c.params c.body)) c.site
  fault _ := True
  code_grows hg h := h.grows hg
  closure_grows hg h := h.grows hg
  code_child h hfn hd := by
    refine ⟨h.made, ?_⟩
    rw [locate?_child h.locate?_eq hd, if_neg (Bool.eq_false_iff.1 hfn)]
  closure_made h := h
  code_body {s c} h := by
    refine ⟨?_, ?_⟩
    · rw [Store.enclose, Array.size_push]
      exact Nat.lt_succ_self _
    · rw [locate?_child h.locate?_eq rfl]
      exact congrArg (fun n => some (n, _)) (s.depth_enclose c.scope).symm

/-! ## Sessions keep it -/

/-- The root scope lies in no other, and the functions that are bound capture scopes as deep as
their literals are nested. -/
structure Session.IsLexical (ps : List Program) (s : Session) : Prop where
  bound : (lexical ps).store s.machine.store
  made : s.root.frame < s.machine.store.frames.size
  depth_root : s.machine.store.depth s.root = 0

theorem lexical_value_append {ps : List Program} {s : Store} (qs : List Program) :
    ∀ {v : Value}, (lexical ps).value s v → (lexical (ps ++ qs)).value s v
  | .returned v, h => lexical_value_append qs (v := v) h
  | .closure _, h => h.append qs
  | .error _, _ | .int _, _ | .bool _, _ | .str _, _ | .null, _ | .builtin _, _ => trivial

namespace Session

/-- A program starts in the root scope, as deep as its statements are nested. -/
theorem IsLexical.kept {ps : List Program} {s : Session} (h : s.IsLexical ps) {k : Nat}
    {p : Program} (hp : ps[k]? = some p) : (lexical ps).Kept (s.point ⟨k, p⟩) where
  bound := h.bound
  held := by
    refine ⟨trivial, h.made, ?_⟩
    show (ps[k]?).bind (fun p => Block.locate? p.statements []) = _
    rw [hp]
    exact congrArg (fun n => some (n, _)) h.depth_root.symm

theorem Reached.isLexical {config : Config} {sink : Sink} {s : Session} {ps : List Program}
    (h : Reached config sink s ps) : s.IsLexical ps := by
  induction h with
  | start => exact ⟨Store.every_fresh _, Nat.one_pos, rfl⟩
  | keep p _ ih =>
    exact ⟨fun t x v hv => lexical_value_append [p] (ih.bound t x v hv), ih.made, ih.depth_root⟩
  | @run s ps k p _ hp ih =>
    have hends := (ih.kept hp).ends s.config.maxCallDepth
    rw [run_snd]
    refine ⟨hends.bound, Nat.lt_of_lt_of_le ih.made hends.grows.size_le, ?_⟩
    have hroot := (hends.grows.rebinds s.root ih.made).outer_eq
    exact (congrArg List.length hroot).trans ih.depth_root

end Session

/-! ## Runs -/

/-- The function that a value is, or hands on. -/
def Value.closure? : Value → Option Closure
  | .returned v => v.closure?
  | .closure c => some c
  | _ => none

/-- A value captures a scope that lies as deep as the literal of the function is nested, if it is
one or hands one on. -/
def Value.IsLexical (ps : List Program) (s : Store) (v : Value) : Prop :=
  ∀ c, v.closure? = some c →
    locate? ps c.site = some (s.depth c.scope, .expr (.fn c.params c.body))

theorem Value.isLexical {ps : List Program} {s : Store} :
    ∀ {v : Value}, (lexical ps).value s v → v.IsLexical ps s
  | .returned v, h => Value.isLexical (v := v) h
  | .closure _, h => fun d hd => by
    cases hd
    exact h.locate?_eq
  | .error _, _ | .int _, _ | .bool _, _ | .str _, _ | .null, _ | .builtin _, _ => nofun

/-- In a run of any program that a session holds, every expression is evaluated in a scope as deep
as the expression is nested in function literals, below a root scope of depth zero. All functions
that are bound, called, passed or come to, there or in the end, capture scopes as deep as their
literals are nested. -/
theorem Session.runs_lexical {config : Config} {sink : Sink} {s : Session} {ps : List Program}
    (h : Reached config sink s ps) {k : Nat} {p : Program} (hp : ps[k]? = some p) :
    s.machine.store.depth s.root = 0 ∧
      (∀ q, (s.point ⟨k, p⟩).Visits s.config.maxCallDepth q →
        (∀ scope e site, q.task = .expr scope e site →
          locate? ps site = some (q.machine.store.depth scope, .expr e)) ∧
        (∀ t x v, q.machine.store.get? t x = some v → v.IsLexical ps q.machine.store) ∧
        (∀ callee as, q.task = .call callee as →
          ∀ v ∈ callee :: as, v.IsLexical ps q.machine.store) ∧
        ∀ v, (q.run s.config.maxCallDepth).1 = .ok v →
          v.IsLexical ps (q.run s.config.maxCallDepth).2.store) ∧
      (∀ v, (s.run ⟨k, p⟩).1 = .ok v → v.IsLexical ps (s.run ⟨k, p⟩).2.machine.store) ∧
      ∀ t x v, (s.run ⟨k, p⟩).2.machine.store.get? t x = some v →
        v.IsLexical ps (s.run ⟨k, p⟩).2.machine.store := by
  have hstart := h.isLexical.kept hp
  refine ⟨h.isLexical.depth_root, fun q hq => ?_, fun v hv => ?_, fun t x v hv => ?_⟩
  · obtain ⟨hbound, hheld⟩ := hstart.of_visits hq
    refine ⟨fun scope e site ht => ?_, fun t x v hv => Value.isLexical (hbound t x v hv), ?_, ?_⟩
    · rw [ht] at hheld
      exact hheld.locate?_eq
    · intro callee as ht v hv
      rw [ht] at hheld
      exact Value.isLexical (hheld v hv)
    · intro v hv
      exact Value.isLexical ((Invariant.Kept.ends ⟨hbound, hheld⟩ _).value v hv)
  · rw [run_snd]
    exact Value.isLexical ((hstart.ends _).value_of_map (run_eq_ok hv))
  · exact Value.isLexical ((h.run hp).isLexical.bound t x v hv)

/-- The program `let f = fn(x) { fn() { x } }; f(1)`. -/
def functionOfFunction : Program :=
  ⟨[.bind "f" (.fn ["x"] [.expr (.fn [] [.expr (.name "x")])]),
    .expr (.call (.name "f") [.int 1])]⟩

/-- It comes to the inner function, whose literal is nested in one other: its scope, that of the
call, lies in one other. -/
theorem Session.runs_lexical_functionOfFunction :
    Reached ⟨512⟩ .endless { start ⟨512⟩ .endless with trees := 1 } [functionOfFunction] ∧
      ∃ c, (({ start ⟨512⟩ .endless with trees := 1 } : Session).run ⟨0, functionOfFunction⟩).1 =
          .ok (.closure c) ∧
        locate? [functionOfFunction] c.site = some (1, .expr (.fn [] [.expr (.name "x")])) ∧
        (({ start ⟨512⟩ .endless with trees := 1 } : Session).run
          ⟨0, functionOfFunction⟩).2.machine.store.depth c.scope = 1 := by
  have hreached : Reached ⟨512⟩ .endless { start ⟨512⟩ .endless with trees := 1 }
      [functionOfFunction] := Reached.start.keep functionOfFunction
  obtain ⟨-, -, hresult, -⟩ := runs_lexical hreached (k := 0) rfl
  refine ⟨hreached, _, rfl, rfl, ?_⟩
  have hdepth := hresult _ rfl _ rfl
  exact (congrArg Prod.fst (Option.some.inj hdepth)).symm

end LetFn
