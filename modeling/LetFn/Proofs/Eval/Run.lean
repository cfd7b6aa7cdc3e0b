import LetFn.Eval
import LetFn.Proofs.Store.Plain
import Mathlib.Data.List.Forall2

/-!
# Runs

What a computation with faults and a state comes to, step by step, and what the operations of
machines come to.

* `run_pure`, `run_throw`, `run_bind`: a finished run, a failed one, and one after another.
* `EvalM.run_lookup`, `EvalM.run_bind_name` and their like: the operations on machines.
* `Builtin.writes`, `Builtin.run_eq`: a builtin writes some texts; `Builtin.exists_run` is what it
  can come to.
* `run_apply_succ`: a call of a function runs its body in a new scope.
-/

namespace LetFn

section
variable {ε σ α β : Type}

@[simp] theorem run_pure (a : α) (s : σ) :
    (pure a : ExceptT ε (StateM σ) α).run s = (.ok a, s) := rfl

@[simp] theorem run_get (s : σ) : (get : ExceptT ε (StateM σ) σ).run s = (.ok s, s) := rfl

@[simp] theorem run_throw (e : ε) (s : σ) :
    (throw e : ExceptT ε (StateM σ) α).run s = (.error e, s) := rfl

/-- The second part runs if the first one does not fail. -/
theorem run_bind (x : ExceptT ε (StateM σ) α) (k : α → ExceptT ε (StateM σ) β) (s : σ) :
    (x >>= k).run s =
      match x.run s with
      | (.ok a, s') => (k a).run s'
      | (.error e, s') => (.error e, s') := by
  have h : (x >>= k).run s = ExceptT.bindCont k (x.run s).1 (x.run s).2 := rfl
  rw [h]
  obtain ⟨o, s'⟩ := x.run s
  cases o <;> rfl

theorem run_bind_of_ok {x : ExceptT ε (StateM σ) α} {k : α → ExceptT ε (StateM σ) β} {s s' : σ}
    {a : α} (h : x.run s = (.ok a, s')) : (x >>= k).run s = (k a).run s' := by
  rw [run_bind, h]

theorem run_bind_of_error {x : ExceptT ε (StateM σ) α} {k : α → ExceptT ε (StateM σ) β} {s s' : σ}
    {e : ε} (h : x.run s = (.error e, s')) : (x >>= k).run s = (.error e, s') := by
  rw [run_bind, h]

@[simp] theorem run_liftExcept (x : Except ε α) (s : σ) :
    (liftExcept x : ExceptT ε (StateM σ) α).run s = (x, s) := by
  cases x <;> rfl

end

/-! ## Operations on machines -/

theorem run_unwrap (x : EvalM Value) (m : Machine) :
    (do let v ← x; return v.unwrap : EvalM Value).run m =
      ((x.run m).1.map Value.unwrap, (x.run m).2) := by
  rw [run_bind]
  obtain ⟨o, m'⟩ := x.run m
  cases o <;> rfl

namespace EvalM

@[simp] theorem run_lookup (scope : Scope) (x : String) (m : Machine) :
    (lookup scope x).run m = (.ok (m.store.lookup scope x), m) := rfl

@[simp] theorem run_bind_name (scope : Scope) (x : String) (v : Value) (m : Machine) :
    (bind scope x v).run m = (.ok (), { m with store := m.store.bind scope x v }) := rfl

theorem run_write (text : String) (m : Machine) :
    (write text).run m =
      match m.sink.write text with
      | .ok sink => (.ok (), { m with sink })
      | .error reason => (.error (.output reason), m) := by
  rw [write, run_bind_of_ok (run_get m)]
  cases m.sink.write text <;> rfl

@[simp] theorem run_enclose (outer : Scope) (m : Machine) :
    (enclose outer).run m =
      (.ok (m.store.enclose outer).1, { m with store := (m.store.enclose outer).2 }) := rfl

theorem run_bindAll (scope : Scope) : ∀ (xs : List (String × Value)) (m : Machine),
    (bindAll scope xs).run m = (.ok (), { m with store := m.store.bindAll scope xs })
  | [], _ => rfl
  | (x, v) :: rest, m =>
    (run_bind_of_ok (run_bind_name scope x v m)).trans (run_bindAll scope rest _)

/-- A write leaves the store as it is. -/
theorem exists_run_write (text : String) (m : Machine) :
    ∃ o sink, (write text).run m = (o, { m with sink }) := by
  rw [run_write]
  cases m.sink.write text with
  | ok sink => exact ⟨_, sink, rfl⟩
  | error reason => exact ⟨_, m.sink, rfl⟩

end EvalM

/-- What is related item by item looks the same if related items do. -/
theorem map_eq_map_of_forall₂ {α β γ : Type} {rel : α → β → Prop} {f : α → γ} {g : β → γ}
    {as : List α} {bs : List β} (h : List.Forall₂ rel as bs) (hfg : ∀ a b, rel a b → f a = g b) :
    as.map f = bs.map g := by
  rw [← List.forall₂_eq_eq_eq]
  exact List.forall₂_map_left_iff.2 (List.forall₂_map_right_iff.2 (h.imp hfg))

/-! ## Builtins -/

/-- One text after another. -/
def EvalM.writeAll : List String → EvalM Unit
  | [] => return
  | text :: texts => do
    write text
    writeAll texts

theorem EvalM.exists_run_writeAll (texts : List String) (m : Machine) :
    ∃ o sink, (writeAll texts).run m = (o, { m with sink }) := by
  induction texts generalizing m with
  | nil => exact ⟨_, m.sink, rfl⟩
  | cons text texts ih =>
    obtain ⟨o, sink, hwrite⟩ := exists_run_write text m
    cases o with
    | error f => exact ⟨.error f, sink, run_bind_of_error hwrite⟩
    | ok _ =>
      obtain ⟨o', sink', hrun⟩ := ih { m with sink }
      exact ⟨o', sink', (run_bind_of_ok hwrite).trans hrun⟩

/-- The texts that a call of a builtin writes. -/
def Builtin.writes : Builtin → List Value → List String
  | .puts, args =>
    let line := " ".intercalate (args.map Value.text)
    if line.isEmpty then ["\n"] else [line, "\n"]

/-- They depend on the texts of the arguments only. -/
theorem Builtin.writes_congr (b : Builtin) {as bs : List Value}
    (h : as.map Value.text = bs.map Value.text) : b.writes as = b.writes bs := by
  cases b with
  | puts => simp only [writes, h]

/-- A builtin writes its texts and comes to null. -/
theorem Builtin.run_eq (b : Builtin) (as : List Value) :
    b.run as = do
      EvalM.writeAll (b.writes as)
      return .null := by
  cases b with
  | puts =>
    unfold run writes
    dsimp only
    split
    · next h =>
      rw [if_neg (by simpa using h)]
      simp only [EvalM.writeAll, bind_assoc, pure_bind]
    · next h =>
      rw [if_pos (by simpa using h)]
      simp only [EvalM.writeAll, bind_assoc, pure_bind]

/-- Builtins come to null, and leave the store as it is. -/
theorem Builtin.exists_run (b : Builtin) (as : List Value) (m : Machine) :
    ∃ o sink, (b.run as).run m = (o, { m with sink }) ∧ ∀ v, o = .ok v → v = .null := by
  rw [b.run_eq as]
  obtain ⟨o, sink, hwrites⟩ := EvalM.exists_run_writeAll (b.writes as) m
  cases o with
  | error f => exact ⟨.error f, sink, run_bind_of_error hwrites, nofun⟩
  | ok _ => exact ⟨.ok .null, sink, run_bind_of_ok hwrites, fun v hv => by cases hv; rfl⟩

/-! ## Calls -/

theorem apply_of_length_ne (limit left : Nat) (c : Closure) {vs : List Value}
    (h : vs.length ≠ c.params.length) :
    apply limit left (.closure c) vs = throw (.wrongArity c.params.length vs.length) := by
  cases left <;> exact if_pos h

/-- The body of a function runs in the scope made for the call. -/
theorem run_apply_succ (limit left : Nat) (c : Closure) {vs : List Value}
    (hlen : vs.length = c.params.length) (m : Machine) :
    (apply limit (left + 1) (.closure c) vs).run m =
      (do let v ← Block.eval (apply limit left) m.store.next .null c.body (c.site.child 0)
          return v.unwrap : EvalM Value).run
        { m with store := (m.store.enclose c.scope).2.bindAll m.store.next (c.params.zip vs) } := by
  rw [apply, if_neg (not_not_intro hlen)]
  refine (run_bind_of_ok (EvalM.run_enclose c.scope m)).trans ?_
  exact run_bind_of_ok (EvalM.run_bindAll _ _ _)

end LetFn
