import LetFn.Proofs.Eval.Run
import Mathlib.Data.List.Forall2

/-!
# Sites decide nothing

Evaluation notes the site of each function literal, and never looks at it: code that stands
somewhere else does the same, and so do functions whose literals stand somewhere else.

* `Value.siteless`: a value without the sites of its literals; type, text, truth and what operators
  make of a value stay as they are.
* `Store.siteless`, `Machine.Like`: the same of all that is bound, and of machines.
* `EvalM.Like rel x y`: from machines that are alike, `rel` relates the values of `x` and `y`, and
  the machines they end in are alike.
* `Block.eval_like`, `apply_like`: code at two sites, and calls of values that are alike.
-/

namespace LetFn

/-! ## Values without sites -/

/-- A value whose literals all stand at one site. -/
def Value.siteless : Value → Value
  | .returned v => .returned v.siteless
  | .closure c => .closure { c with site := ⟨0, []⟩ }
  | .int n => .int n
  | .bool b => .bool b
  | .str s => .str s
  | .null => .null
  | .error f => .error f
  | .builtin b => .builtin b

namespace Value

@[simp] theorem type_siteless (v : Value) : v.siteless.type = v.type := by cases v <;> rfl

@[simp] theorem truthy_siteless (v : Value) : v.siteless.truthy = v.truthy := by
  cases v <;> rfl

@[simp] theorem isReturned_siteless (v : Value) : v.siteless.isReturned = v.isReturned := by
  cases v <;> rfl

@[simp] theorem unwrap_siteless (v : Value) : v.siteless.unwrap = v.unwrap.siteless := by
  cases v <;> rfl

@[simp] theorem text_siteless : ∀ v : Value, v.siteless.text = v.text
  | .returned v => text_siteless v
  | .closure _ | .int _ | .bool _ | .str _ | .null | .error _ | .builtin _ => rfl

@[simp] theorem unary_siteless (op : UnaryOp) (v : Value) :
    unary op v.siteless = unary op v := by
  cases op <;> cases v <;> rfl

@[simp] theorem binary_siteless (op : BinaryOp) (v w : Value) :
    binary op v.siteless w.siteless = binary op v w := by
  cases v with
  | bool b =>
    -- some operators compare booleans, so here the operator decides as well
    cases w <;> cases op <;> rfl
  | int | str | null | returned | error | closure | builtin => cases w <;> rfl

/-- Values are alike if they differ in the sites of literals only. -/
def Like (v w : Value) : Prop := v.siteless = w.siteless

@[refl] theorem Like.refl (v : Value) : v.Like v := rfl

namespace Like
variable {v w : Value}

theorem type_eq (h : v.Like w) : v.type = w.type := by
  rw [← type_siteless, h, type_siteless]

theorem text_eq (h : v.Like w) : v.text = w.text := by
  rw [← text_siteless, h, text_siteless]

theorem truthy_eq (h : v.Like w) : v.truthy = w.truthy := by
  rw [← truthy_siteless, h, truthy_siteless]

theorem isReturned_eq (h : v.Like w) : v.isReturned = w.isReturned := by
  rw [← isReturned_siteless, h, isReturned_siteless]

theorem unwrap (h : v.Like w) : v.unwrap.Like w.unwrap := by
  rw [Like, ← unwrap_siteless, h, unwrap_siteless]

theorem unary_eq (h : v.Like w) (op : UnaryOp) : unary op v = unary op w := by
  rw [← unary_siteless, h, unary_siteless]

theorem binary_eq {v' w' : Value} (h : v.Like w) (h' : v'.Like w') (op : BinaryOp) :
    binary op v v' = binary op w w' := by
  rw [← binary_siteless, h, h', binary_siteless]

/-- What is like a function is one of the same parameters, body and scope. -/
theorem exists_of_closure {c : Closure} (h : (closure c).Like w) :
    ∃ site, w = .closure { c with site } := by
  cases w with
  | closure d =>
    obtain ⟨⟨params, body, site⟩, scope⟩ := d
    obtain ⟨⟨_, _, _⟩, _⟩ := c
    cases h
    exact ⟨site, rfl⟩
  | int | bool | str | null | returned | error | builtin => cases h

end Like

end Value

/-! ## Machines and computations -/

/-- The scopes of a store, each value without its sites. -/
def Store.siteless (s : Store) : Scopes Value := s.plain.map Value.siteless

/-- Machines are alike if what they bind is, name by name, and they wrote the same. -/
structure Machine.Like (m n : Machine) : Prop where
  store_eq : m.store.siteless = n.store.siteless
  sink_eq : m.sink = n.sink

@[refl] theorem Machine.Like.refl (m : Machine) : m.Like m := ⟨rfl, rfl⟩

/-- Both outcomes are values that belong together, or the same error. -/
inductive SameEnd {ε α β : Type} (rel : α → β → Prop) : Except ε α → Except ε β → Prop
  | ok {a : α} {b : β} : rel a b → SameEnd rel (.ok a) (.ok b)
  | error (e : ε) : SameEnd rel (.error e) (.error e)

namespace SameEnd
variable {ε ε' α β γ δ : Type} {rel rel' : α → β → Prop} {o : Except ε α} {o' : Except ε β}

theorem imp (h : SameEnd rel o o') (himp : ∀ a b, rel a b → rel' a b) : SameEnd rel' o o' := by
  cases h with
  | ok hab => exact .ok (himp _ _ hab)
  | error e => exact .error e

theorem bind {next : γ → δ → Prop} {k : α → Except ε γ} {l : β → Except ε δ}
    (h : SameEnd rel o o') (hkl : ∀ a b, rel a b → SameEnd next (k a) (l b)) :
    SameEnd next (o >>= k) (o' >>= l) := by
  cases h with
  | ok hab => exact hkl _ _ hab
  | error e => exact .error e

theorem mapError (h : SameEnd rel o o') (f : ε → ε') :
    SameEnd rel (o.mapError f) (o'.mapError f) := by
  cases h with
  | ok hab => exact .ok hab
  | error e => exact .error (f e)

end SameEnd

/-- From machines that are alike, `rel` relates the values come to, and the machines reached are
alike. -/
def EvalM.Like {α β : Type} (rel : α → β → Prop) (x : EvalM α) (y : EvalM β) : Prop :=
  ∀ m n : Machine, m.Like n → SameEnd rel (x.run m).1 (y.run n).1 ∧ (x.run m).2.Like (y.run n).2

namespace EvalM.Like
variable {α β γ δ : Type} {rel : α → β → Prop} {rel' : γ → δ → Prop}

theorem pure {a : α} {b : β} (h : rel a b) : EvalM.Like rel (Pure.pure a) (Pure.pure b) :=
  fun _ _ hm => ⟨.ok h, hm⟩

theorem fault (f : Fault) : EvalM.Like rel (throw f) (throw f) := fun _ _ hm => ⟨.error f, hm⟩

/-- The second parts run from machines that are alike, or both computations end in one fault. -/
theorem bind {x : EvalM α} {y : EvalM β} {k : α → EvalM γ} {l : β → EvalM δ}
    (hx : EvalM.Like rel x y) (hk : ∀ a b, rel a b → EvalM.Like rel' (k a) (l b)) :
    EvalM.Like rel' (x >>= k) (y >>= l) := by
  intro m n hmn
  obtain ⟨hend, hmn'⟩ := hx m n hmn
  rcases hrun : x.run m with ⟨o, m'⟩
  rcases hrun' : y.run n with ⟨o', n'⟩
  rw [hrun, hrun'] at hend hmn'
  cases hend with
  | ok hab =>
    rw [run_bind_of_ok hrun, run_bind_of_ok hrun']
    exact hk _ _ hab m' n' hmn'
  | error f =>
    rw [run_bind_of_error hrun, run_bind_of_error hrun']
    exact ⟨.error f, hmn'⟩

theorem ofExcept (r : Except Fault Value) :
    EvalM.Like Value.Like (liftExcept r) (liftExcept r) := by
  cases r with
  | ok v => exact pure (.refl v)
  | error f => exact fault f

end EvalM.Like

/-! ## Operations on machines -/

theorem EvalM.lookup_like (scope : Scope) (x : String) :
    EvalM.Like (Option.Rel Value.Like) (EvalM.lookup scope x) (EvalM.lookup scope x) := by
  intro m n hmn
  have hlookup : (m.store.lookup scope x).map Value.siteless =
      (n.store.lookup scope x).map Value.siteless := by
    rw [Store.lookup_eq, ← Scopes.lookup_map, Store.lookup_eq, ← Scopes.lookup_map]
    exact congrArg (Scopes.lookup · scope x) hmn.store_eq
  rw [EvalM.run_lookup, EvalM.run_lookup]
  refine ⟨.ok ?_, hmn⟩
  rcases hv : m.store.lookup scope x with _ | v <;> rcases hw : n.store.lookup scope x with _ | w
  · exact .none
  · rw [hv, hw] at hlookup
    cases hlookup
  · rw [hv, hw] at hlookup
    cases hlookup
  · rw [hv, hw] at hlookup
    exact .some (Option.some.inj hlookup)

theorem EvalM.bind_like (scope : Scope) (x : String) {v w : Value} (h : v.Like w) :
    EvalM.Like Eq (EvalM.bind scope x v) (EvalM.bind scope x w) := by
  intro m n hmn
  refine ⟨.ok rfl, ?_, hmn.sink_eq⟩
  show (m.store.bind scope x v).siteless = (n.store.bind scope x w).siteless
  rw [Store.siteless, ← Store.plain_bind, ← Scopes.bind_map, h]
  rw [Store.siteless, ← Store.plain_bind, ← Scopes.bind_map]
  exact congrArg (Scopes.bind · scope x w.siteless) hmn.store_eq

theorem EvalM.bindAll_like (scope : Scope) {vs ws : List Value}
    (h : List.Forall₂ Value.Like vs ws) : ∀ xs : List String,
      EvalM.Like Eq (EvalM.bindAll scope (xs.zip vs)) (EvalM.bindAll scope (xs.zip ws)) := by
  induction h with
  | nil =>
    intro xs
    rw [List.zip_nil_right]
    exact .pure rfl
  | cons hvw _ ih =>
    intro xs
    cases xs with
    | nil => exact .pure rfl
    | cons x xs => exact (EvalM.bind_like scope x hvw).bind fun _ _ _ => ih xs

theorem EvalM.enclose_like (outer : Scope) :
    EvalM.Like Eq (EvalM.enclose outer) (EvalM.enclose outer) := by
  intro m n hmn
  have henclose : ∀ s : Store, s.siteless.enclose outer =
      ((s.enclose outer).1, (s.enclose outer).2.siteless) := by
    intro s
    rw [Store.siteless, Scopes.enclose_map, Store.plain_enclose]
    rfl
  have heq := (henclose m.store).symm.trans
    ((congrArg (Scopes.enclose · outer) hmn.store_eq).trans (henclose n.store))
  rw [EvalM.run_enclose, EvalM.run_enclose]
  exact ⟨.ok (Prod.ext_iff.1 heq).1, (Prod.ext_iff.1 heq).2, hmn.sink_eq⟩

theorem EvalM.write_like (text : String) :
    EvalM.Like Eq (EvalM.write text) (EvalM.write text) := by
  intro m n hmn
  rw [EvalM.run_write, EvalM.run_write, hmn.sink_eq]
  cases n.sink.write text with
  | ok sink => exact ⟨.ok rfl, hmn.store_eq, rfl⟩
  | error reason => exact ⟨.error _, hmn⟩

theorem EvalM.writeAll_like (texts : List String) :
    EvalM.Like Eq (EvalM.writeAll texts) (EvalM.writeAll texts) := by
  induction texts with
  | nil => exact .pure rfl
  | cons text texts ih => exact (write_like text).bind fun _ _ _ => ih

theorem Builtin.run_like (b : Builtin) {vs ws : List Value} (h : List.Forall₂ Value.Like vs ws) :
    EvalM.Like Value.Like (b.run vs) (b.run ws) := by
  have htexts : vs.map Value.text = ws.map Value.text :=
    map_eq_map_of_forall₂ h fun _ _ hvw => hvw.text_eq
  rw [b.run_eq vs, b.run_eq ws, b.writes_congr htexts]
  exact (EvalM.writeAll_like _).bind fun _ _ _ => .pure (.refl .null)

/-! ## Trees -/

/-- Calls of values that are alike do the same. -/
def CallsLike (call : Value → List Value → EvalM Value) : Prop :=
  ∀ v w as bs, v.Like w → List.Forall₂ Value.Like as bs →
    EvalM.Like Value.Like (call v as) (call w bs)

section
variable {call : Value → List Value → EvalM Value} {scope : Scope}

mutual

theorem Expr.eval_like (hcall : CallsLike call) : ∀ (e : Expr) (site site' : Site),
    EvalM.Like Value.Like (e.eval call scope site) (e.eval call scope site')
  | .name x, _, _ => by
    refine (EvalM.lookup_like scope x).bind fun found found' hfound => ?_
    cases hfound with
    | some hvw => exact .pure hvw
    | none => exact .ofExcept (unscoped x)
  | .int n, _, _ => .pure (.refl _)
  | .bool b, _, _ => .pure (.refl _)
  | .str s, _, _ => .pure (.refl _)
  | .unary op e, _, _ => by
    refine (e.eval_like hcall _ _).bind fun v w hvw => ?_
    rw [hvw.unary_eq]
    exact .ofExcept _
  | .binary op l r, _, _ => by
    refine (l.eval_like hcall _ _).bind fun v w hvw => ?_
    refine (r.eval_like hcall _ _).bind fun v' w' hvw' => ?_
    rw [hvw.binary_eq hvw']
    exact .ofExcept _
  | .cond t y none, _, _ => by
    refine (t.eval_like hcall _ _).bind fun v w hvw => ?_
    rw [hvw.truthy_eq]
    split
    · exact Block.eval_like hcall y _ _ (.refl _)
    · exact .pure (.refl _)
  | .cond t y (some n), _, _ => by
    refine (t.eval_like hcall _ _).bind fun v w hvw => ?_
    rw [hvw.truthy_eq]
    split
    · exact Block.eval_like hcall y _ _ (.refl _)
    · exact Block.eval_like hcall n _ _ (.refl _)
  | .fn xs b, _, _ => .pure rfl
  | .call f as, _, _ => by
    refine (f.eval_like hcall _ _).bind fun v w hvw => ?_
    exact (Expr.evalAll_like hcall as _ _).bind fun vs ws hvws => hcall v w vs ws hvw hvws
termination_by structural e => e

theorem Expr.evalAll_like (hcall : CallsLike call) : ∀ (es : List Expr) (site site' : Site),
    EvalM.Like (List.Forall₂ Value.Like) (Expr.evalAll call scope es site)
      (Expr.evalAll call scope es site')
  | [], _, _ => .pure .nil
  | e :: es, _, _ => by
    refine (e.eval_like hcall _ _).bind fun v w hvw => ?_
    exact (Expr.evalAll_like hcall es _ _).bind fun vs ws hvws => .pure (.cons hvw hvws)

theorem Stmt.eval_like (hcall : CallsLike call) : ∀ (s : Stmt) (site site' : Site),
    EvalM.Like Value.Like (s.eval call scope site) (s.eval call scope site')
  | .bind x e, _, _ => by
    refine (e.eval_like hcall _ _).bind fun v w hvw => ?_
    exact (EvalM.bind_like scope x hvw).bind fun _ _ _ => .pure (.refl _)
  | .ret e, _, _ => (e.eval_like hcall _ _).bind fun v w hvw => .pure (congrArg Value.returned hvw)
  | .expr e, _, _ => e.eval_like hcall _ _

theorem Block.eval_like (hcall : CallsLike call) : ∀ (ss : List Stmt) (site site' : Site)
    {v w : Value}, v.Like w →
    EvalM.Like Value.Like (Block.eval call scope v ss site) (Block.eval call scope w ss site')
  | [], _, _, _, _, hvw => .pure hvw
  | s :: ss, _, _, _, _, _ => by
    refine (s.eval_like hcall _ _).bind fun v w hvw => ?_
    rw [hvw.isReturned_eq]
    split
    · exact .pure hvw
    · exact Block.eval_like hcall ss _ _ hvw

end

end

/-! ## Calls -/

theorem EvalM.Like.unwrap {x y : EvalM Value} (h : EvalM.Like Value.Like x y) :
    EvalM.Like Value.Like (do let v ← x; return v.unwrap) (do let v ← y; return v.unwrap) :=
  h.bind fun _ _ hvw => .pure hvw.unwrap

theorem apply_of_type {limit left : Nat} {v : Value} {as : List Value} (hc : v.type ≠ .closure)
    (hb : v.type ≠ .builtin) : apply limit left v as = throw (.notCallable v.type) := by
  cases v with
  | closure => exact absurd rfl hc
  | builtin => exact absurd rfl hb
  | int | bool | str | null | returned | error => cases left <;> rfl

theorem apply_like_of_type {limit left : Nat} {v w : Value} {as bs : List Value} (h : v.Like w)
    (has : List.Forall₂ Value.Like as bs) (hc : v.type ≠ .closure) :
    EvalM.Like Value.Like (apply limit left v as) (apply limit left w bs) := by
  by_cases hb : v.type = .builtin
  · cases v with
    | builtin b =>
      cases w with
      | builtin b' =>
        cases h
        cases left <;> exact b.run_like has
      | int | bool | str | null | returned | error | closure => cases h
    | int | bool | str | null | returned | error | closure => cases hb
  · rw [apply_of_type hc hb, apply_of_type (h.type_eq ▸ hc) (h.type_eq ▸ hb), h.type_eq]
    exact .fault _

/-- Calls do the same, as many of them as may still be entered. -/
theorem apply_like (limit left : Nat) : CallsLike (apply limit left) := by
  induction left with
  | zero =>
    intro v w as bs h has
    cases v with
    | closure c =>
      obtain ⟨site, rfl⟩ := h.exists_of_closure
      rw [apply, apply, has.length_eq]
      split
      · exact .fault _
      · exact .fault _
    | int | bool | str | null | returned | error | builtin =>
      exact apply_like_of_type h has (by intro hc; cases hc)
  | succ left ih =>
    intro v w as bs h has
    cases v with
    | closure c =>
      obtain ⟨site, rfl⟩ := h.exists_of_closure
      rw [apply, apply, has.length_eq]
      split
      · exact .fault _
      · refine (EvalM.enclose_like c.scope).bind fun scope scope' hscope => ?_
        subst hscope
        refine (EvalM.bindAll_like scope has c.params).bind fun _ _ _ => ?_
        exact (Block.eval_like ih c.body _ _ (.refl .null)).unwrap
    | int | bool | str | null | returned | error | builtin =>
      exact apply_like_of_type h has (by intro hc; cases hc)

end LetFn
