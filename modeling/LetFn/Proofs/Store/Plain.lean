import LetFn.Store

/-!
# Plain scopes

Scopes without frames: each is a map from names to what they are bound to, and a list of the scopes
around it.

* `Scopes`: the scopes made so far, over any kind of values.
* `Scopes.enclose`, `Scopes.bind`, `Scopes.lookup`: what programs do with them.
* `Store.plain`: the scopes that a store holds; `Store.plain_enclose`, `Store.plain_bind` and
  `Store.lookup_eq` say that a store does the same to them.
* `Store.Every`: what holds of every bound value, and stays so when values of the kind are bound.
-/

namespace LetFn

/-- The scopes made so far: what lies around each, and what each binds itself. -/
@[ext]
structure Scopes (α : Type) where
  size : Nat
  outer : Scope → List Scope
  vars : Scope → String → Option α

namespace Scopes
variable {α β : Type}

/-- The scope that is made next. -/
def next (s : Scopes α) : Scope := ⟨s.size⟩

/-- A scope and those around it, from the nearest outwards. -/
def chain (s : Scopes α) (scope : Scope) : List Scope := scope :: s.outer scope

/-- What a name is bound to, from the scope itself outwards. -/
def lookup (s : Scopes α) (scope : Scope) (x : String) : Option α :=
  (s.chain scope).findSome? (s.vars · x)

/-- A new scope inside another, which binds nothing yet. -/
def enclose (s : Scopes α) (outer : Scope) : Scope × Scopes α :=
  (s.next,
    { size := s.size + 1
      outer := fun t => if t = s.next then s.chain outer else s.outer t
      vars := fun t x => if t = s.next then none else s.vars t x })

/-- Binds a name in a scope that was made. -/
def bind (s : Scopes α) (scope : Scope) (x : String) (a : α) : Scopes α :=
  { s with
    vars := fun t y =>
      if t = scope ∧ scope.frame < s.size ∧ y = x then some a else s.vars t y }

/-- The same scopes over other values. -/
def map (f : α → β) (s : Scopes α) : Scopes β :=
  ⟨s.size, s.outer, fun t x => (s.vars t x).map f⟩

theorem lookup_map (f : α → β) (s : Scopes α) (scope : Scope) (x : String) :
    (s.map f).lookup scope x = (s.lookup scope x).map f :=
  List.map_findSome?.symm

theorem enclose_map (f : α → β) (s : Scopes α) (outer : Scope) :
    (s.map f).enclose outer = ((s.enclose outer).1, (s.enclose outer).2.map f) := by
  refine Prod.ext rfl (Scopes.ext rfl rfl ?_)
  funext t x
  show (if t = s.next then none else (s.vars t x).map f) =
    (if t = s.next then none else s.vars t x).map f
  split <;> rfl

theorem bind_map (f : α → β) (s : Scopes α) (scope : Scope) (x : String) (a : α) :
    (s.map f).bind scope x (f a) = (s.bind scope x a).map f := by
  refine Scopes.ext rfl rfl ?_
  funext t y
  show (if t = scope ∧ scope.frame < s.size ∧ y = x then some (f a) else (s.vars t y).map f) =
    (if t = scope ∧ scope.frame < s.size ∧ y = x then some a else s.vars t y).map f
  split <;> rfl

end Scopes

namespace Store

/-- The scopes that a store holds, each bound value as it was. -/
def plain (s : Store) : Scopes Value := ⟨s.frames.size, fun t => (s.frame t).outer, s.get?⟩

/-- The frame of a scope that was not made binds nothing and lies in nothing. -/
theorem frame_of_size_le {s : Store} {t : Scope} (h : s.frames.size ≤ t.frame) :
    s.frame t = .inside [] := by
  rw [frame, Array.getD_eq_getD_getElem?, Array.getElem?_eq_none h]
  rfl

theorem lookup_eq (s : Store) (scope : Scope) (x : String) :
    s.lookup scope x = s.plain.lookup scope x := rfl

theorem get?_enclose (s : Store) (outer t : Scope) (x : String) :
    (s.enclose outer).2.get? t x = if t = s.next then none else s.get? t x := by
  rw [get?, frame_enclose]
  split
  · rfl
  · rfl

theorem plain_enclose (s : Store) (outer : Scope) :
    s.plain.enclose outer = ((s.enclose outer).1, (s.enclose outer).2.plain) := by
  refine Prod.ext rfl (Scopes.ext ?_ ?_ ?_)
  · exact (Array.size_push _).symm
  · funext t
    show (if t = s.next then s.chain outer else (s.frame t).outer) =
      ((s.enclose outer).2.frame t).outer
    rw [frame_enclose]
    split <;> rfl
  · funext t x
    exact (s.get?_enclose outer t x).symm

theorem size_bind (s : Store) (scope : Scope) (x : String) (v : Value) :
    (s.bind scope x v).frames.size = s.frames.size := Array.size_modify ..

/-- Scopes lie where they lay, whatever is bound. -/
theorem outer_frame_bind (s : Store) (scope t : Scope) (x : String) (v : Value) :
    ((s.bind scope x v).frame t).outer = (s.frame t).outer := by
  rw [frame_bind]
  split <;> rfl

theorem plain_bind (s : Store) (scope : Scope) (x : String) (v : Value) :
    s.plain.bind scope x v = (s.bind scope x v).plain := by
  refine Scopes.ext (s.size_bind scope x v).symm ?_ ?_
  · funext t
    exact (s.outer_frame_bind scope t x v).symm
  · funext t y
    show (if t = scope ∧ scope.frame < s.frames.size ∧ y = x then some v else s.get? t y) =
      (s.bind scope x v).get? t y
    by_cases h : scope.frame < s.frames.size
    · rw [get?_bind s scope t x y v h]
      simp only [h, true_and]
    · simp only [h, false_and, and_false, if_false]
      rw [get?, get?, frame_bind, if_neg (fun hc => h hc.2)]

/-! ## What every bound value is like -/

/-- Every name of every scope is bound to a value of some kind. -/
def Every (P : Value → Prop) (s : Store) : Prop := ∀ t x v, s.get? t x = some v → P v

/-- Names bound one after the other. -/
def bindAll (s : Store) (scope : Scope) : List (String × Value) → Store
  | [] => s
  | (x, v) :: rest => (s.bind scope x v).bindAll scope rest

namespace Every
variable {P : Value → Prop} {s : Store}

theorem lookup (h : s.Every P) {scope : Scope} {x : String} {v : Value}
    (hv : s.lookup scope x = some v) : P v := by
  obtain ⟨t, -, ht⟩ := List.exists_of_findSome?_eq_some hv
  exact h t x v ht

theorem enclose (h : s.Every P) (outer : Scope) : (s.enclose outer).2.Every P := by
  intro t x v hv
  rw [get?_enclose] at hv
  split at hv
  · cases hv
  · exact h t x v hv

theorem bind (h : s.Every P) (scope : Scope) (x : String) {v : Value} (hv : P v) :
    (s.bind scope x v).Every P := by
  intro t y w hw
  have hplain : (s.plain.bind scope x v).vars t y = some w := by
    rw [plain_bind]
    exact hw
  change (if t = scope ∧ scope.frame < s.frames.size ∧ y = x then some v else s.get? t y) =
    some w at hplain
  split at hplain
  · cases hplain
    exact hv
  · exact h t y w hplain

theorem bindAll (scope : Scope) : ∀ (xs : List String) (vs : List Value) {s : Store},
    s.Every P → (∀ v ∈ vs, P v) → (s.bindAll scope (xs.zip vs)).Every P
  | [], _, _, h, _ => h
  | _ :: _, [], _, h, _ => h
  | x :: xs, v :: vs, _, h, hvs =>
    bindAll scope xs vs (h.bind scope x (hvs v List.mem_cons_self))
      fun w hw => hvs w (List.mem_cons_of_mem v hw)

end Every

/-- A scope of its own in an empty store binds nothing. -/
theorem every_fresh (P : Value → Prop) : Store.empty.fresh.2.Every P := by
  intro t x v hv
  rw [get?, frame_fresh] at hv
  cases hv

end Store

end LetFn
