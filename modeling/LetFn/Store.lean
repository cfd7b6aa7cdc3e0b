import LetFn.Value

/-!
# Scopes and their bindings

A store holds the frames of all scopes. Which scopes lie around a scope is fixed when it is made;
what they bind is looked up when it is needed.

* `Binding.ofValue`, `Binding.valueIn`: values as a frame keeps them, and back
  (`Binding.valueIn_ofValue`).
* `Frame.get?`, `Frame.insert`: one frame's bindings, with `Frame.get?_insert`.
* `Store.fresh`, `Store.enclose`, `Store.bind`, `Store.clear`, `Store.lookup`: scopes over a store.
  `Store.frame_fresh` and its like say what each leaves in the frames; by `Store.get?_bind` a bound
  value comes back as it was.
-/

namespace LetFn

/-! ## Bindings -/

/-- What a frame keeps of a value. A function made in the very scope that binds it is kept as its
literal, so that no frame leads back to itself. -/
inductive Binding
  | value (v : Value)
  | own (l : Literal)

namespace Binding

/-- A value as the frame of a scope keeps it. -/
def ofValue (scope : Scope) : Value → Binding
  | .closure c => if c.scope = scope then .own c.toLiteral else .value (.closure c)
  | v => .value v

/-- The value that the frame of a scope keeps. -/
def valueIn (scope : Scope) : Binding → Value
  | .value v => v
  | .own l => .closure ⟨l, scope⟩

@[simp] theorem valueIn_ofValue (scope : Scope) (v : Value) :
    (ofValue scope v).valueIn scope = v := by
  cases v with
  | closure c =>
    obtain ⟨l, t⟩ := c
    by_cases h : t = scope
    · simp [ofValue, valueIn, h]
    · simp [ofValue, valueIn, h]
  | _ => rfl

end Binding

/-! ## Frames -/

/-- The bindings of a scope, of distinct names and the latest first, and the scopes around it, from
the nearest outwards. -/
structure Frame where
  outer : List Scope
  bindings : List (String × Binding)

namespace Frame

/-- A frame that binds nothing. -/
def inside (outer : List Scope) : Frame := ⟨outer, []⟩

def get? (f : Frame) (x : String) : Option Binding := f.bindings.lookup x

/-- A binding takes the place of one of the same name. -/
def insert (f : Frame) (x : String) (b : Binding) : Frame :=
  { f with bindings := (x, b) :: f.bindings.filter (·.1 != x) }

/-- The bound names in the order of their characters. -/
def names (f : Frame) : List String := (f.bindings.map (·.1)).mergeSort

@[simp] theorem get?_inside (outer : List Scope) (x : String) : (inside outer).get? x = none := rfl

@[simp] theorem outer_insert (f : Frame) (x : String) (b : Binding) :
    (f.insert x b).outer = f.outer := rfl

theorem get?_insert (f : Frame) (x y : String) (b : Binding) :
    (f.insert x b).get? y = if y = x then some b else f.get? y := by
  unfold insert get?
  by_cases h : y = x
  · simp [h]
  · have hx : (y == x) = false := by simp [h]
    simp only [List.lookup_cons, hx, h, if_false]
    induction f.bindings with
    | nil => rfl
    | cons a as ih =>
      obtain ⟨z, w⟩ := a
      by_cases hz : z = x
      · subst hz
        simpa [List.lookup_cons, hx] using ih
      · by_cases hy : y = z
        · simp [hz, hy]
        · have : (y == z) = false := by simp [hy]
          simpa [hz, List.lookup_cons, this] using ih

end Frame

/-! ## Stores -/

/-- The frames of the scopes made so far. -/
structure Store where
  frames : Array Frame

namespace Store

def empty : Store := ⟨#[]⟩

/-- The frame of a scope. -/
def frame (s : Store) (scope : Scope) : Frame := s.frames.getD scope.frame (.inside [])

/-- The scopes that code in a scope sees, from its own outwards. -/
def chain (s : Store) (scope : Scope) : List Scope := scope :: (s.frame scope).outer

/-- The scope that is made next. -/
def next (s : Store) : Scope := ⟨s.frames.size⟩

/-- A scope of its own. -/
def fresh (s : Store) : Scope × Store := (s.next, ⟨s.frames.push (.inside [])⟩)

/-- A scope inside another. -/
def enclose (s : Store) (outer : Scope) : Scope × Store :=
  (s.next, ⟨s.frames.push (.inside (s.chain outer))⟩)

/-- Binds in the scope's own frame, hiding what is further out. -/
def bind (s : Store) (scope : Scope) (x : String) (v : Value) : Store :=
  ⟨s.frames.modify scope.frame (·.insert x (.ofValue scope v))⟩

/-- Forgets what the scope's own frame binds. -/
def clear (s : Store) (scope : Scope) : Store :=
  ⟨s.frames.modify scope.frame fun f => .inside f.outer⟩

/-- The value that a scope's own frame binds to a name. -/
def get? (s : Store) (scope : Scope) (x : String) : Option Value :=
  ((s.frame scope).get? x).map (·.valueIn scope)

/-- The value of a name, from the scope's own frame outwards. -/
def lookup (s : Store) (scope : Scope) (x : String) : Option Value :=
  (s.chain scope).findSome? (s.get? · x)

/-! ### What the operations leave in the frames -/

theorem frame_fresh (s : Store) (t : Scope) : s.fresh.2.frame t = s.frame t := by
  simp only [frame, fresh, Array.getD_eq_getD_getElem?, Array.getElem?_push]
  split <;> simp_all

theorem frame_enclose (s : Store) (outer t : Scope) :
    (s.enclose outer).2.frame t =
      if t = s.next then .inside (s.chain outer) else s.frame t := by
  obtain ⟨i⟩ := t
  simp only [frame, enclose, next, Array.getD_eq_getD_getElem?, Array.getElem?_push,
    Scope.mk.injEq]
  split <;> simp_all

theorem frame_bind (s : Store) (scope t : Scope) (x : String) (v : Value) :
    (s.bind scope x v).frame t =
      if t = scope ∧ scope.frame < s.frames.size
      then (s.frame t).insert x (.ofValue scope v) else s.frame t := by
  obtain ⟨i⟩ := t
  obtain ⟨j⟩ := scope
  simp only [frame, bind, Array.getD_eq_getD_getElem?, Array.getElem?_modify, Scope.mk.injEq]
  by_cases h : j = i
  · subst h
    by_cases hj : j < s.frames.size <;> simp [hj]
  · simp [h, Ne.symm h]

theorem frame_clear (s : Store) (scope t : Scope) :
    (s.clear scope).frame t = if t = scope then .inside (s.frame t).outer else s.frame t := by
  obtain ⟨i⟩ := t
  obtain ⟨j⟩ := scope
  simp only [frame, clear, Array.getD_eq_getD_getElem?, Array.getElem?_modify, Scope.mk.injEq]
  by_cases h : j = i
  · subst h
    by_cases hj : j < s.frames.size <;> simp [hj, Frame.inside]
  · simp [h, Ne.symm h]

/-- A bound value comes back as it was. -/
theorem get?_bind (s : Store) (scope t : Scope) (x y : String) (v : Value)
    (h : scope.frame < s.frames.size) :
    (s.bind scope x v).get? t y = if t = scope ∧ y = x then some v else s.get? t y := by
  by_cases ht : t = scope
  · subst ht
    by_cases hy : y = x <;> simp [get?, frame_bind, h, Frame.get?_insert, hy]
  · simp [get?, frame_bind, ht]

/-! ## Description -/

/-- The names that each of some scopes binds, the first inside the next. -/
def describeChain (s : Store) (scope : Scope) : List Scope → String
  | [] => "Environment([" ++ ", ".intercalate (s.frame scope).names ++ "])"
  | t :: ts =>
    "Environment([" ++ ", ".intercalate (s.frame scope).names ++ "] <- " ++
      s.describeChain t ts ++ ")"

/-- The names that a scope and those around it bind. -/
def describe (s : Store) (scope : Scope) : String :=
  s.describeChain scope (s.frame scope).outer

end Store

end LetFn
