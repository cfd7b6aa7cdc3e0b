import LetFn.Proofs.Store.Plain

/-!
# What changes in a store

A store changes by new scopes, and by names bound anew in scopes that there were.

* `Frame.Rebinds`: a frame after some names were bound in it.
* `Store.Changes`: a store after such changes, given which names of which scopes may be bound;
  `Store.Changes.trans` puts changes one after the other, whatever is bound in scopes that were made
  in between.
* `Store.OnlyBinds`: a store in which one scope alone may have changed.
-/

namespace LetFn

/-! ## One frame -/

/-- A frame after names of a kind were bound in it. -/
structure Frame.Rebinds (X : String → Prop) (f f' : Frame) : Prop where
  outer_eq : f'.outer = f.outer
  keeps : ∀ x, (f.get? x).isSome → (f'.get? x).isSome
  get?_eq : ∀ x, ¬ X x → f'.get? x = f.get? x
  eq_of_none : (∀ x, ¬ X x) → f' = f

namespace Frame.Rebinds
variable {X Y : String → Prop} {f f' f'' : Frame}

theorem refl (X : String → Prop) (f : Frame) : Rebinds X f f :=
  ⟨rfl, fun _ h => h, fun _ _ => rfl, fun _ => rfl⟩

theorem trans (h : Rebinds X f f') (h' : Rebinds Y f' f'') (hYX : ∀ x, Y x → X x) :
    Rebinds X f f'' where
  outer_eq := h'.outer_eq.trans h.outer_eq
  keeps x hx := h'.keeps x (h.keeps x hx)
  get?_eq x hx := (h'.get?_eq x (mt (hYX x) hx)).trans (h.get?_eq x hx)
  eq_of_none hX := (h'.eq_of_none fun x => mt (hYX x) (hX x)).trans (h.eq_of_none hX)

theorem insert {x : String} (hx : X x) (b : Binding) : Rebinds X f (f.insert x b) where
  outer_eq := rfl
  keeps y hy := by
    rw [get?_insert]
    split
    · rfl
    · exact hy
  get?_eq y hy := by
    rw [get?_insert, if_neg]
    rintro rfl
    exact hy hx
  eq_of_none hX := absurd hx (hX x)

end Frame.Rebinds

/-! ## All frames -/

namespace Store

/-- A store after scopes were made, and names bound in those that there were as `W` allows. -/
structure Changes (W : Scope → String → Prop) (s s' : Store) : Prop where
  size_le : s.frames.size ≤ s'.frames.size
  rebinds : ∀ t, t.frame < s.frames.size → (s.frame t).Rebinds (W t) (s'.frame t)

/-- Every scope but one is as it was. That one keeps the names it bound, and of the names outside
`xs` it binds what it did. -/
structure OnlyBinds (scope : Scope) (xs : List String) (s s' : Store) : Prop where
  frame_eq : ∀ t, t.frame < s.frames.size → t ≠ scope → s'.frame t = s.frame t
  outer_eq : (s'.frame scope).outer = (s.frame scope).outer
  keeps : ∀ x, ((s.frame scope).get? x).isSome → ((s'.frame scope).get? x).isSome
  get?_eq : ∀ x, x ∉ xs → (s'.frame scope).get? x = (s.frame scope).get? x

namespace Changes
variable {W V : Scope → String → Prop} {s s' s'' : Store}

theorem refl (W : Scope → String → Prop) (s : Store) : s.Changes W s :=
  ⟨Nat.le_refl _, fun t _ => .refl (W t) (s.frame t)⟩

/-- What is bound later in scopes made in between does not count. -/
theorem trans (h : s.Changes W s') (h' : s'.Changes V s'')
    (hVW : ∀ t x, t.frame < s.frames.size → V t x → W t x) : s.Changes W s'' where
  size_le := Nat.le_trans h.size_le h'.size_le
  rebinds t ht :=
    (h.rebinds t ht).trans (h'.rebinds t (Nat.lt_of_lt_of_le ht h.size_le)) fun x => hVW t x ht

theorem mono (h : s.Changes V s') (hVW : ∀ t x, t.frame < s.frames.size → V t x → W t x) :
    s.Changes W s' := (refl W s).trans h hVW

theorem frame_eq (h : s.Changes W s') {t : Scope} (ht : t.frame < s.frames.size)
    (hW : ∀ x, ¬ W t x) : s'.frame t = s.frame t := (h.rebinds t ht).eq_of_none hW

theorem onlyBinds {scope : Scope} {xs : List String} (h : s.Changes W s')
    (hscope : scope.frame < s.frames.size) (hW : ∀ t x, W t x → t = scope ∧ x ∈ xs) :
    s.OnlyBinds scope xs s' where
  frame_eq t ht hne := h.frame_eq ht fun x hx => hne (hW t x hx).1
  outer_eq := (h.rebinds scope hscope).outer_eq
  keeps := (h.rebinds scope hscope).keeps
  get?_eq x hx := (h.rebinds scope hscope).get?_eq x fun hw => hx (hW scope x hw).2

theorem bind {scope : Scope} {x : String} (hx : W scope x) (v : Value) :
    s.Changes W (s.bind scope x v) where
  size_le := Nat.le_of_eq (s.size_bind scope x v).symm
  rebinds t _ := by
    rw [frame_bind]
    split
    · next h =>
      rw [h.1]
      exact .insert hx _
    · exact .refl _ _

theorem bindAll {scope : Scope} (hW : ∀ x, W scope x) (xs : List (String × Value)) :
    s.Changes W (s.bindAll scope xs) := by
  induction xs generalizing s with
  | nil => exact refl W s
  | cons xv xs ih => exact (bind (hW xv.1) xv.2).trans ih fun _ _ _ h => h

/-- A new scope leaves those that there were as they are. -/
theorem enclose (W : Scope → String → Prop) (s : Store) (outer : Scope) :
    s.Changes W (s.enclose outer).2 where
  size_le := by
    rw [Store.enclose, Array.size_push]
    exact Nat.le_succ _
  rebinds t ht := by
    rw [frame_enclose, if_neg]
    · exact .refl _ _
    · rintro rfl
      exact Nat.lt_irrefl _ ht

/-- And so do the names bound in it. -/
theorem enclose_bindAll (W : Scope → String → Prop) (s : Store) (outer : Scope)
    (xs : List (String × Value)) : s.Changes W ((s.enclose outer).2.bindAll s.next xs) := by
  refine (enclose W s outer).trans (bindAll (W := fun t _ => t = s.next) (fun _ => rfl) xs) ?_
  rintro t x ht rfl
  exact absurd ht (Nat.lt_irrefl _)

end Changes

theorem size_enclose (s : Store) (outer : Scope) :
    s.next.frame < (s.enclose outer).2.frames.size := by
  rw [Store.enclose, Array.size_push]
  exact Nat.lt_succ_self _

theorem size_enclose_bindAll (s : Store) (outer : Scope) (xs : List (String × Value)) :
    s.next.frame < ((s.enclose outer).2.bindAll s.next xs).frames.size := by
  have h : (s.enclose outer).2.Changes (fun _ _ => True)
      ((s.enclose outer).2.bindAll s.next xs) := .bindAll (fun _ => trivial) xs
  exact Nat.lt_of_lt_of_le (s.size_enclose outer) h.size_le

/-- The new scope sees itself and what the scope around it sees. -/
theorem chain_enclose_bindAll (s : Store) {outer : Scope} (houter : outer.frame < s.frames.size)
    (xs : List (String × Value)) :
    ((s.enclose outer).2.bindAll s.next xs).chain s.next =
      s.next :: ((s.enclose outer).2.bindAll s.next xs).chain outer := by
  have hnew : (s.enclose outer).2.Changes (fun _ _ => True)
      ((s.enclose outer).2.bindAll s.next xs) := .bindAll (fun _ => trivial) xs
  have hold : s.Changes (fun _ _ => True) ((s.enclose outer).2.bindAll s.next xs) :=
    .enclose_bindAll ..
  have hchain : ((s.enclose outer).2.bindAll s.next xs).chain outer = s.chain outer :=
    congrArg (outer :: ·) (hold.rebinds outer houter).outer_eq
  rw [hchain, chain, (hnew.rebinds s.next (s.size_enclose outer)).outer_eq, frame_enclose,
    if_pos rfl]
  rfl

end Store

end LetFn
