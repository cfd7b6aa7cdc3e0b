import LetFn.Proofs.Eval.Invariant
import LetFn.Proofs.Operator
import LetFn.Proofs.Rename

/-!
# Values and stores with a name replaced

Two runs of code that differ in a name of one function literal make the same scopes. Those that code
inside of the literal runs in bind the new name where the old one was bound; the others bind what
they did.

* `Marks`: which scopes those are.
* `Value.Renamed`: values that differ in the code of functions only, and `Value.LooksLike`: what can
  be seen of a value, which stays as it is.
* `Store.Renamed`: stores that bind such values to what names become.
* `Layers`, `Store.Layered`: the scopes around code inside of the literal. They end in that of a call
  of the literal itself, which binds the old name, so that no name is replaced further out.
* `Store.Renamed.lookup`: what is found under a name and under what it becomes;
  `Store.Renamed.enter`: what there is when the body of a function starts.
-/

namespace LetFn

/-- Of each scope that was made, whether code inside of the literal runs in it. -/
abbrev Marks := List Bool

theorem Marks.extend {W V : Marks} (hWV : W <+: V) {t : Scope} {i : Bool}
    (h : W[t.frame]? = some i) : V[t.frame]? = some i := by
  obtain ⟨U, rfl⟩ := hWV
  rw [List.getElem?_append_left (List.getElem?_eq_some_iff.1 h).1, h]

/-- A mark is that of the last scope, or was there before. -/
theorem Marks.of_concat {W : Marks} {i j : Bool} {t : Scope}
    (h : (W ++ [j])[t.frame]? = some i) : t.frame = W.length ∨ W[t.frame]? = some i := by
  by_cases ht : t.frame < W.length
  · rw [List.getElem?_append_left ht] at h
    exact .inr h
  · have hlt := (List.getElem?_eq_some_iff.1 h).1
    rw [List.length_append, List.length_singleton] at hlt
    exact .inl (by omega)

/-! ## Values -/

/-- What can be seen of values is the same. -/
structure Value.LooksLike (v w : Value) : Prop where
  type_eq : v.type = w.type
  text_eq : v.text = w.text
  truthy_eq : v.truthy = w.truthy

/-- What a value becomes: functions have other code in the same scope. -/
inductive Value.Renamed (x y : String) (W : Marks) : Value → Value → Prop
  | int (n : Int64) : Renamed x y W (.int n) (.int n)
  | bool (b : Bool) : Renamed x y W (.bool b) (.bool b)
  | str (s : String) : Renamed x y W (.str s) (.str s)
  | null : Renamed x y W .null .null
  | error (f : Fault) : Renamed x y W (.error f) (.error f)
  | builtin (b : Builtin) : Renamed x y W (.builtin b) (.builtin b)
  | returned {v w : Value} : Renamed x y W v w → Renamed x y W (.returned v) (.returned w)
  | closure {i : Bool} {ps ps' : List String} {b b' : Block} {site : Site} {scope : Scope} :
      W[scope.frame]? = some i → Code.Renamed x y i (.expr (.fn ps b)) (.expr (.fn ps' b')) →
      Renamed x y W (.closure ⟨⟨ps, b, site⟩, scope⟩) (.closure ⟨⟨ps', b', site⟩, scope⟩)

section
variable {x y : String} {W V : Marks}

namespace Value.Renamed
variable {v w : Value}

theorem mono (h : Renamed x y W v w) (hWV : W <+: V) : Renamed x y V v w := by
  induction h with
  | int n => exact .int n
  | bool b => exact .bool b
  | str s => exact .str s
  | null => exact .null
  | error f => exact .error f
  | builtin b => exact .builtin b
  | returned _ ih => exact .returned ih
  | closure ht hfn => exact .closure (Marks.extend hWV ht) hfn

theorem mono_all {vs ws : List Value} (h : List.Forall₂ (Renamed x y W) vs ws) (hWV : W <+: V) :
    List.Forall₂ (Renamed x y V) vs ws := h.imp fun _ _ hvw => hvw.mono hWV

theorem looksLike (h : Renamed x y W v w) : v.LooksLike w := by
  induction h with
  | returned _ ih => exact ⟨rfl, ih.text_eq, rfl⟩
  | int | bool | str | null | error | builtin | closure => exact ⟨rfl, rfl, rfl⟩

theorem isReturned_eq (h : Renamed x y W v w) : v.isReturned = w.isReturned := by
  cases h <;> rfl

theorem unwrap (h : Renamed x y W v w) : Renamed x y W v.unwrap w.unwrap := by
  cases h with
  | returned h => exact h
  | int n => exact .int n
  | bool b => exact .bool b
  | str s => exact .str s
  | null => exact .null
  | error f => exact .error f
  | builtin b => exact .builtin b
  | closure ht hfn => exact .closure ht hfn

theorem unary_eq (h : Renamed x y W v w) (op : UnaryOp) : unary op v = unary op w := by
  cases h <;> cases op <;> rfl

theorem binary_eq {v' w' : Value} (h : Renamed x y W v w) (h' : Renamed x y W v' w')
    (op : BinaryOp) : binary op v v' = binary op w w' := by
  cases h with
  | bool b =>
    -- some operators compare booleans, so here the operator decides as well
    cases h' <;> cases op <;> rfl
  | int | str | null | error | builtin | returned | closure => cases h' <;> rfl

theorem of_isScalar (h : v.IsScalar) : Renamed x y W v v := by
  cases v with
  | int n => exact .int n
  | bool b => exact .bool b
  | str | null | returned | error | closure | builtin => exact h.elim

theorem of_unscoped {z : String} (h : unscoped z = .ok v) : Renamed x y W v v := by
  unfold unscoped at h
  split at h
  · cases h
    exact .builtin _
  · cases h

end Value.Renamed

/-! ## Stores -/

/-- What a store becomes: the same scopes, which bind what values become to what names become. -/
structure Store.Renamed (x y : String) (W : Marks) (s s' : Store) : Prop where
  size_eq : s.frames.size = W.length
  size_eq' : s'.frames.size = W.length
  outer_eq : ∀ t, (s'.frame t).outer = (s.frame t).outer
  bound : ∀ {t i z z'}, W[t.frame]? = some i → NameRenamed x y i z z' →
    Option.Rel (Value.Renamed x y W) (s.get? t z) (s'.get? t z')

/-- The scopes that code sees, from the nearest outwards: inside of the literal those that code in
it runs in, up to that of a call of the literal itself, which binds the name; then the others. -/
inductive Layers (W : Marks) (binds : Scope → Prop) : Bool → List Scope → Prop
  | outside {ts : List Scope} : (∀ t ∈ ts, W[t.frame]? = some false) → Layers W binds false ts
  | literal {t : Scope} {ts : List Scope} : W[t.frame]? = some true → binds t →
      Layers W binds false ts → Layers W binds true (t :: ts)
  | inside {t : Scope} {ts : List Scope} : W[t.frame]? = some true → Layers W binds true ts →
      Layers W binds true (t :: ts)

/-- The scopes that code in each scope sees are layered so. -/
def Store.Layered (x : String) (W : Marks) (s : Store) : Prop :=
  ∀ t i, W[t.frame]? = some i → Layers W (fun u => (s.get? u x).isSome) i (s.chain t)

/-- What is found under a name, and under what it becomes. A name under which nothing is found stays
as it is. -/
structure FoundRenamed (x y z z' : String) (W : Marks) (found found' : Option Value) : Prop where
  value : Option.Rel (Value.Renamed x y W) found found'
  same_of_none : found = none → z' = z

theorem Layers.mono {binds binds' : Scope → Prop} {i : Bool} {ts : List Scope}
    (h : Layers W binds i ts) (hWV : W <+: V)
    (hbinds : ∀ t, W[t.frame]? = some true → binds t → binds' t) : Layers V binds' i ts := by
  induction h with
  | outside hts => exact .outside fun t ht => Marks.extend hWV (hts t ht)
  | literal ht hx _ ih => exact .literal (Marks.extend hWV ht) (hbinds _ ht hx) ih
  | inside ht _ ih => exact .inside (Marks.extend hWV ht) ih

namespace Store.Renamed
variable {s s' : Store} {t : Scope} {i : Bool} {z z' : String}

theorem frame_lt (h : Renamed x y W s s') (ht : W[t.frame]? = some i) :
    t.frame < s.frames.size := by
  rw [h.size_eq]
  exact (List.getElem?_eq_some_iff.1 ht).1

theorem chain_eq (h : Renamed x y W s s') (t : Scope) : s'.chain t = s.chain t :=
  congrArg (t :: ·) (h.outer_eq t)

theorem next_eq (h : Renamed x y W s s') : s'.next = s.next :=
  congrArg Scope.mk (h.size_eq'.trans h.size_eq.symm)

/-! ### Looking up names -/

/-- What is found in the nearest scope that binds the name. -/
theorem findSome?_cons {ts : List Scope}
    (ht : Option.Rel (Value.Renamed x y W) (s.get? t z) (s'.get? t z'))
    (hts : s.get? t z = none → FoundRenamed x y z z' W (ts.findSome? (s.get? · z))
      (ts.findSome? (s'.get? · z'))) :
    FoundRenamed x y z z' W ((t :: ts).findSome? (s.get? · z))
      ((t :: ts).findSome? (s'.get? · z')) := by
  rw [List.findSome?_cons, List.findSome?_cons]
  generalize s.get? t z = found, s'.get? t z' = found' at ht hts ⊢
  cases ht with
  | some hvw => exact ⟨.some hvw, nofun⟩
  | none => exact hts rfl

/-- A name that becomes another is found before the scopes outside of the literal. -/
theorem findSome? (h : Renamed x y W s s') {ts : List Scope}
    (hts : Layers W (fun u => (s.get? u x).isSome) i ts) (hz : NameRenamed x y i z z') :
    FoundRenamed x y z z' W (ts.findSome? (s.get? · z)) (ts.findSome? (s'.get? · z')) := by
  induction hts with
  | @outside ts hts =>
    cases hz with
    | outside =>
      -- no name is replaced from here on
      induction ts with
      | nil => exact ⟨.none, fun _ => rfl⟩
      | cons t ts ih =>
        obtain ⟨ht, hts⟩ := List.forall_mem_cons.1 hts
        exact findSome?_cons (h.bound ht (.outside z)) fun _ => ih hts
  | literal ht hx _ ih =>
    refine findSome?_cons (h.bound ht hz) fun hnone => ?_
    cases hz with
    | same =>
      -- a call of the literal binds the name
      rw [hnone] at hx
      cases hx
    | other => exact ih (.outside z)
  | inside ht _ ih => exact findSome?_cons (h.bound ht hz) fun _ => ih hz

theorem lookup (h : Renamed x y W s s') (hs : s.Layered x W) (ht : W[t.frame]? = some i)
    (hz : NameRenamed x y i z z') :
    FoundRenamed x y z z' W (s.lookup t z) (s'.lookup t z') := by
  rw [Store.lookup, Store.lookup, h.chain_eq]
  exact h.findSome? (hs t i ht) hz

/-! ### Binding names -/

theorem bind (h : Renamed x y W s s') (ht : W[t.frame]? = some i) (hz : NameRenamed x y i z z')
    {v v' : Value} (hv : Value.Renamed x y W v v') :
    Renamed x y W (s.bind t z v) (s'.bind t z' v') := by
  have hlt := h.frame_lt ht
  have hlt' : t.frame < s'.frames.size := by rwa [h.size_eq', ← h.size_eq]
  refine ⟨(s.size_bind t z v).trans h.size_eq, (s'.size_bind t z' v').trans h.size_eq',
    fun u => ?_, fun {u j w w'} hu hw => ?_⟩
  · rw [outer_frame_bind, outer_frame_bind, h.outer_eq]
  · rw [get?_bind _ _ _ _ _ _ hlt, get?_bind _ _ _ _ _ _ hlt']
    by_cases hut : u = t
    · subst hut
      cases ht.symm.trans hu
      by_cases hwz : w = z
      · rw [if_pos ⟨rfl, hwz⟩, if_pos ⟨rfl, (hw.eq_iff hz).1 hwz⟩]
        exact .some hv
      · rw [if_neg (fun hc => hwz hc.2), if_neg (fun hc => hwz ((hw.eq_iff hz).2 hc.2))]
        exact h.bound ht hw
    · rw [if_neg (fun hc => hut hc.1), if_neg (fun hc => hut hc.1)]
      exact h.bound hu hw

theorem bindAll {ps ps' : List String} (hps : List.Forall₂ (NameRenamed x y i) ps ps')
    {vs vs' : List Value} (hvs : List.Forall₂ (Value.Renamed x y W) vs vs')
    (ht : W[t.frame]? = some i) {s s' : Store} (h : Renamed x y W s s') :
    Renamed x y W (s.bindAll t (ps.zip vs)) (s'.bindAll t (ps'.zip vs')) := by
  induction hps generalizing vs vs' s s' with
  | nil => exact h
  | cons hz _ ih =>
    cases hvs with
    | nil => exact h
    | cons hv hvs => exact ih hvs (h.bind ht hz hv)

/-! ### Making scopes -/

/-- A new scope binds nothing yet, whatever code is to run in it. -/
theorem enclose (h : Renamed x y W s s') (outer : Scope) (j : Bool) :
    Renamed x y (W ++ [j]) (s.enclose outer).2 (s'.enclose outer).2 where
  size_eq := by rw [Store.enclose, Array.size_push, h.size_eq, List.length_append]; rfl
  size_eq' := by rw [Store.enclose, Array.size_push, h.size_eq', List.length_append]; rfl
  outer_eq t := by
    rw [frame_enclose, frame_enclose, h.next_eq, h.chain_eq]
    split
    · rfl
    · exact h.outer_eq t
  bound {t i z z'} ht hz := by
    rw [get?_enclose, get?_enclose, h.next_eq]
    split
    · exact .none
    · next hne =>
      have ht := (Marks.of_concat ht).resolve_left fun hc =>
        hne (congrArg Scope.mk (hc.trans h.size_eq.symm))
      have hbound := h.bound ht hz
      generalize s.get? t z = found, s'.get? t z' = found' at hbound ⊢
      cases hbound with
      | some hvw => exact .some (hvw.mono (List.prefix_append W [j]))
      | none => exact .none

end Store.Renamed

/-! ### What scopes see -/

namespace Store
variable {s s' : Store} {t : Scope}

/-- Growing stores keep the layers: what is bound stays bound. -/
theorem Layered.grows (h : s.Layered x W) (hsize : s.frames.size = W.length) (hg : s.Grows s')
    (hWV : W <+: V) {i : Bool} (ht : W[t.frame]? = some i) :
    Layers V (fun u => (s'.get? u x).isSome) i (s'.chain t) := by
  have hrebinds : ∀ {u j}, W[u.frame]? = some j → (s.frame u).Rebinds _ (s'.frame u) :=
    fun {u _} hu => hg.rebinds u (hsize ▸ (List.getElem?_eq_some_iff.1 hu).1)
  rw [chain, (hrebinds ht).outer_eq]
  refine (h t i ht).mono hWV fun u hu hx => ?_
  rw [get?, Option.isSome_map] at hx ⊢
  exact (hrebinds hu).keeps x hx

theorem Layered.bind (h : s.Layered x W) (hsize : s.frames.size = W.length) (t : Scope) (z : String)
    (v : Value) : (s.bind t z v).Layered x W :=
  fun _ _ hu => h.grows hsize (.bind trivial v) (List.prefix_refl W) hu

/-- A scope binds the names that were bound in it one after the other. -/
theorem isSome_get?_bindAll (ht : t.frame < s.frames.size) {ps : List String} {vs : List Value}
    (hlen : ps.length = vs.length) (hx : x ∈ ps) :
    ((s.bindAll t (ps.zip vs)).get? t x).isSome := by
  induction ps generalizing s vs with
  | nil => cases hx
  | cons z ps ih =>
    cases vs with
    | nil => cases hlen
    | cons v vs =>
      have ht' : t.frame < (s.bind t z v).frames.size := (s.size_bind t z v).symm ▸ ht
      rcases List.mem_cons.1 hx with rfl | hx
      · have hgrows : (s.bind t x v).Grows ((s.bind t x v).bindAll t (ps.zip vs)) :=
          .bindAll (fun _ => trivial) _
        have hkeeps := (hgrows.rebinds t ht').keeps x
        rw [List.zip_cons_cons, Store.bindAll, get?, Option.isSome_map]
        refine hkeeps ?_
        rw [frame_bind, if_pos ⟨rfl, ht⟩, Frame.get?_insert, if_pos rfl]
        rfl
      · exact ih ht' (Nat.succ.inj hlen) hx

end Store

/-! ## Calls -/

/-- The code of functions that are made in a scope runs like the code that they are made by, or
inside of the literal, if that is the one whose names are replaced. -/
inductive Marks.Enters (x : String) (ps : List String) : Bool → Bool → Prop
  | inward (i : Bool) : Enters x ps i i
  | literal : x ∈ ps → Enters x ps false true

/-- The parameters and the body of a function. -/
theorem Code.Renamed.exists_enters {i : Bool} {ps ps' : List String} {b b' : Block}
    (h : Code.Renamed x y i (.expr (.fn ps b)) (.expr (.fn ps' b'))) :
    ∃ j, Marks.Enters x ps i j ∧ List.Forall₂ (NameRenamed x y j) ps ps' ∧
      Code.Renamed x y j (.block b) (.block b') := by
  cases h with
  | fn hps hb => exact ⟨i, .inward i, hps, hb⟩
  | here hx hps hb => exact ⟨true, .literal hx, hps, hb⟩

/-- When the body of a function starts, in a new scope that binds the parameters. -/
theorem Store.Renamed.enter {s s' : Store} (h : Store.Renamed x y W s s') (hs : s.Layered x W)
    {outer : Scope} {i j : Bool} (houter : W[outer.frame]? = some i) {ps ps' : List String}
    (hj : Marks.Enters x ps i j) (hps : List.Forall₂ (NameRenamed x y j) ps ps')
    {vs vs' : List Value} (hvs : List.Forall₂ (Value.Renamed x y W) vs vs')
    (hlen : ps.length = vs.length) :
    (W ++ [j])[s.next.frame]? = some j ∧
      Store.Renamed x y (W ++ [j]) ((s.enclose outer).2.bindAll s.next (ps.zip vs))
        ((s'.enclose outer).2.bindAll s.next (ps'.zip vs')) ∧
      Store.Layered x (W ++ [j]) ((s.enclose outer).2.bindAll s.next (ps.zip vs)) := by
  have hWV : W <+: W ++ [j] := List.prefix_append W [j]
  have hnext : (W ++ [j])[s.next.frame]? = some j := by
    rw [Store.next, h.size_eq, List.getElem?_concat_length]
  have hvs' := Value.Renamed.mono_all hvs hWV
  refine ⟨hnext, .bindAll hps hvs' hnext (h.enclose outer j), fun t k ht => ?_⟩
  have hgrows : s.Grows ((s.enclose outer).2.bindAll s.next (ps.zip vs)) := .enclose_bindAll ..
  obtain htn | ht' := Marks.of_concat ht
  · obtain rfl : t = s.next := congrArg Scope.mk (htn.trans h.size_eq.symm)
    cases hnext.symm.trans ht
    have hlayers := hs.grows h.size_eq hgrows hWV houter
    rw [s.chain_enclose_bindAll (h.frame_lt houter)]
    cases hj with
    | literal hx =>
      exact .literal hnext (isSome_get?_bindAll (s.size_enclose outer) hlen hx) hlayers
    | inward =>
      cases i with
      | true => exact .inside hnext hlayers
      | false =>
        cases hlayers with
        | outside hts => exact .outside (List.forall_mem_cons.2 ⟨hnext, hts⟩)
  · exact hs.grows h.size_eq hgrows hWV ht'

end

end LetFn
