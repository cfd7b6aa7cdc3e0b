import LetFn.Proofs.Store.Plain
import Mathlib.Logic.Relation

/-!
# Scopes linked to their parents

The plainest store: a scope knows the scope that it was made in, and each value that was bound in it
as it was bound. A name is looked up from parent to parent. Whatever is done with a `Store` through
handles on its scopes, it cannot be told from such a one.

* `LinkedStore`: scopes with their parents; `LinkedStore.lookup` has no answer if it would go round
  in circles.
* `Scoping`: what can be done with either kind of store.
* `Operation`, `Client.perform`: what a holder of handles can do.
* `Store.Agrees`: both stores hold the same; every operation keeps it, and by `Store.Agrees.lookup`
  both find the same. By `Store.Agrees.frame_lt` no scope lies around itself.
-/

namespace LetFn

/-! ## The linked store -/

/-- A scope: the one that it was made in, and what was bound in it, the latest first. -/
structure LinkedScope where
  parent : Option Scope
  bound : List (String × Value)

/-- The scopes in the order in which they were made. -/
structure LinkedStore where
  scopes : List LinkedScope

namespace LinkedStore

def empty : LinkedStore := ⟨[]⟩

/-- The scope that is made next. -/
def next (s : LinkedStore) : Scope := ⟨s.scopes.length⟩

/-- A new scope with a parent or without. -/
def add (s : LinkedStore) (parent : Option Scope) : Scope × LinkedStore :=
  (s.next, ⟨s.scopes ++ [⟨parent, []⟩]⟩)

/-- A change to what was bound in a scope. -/
def update (s : LinkedStore) (scope : Scope)
    (change : List (String × Value) → List (String × Value)) : LinkedStore :=
  ⟨s.scopes.modify scope.frame fun f => { f with bound := change f.bound }⟩

/-- What a name is bound to in the first `steps` scopes on the way from parent to parent, if the way
ends or comes to a binding by then. -/
def lookupWithin (s : LinkedStore) (x : String) : (steps : Nat) → Scope → Option (Option Value)
  | 0, _ => none
  | steps + 1, scope => do
    let f ← s.scopes[scope.frame]?
    match f.bound.lookup x with
    | some v => return some v
    | none =>
      match f.parent with
      | none => return none
      | some p => s.lookupWithin x steps p

/-- What a name is bound to, in the scope itself or else in its parent. Nothing keeps a store from
going round in circles: a way through more scopes than there are has no end, and gives no answer. -/
def lookup (s : LinkedStore) (scope : Scope) (x : String) : Option (Option Value) :=
  s.lookupWithin x s.scopes.length scope

/-- The scope `p` is the parent of `t`. -/
def Parent (s : LinkedStore) (t p : Scope) : Prop :=
  ∃ f, s.scopes[t.frame]? = some f ∧ f.parent = some p

theorem getElem?_add (s : LinkedStore) (parent : Option Scope) (t : Scope) :
    (s.add parent).2.scopes[t.frame]? =
      if t = s.next then some ⟨parent, []⟩ else s.scopes[t.frame]? := by
  obtain ⟨i⟩ := t
  simp only [add, next, Scope.mk.injEq, List.getElem?_append]
  split
  · next hlt => rw [if_neg (Nat.ne_of_lt hlt)]
  · next hle =>
    split
    · next heq => simp [heq]
    · next hne =>
      rw [List.getElem?_eq_none (Nat.le_of_not_lt hle), List.getElem?_eq_none]
      simp only [List.length_singleton]
      omega

theorem getElem?_update (s : LinkedStore) (scope t : Scope)
    (change : List (String × Value) → List (String × Value)) :
    (s.update scope change).scopes[t.frame]? =
      (s.scopes[t.frame]?).map fun f =>
        if scope = t then { f with bound := change f.bound } else f := by
  obtain ⟨i⟩ := t
  obtain ⟨j⟩ := scope
  simp only [update, List.getElem?_modify, Scope.mk.injEq]
  rfl

end LinkedStore

/-! ## Operations on either store -/

/-- What can be done with a store of scopes. -/
class Scoping (σ : Type) where
  empty : σ
  fresh : σ → Scope × σ
  enclose : σ → Scope → Scope × σ
  bind : σ → Scope → String → Value → σ
  clear : σ → Scope → σ
  lookup : σ → Scope → String → Option (Option Value)

instance : Scoping Store where
  empty := .empty
  fresh := Store.fresh
  enclose := Store.enclose
  bind := .bind
  clear := .clear
  lookup s scope x := some (s.lookup scope x)

instance : Scoping LinkedStore where
  empty := .empty
  fresh s := s.add none
  enclose s outer := s.add (some outer)
  bind s scope x v := s.update scope ((x, v) :: ·)
  clear s scope := s.update scope fun _ => []
  lookup := LinkedStore.lookup

/-- A store, and the handles on its scopes that its user holds. -/
structure Client (σ : Type) where
  store : σ
  handles : List Scope

/-- What a user can do with the handles held, by their numbers: make a scope, of its own or inside
another, make a second handle on a scope, bind a value, a function of any scope included, bind the
value found under a name, clear a scope. -/
inductive Operation
  | fresh
  | enclose (h : Nat)
  | clone (h : Nat)
  | bind (h : Nat) (x : String) (v : Value)
  | copy (h : Nat) (x : String) (k : Nat) (y : String)
  | clear (h : Nat)

namespace Client
variable {σ : Type}

/-- The same user with one more handle. -/
def hold (c : Client σ) (r : Scope × σ) : Client σ := ⟨r.2, c.handles ++ [r.1]⟩

/-- What is done through a handle, if it is held. -/
def through (c : Client σ) (h : Nat) (act : Scope → Client σ) : Client σ :=
  (c.handles[h]?).elim c act

variable [Scoping σ]

/-- The user after an operation. -/
def perform (c : Client σ) : Operation → Client σ
  | .fresh => c.hold (Scoping.fresh c.store)
  | .enclose h => c.through h fun t => c.hold (Scoping.enclose c.store t)
  | .clone h => c.through h fun t => c.hold (t, c.store)
  | .bind h x v => c.through h fun t => { c with store := Scoping.bind c.store t x v }
  | .copy h x k y =>
    c.through h fun t => c.through k fun u =>
      match Scoping.lookup c.store t x with
      | some (some v) => { c with store := Scoping.bind c.store u y v }
      | _ => c
  | .clear h => c.through h fun t => { c with store := Scoping.clear c.store t }

variable (σ) in
/-- The user of a new store after some operations. -/
def after (ops : List Operation) : Client σ := ops.foldl perform ⟨Scoping.empty, []⟩

end Client

/-! ## Stores that hold the same -/

/-- The scopes of a store have the same bindings in the linked one, and lie around each other as the
parents there say. A parent was made before. -/
structure Store.Agrees (s : Store) (r : LinkedStore) : Prop where
  size_eq : r.scopes.length = s.frames.size
  bound : ∀ t f, r.scopes[t.frame]? = some f → ∀ x, f.bound.lookup x = s.get? t x
  outer : ∀ t f, r.scopes[t.frame]? = some f → (s.frame t).outer = f.parent.elim [] s.chain
  older : ∀ t p, r.Parent t p → p.frame < t.frame

namespace Store

theorem agrees_empty : empty.Agrees .empty where
  size_eq := rfl
  bound t f h := by cases h
  outer t f h := by cases h
  older t p h := by
    obtain ⟨f, hf, -⟩ := h
    cases hf

namespace Agrees
variable {s : Store} {r : LinkedStore}

theorem exists_scope (h : s.Agrees r) {t : Scope} (ht : t.frame < s.frames.size) :
    ∃ f, r.scopes[t.frame]? = some f :=
  ⟨_, List.getElem?_eq_getElem (h.size_eq ▸ ht)⟩

theorem lt_of_scope (h : s.Agrees r) {t : Scope} {f : LinkedScope}
    (hf : r.scopes[t.frame]? = some f) : t.frame < s.frames.size := by
  rw [← h.size_eq]
  exact (List.getElem?_eq_some_iff.1 hf).1

/-- More steps than the scope's number are enough: each parent was made before. -/
theorem lookupWithin (h : s.Agrees r) (x : String) {steps : Nat} {t : Scope}
    (hsteps : t.frame < steps) (ht : t.frame < s.frames.size) :
    r.lookupWithin x steps t = some (s.lookup t x) := by
  induction steps generalizing t with
  | zero => exact absurd hsteps (Nat.not_lt_zero _)
  | succ steps ih =>
    obtain ⟨f, hf⟩ := h.exists_scope ht
    have hbound := h.bound t f hf x
    have houter := h.outer t f hf
    rw [LinkedStore.lookupWithin, hf, Store.lookup, chain, List.findSome?_cons, houter, ← hbound]
    cases hx : f.bound.lookup x with
    | some v => simp [hx]
    | none =>
      cases hp : f.parent with
      | none => simp [hx, hp]
      | some p =>
        have hlt := h.older t p ⟨f, hf, hp⟩
        have hparent := ih (Nat.lt_of_lt_of_le hlt (Nat.le_of_lt_succ hsteps)) (Nat.lt_trans hlt ht)
        simp only [Option.bind_eq_bind, Option.bind_some, hx, hp, hparent]
        rfl

/-- Both find the same under a name, and the linked store comes to an end. -/
theorem lookup (h : s.Agrees r) {t : Scope} (ht : t.frame < s.frames.size) (x : String) :
    r.lookup t x = some (s.lookup t x) :=
  h.lookupWithin x (h.size_eq ▸ ht) ht

/-- The scopes around a scope were made before it, so it is none of them. -/
theorem frame_lt (h : s.Agrees r) (t : Scope) : ∀ u ∈ (s.frame t).outer, u.frame < t.frame := by
  induction hn : t.frame using Nat.strongRecOn generalizing t with
  | ind n ih =>
    subst hn
    intro u hu
    by_cases ht : t.frame < s.frames.size
    · obtain ⟨f, hf⟩ := h.exists_scope ht
      rw [h.outer t f hf] at hu
      cases hp : f.parent with
      | none =>
        rw [hp] at hu
        cases hu
      | some p =>
        have hlt := h.older t p ⟨f, hf, hp⟩
        rw [hp] at hu
        obtain rfl | hu := List.mem_cons.1 hu
        · exact hlt
        · exact Nat.lt_trans (ih p.frame hlt p rfl u hu) hlt
    · rw [frame_of_size_le (Nat.le_of_not_lt ht)] at hu
      cases hu

/-- No scope is its own parent, or the parent of one that it is the parent of, and so on. -/
theorem not_transGen (h : s.Agrees r) (t : Scope) : ¬ Relation.TransGen r.Parent t t := by
  have hlt : ∀ u, Relation.TransGen r.Parent t u → u.frame < t.frame := by
    intro u hu
    induction hu with
    | single hp => exact h.older _ _ hp
    | tail _ hp ih => exact Nat.lt_trans (h.older _ _ hp) ih
  exact fun ht => Nat.lt_irrefl _ (hlt t ht)

/-! ### Operations -/

/-- A new scope, which is the same in both stores. -/
theorem add (h : s.Agrees r) {parent : Option Scope} {s' : Store}
    (hparent : ∀ p ∈ parent, p.frame < s.frames.size)
    (hsize : s'.frames.size = s.frames.size + 1)
    (hframe : ∀ t, s'.frame t =
      if t = s.next then .inside (parent.elim [] s.chain) else s.frame t) :
    s'.Agrees (r.add parent).2 := by
  have hnext : r.next = s.next := congrArg Scope.mk h.size_eq
  have hold : ∀ t : Scope, t.frame < s.frames.size → s'.frame t = s.frame t := by
    intro t ht
    rw [hframe, if_neg]
    rintro rfl
    exact Nat.lt_irrefl _ ht
  have hchain : ∀ p ∈ parent, s'.chain p = s.chain p := fun p hp => by
    rw [chain, hold p (hparent p hp), chain]
  refine ⟨?_, fun t f hf x => ?_, fun t f hf => ?_, ?_⟩
  · rw [hsize, ← h.size_eq]
    exact List.length_append
  · rw [LinkedStore.getElem?_add, hnext] at hf
    rw [get?, hframe]
    split at hf
    · next ht =>
      cases hf
      rw [if_pos ht]
      rfl
    · next ht =>
      rw [if_neg ht]
      exact h.bound t f hf x
  · rw [LinkedStore.getElem?_add, hnext] at hf
    rw [hframe]
    split at hf
    · next ht =>
      cases hf
      rw [if_pos ht]
      cases parent with
      | none => rfl
      | some p => exact (hchain p rfl).symm
    · next ht =>
      rw [if_neg ht, h.outer t f hf]
      cases hp : f.parent with
      | none => rfl
      | some p =>
        have hlt := Nat.lt_trans (h.older t p ⟨f, hf, hp⟩) (h.lt_of_scope hf)
        show s.chain p = s'.chain p
        rw [chain, chain, hold p hlt]
  · rintro t p ⟨f, hf, hp⟩
    rw [LinkedStore.getElem?_add, hnext] at hf
    split at hf
    · next ht =>
      cases hf
      rw [ht]
      exact hparent p hp
    · exact h.older t p ⟨f, hf, hp⟩

/-- A change to the bindings of one scope. -/
theorem update (h : s.Agrees r) {scope : Scope} {s' : Store}
    {change : List (String × Value) → List (String × Value)}
    (hsize : s'.frames.size = s.frames.size)
    (houter : ∀ t, (s'.frame t).outer = (s.frame t).outer)
    (hother : ∀ t, t ≠ scope → ∀ x, s'.get? t x = s.get? t x)
    (hscope : ∀ bound, (∀ x, bound.lookup x = s.get? scope x) →
      ∀ x, (change bound).lookup x = s'.get? scope x) :
    s'.Agrees (r.update scope change) := by
  have hchain : s'.chain = s.chain := funext fun t => congrArg (t :: ·) (houter t)
  refine ⟨?_, fun t f hf x => ?_, fun t f hf => ?_, ?_⟩
  · rw [hsize, ← h.size_eq]
    exact List.length_modify ..
  · rw [LinkedStore.getElem?_update, Option.map_eq_some_iff] at hf
    obtain ⟨g, hg, rfl⟩ := hf
    split
    · next ht =>
      subst ht
      exact hscope g.bound (h.bound scope g hg) x
    · next ht =>
      rw [hother t (Ne.symm ht)]
      exact h.bound t g hg x
  · rw [LinkedStore.getElem?_update, Option.map_eq_some_iff] at hf
    obtain ⟨g, hg, rfl⟩ := hf
    rw [houter, h.outer t g hg, hchain]
    split <;> rfl
  · rintro t p ⟨f, hf, hp⟩
    rw [LinkedStore.getElem?_update, Option.map_eq_some_iff] at hf
    obtain ⟨g, hg, rfl⟩ := hf
    refine h.older t p ⟨g, hg, ?_⟩
    split at hp <;> exact hp

theorem fresh (h : s.Agrees r) : s.fresh.2.Agrees (r.add none).2 := by
  refine h.add nofun (Array.size_push _) fun t => ?_
  rw [frame_fresh]
  split
  · next ht =>
    rw [ht]
    exact frame_of_size_le (Nat.le_refl _)
  · rfl

theorem enclose (h : s.Agrees r) {outer : Scope} (houter : outer.frame < s.frames.size) :
    (s.enclose outer).2.Agrees (r.add (some outer)).2 := by
  refine h.add ?_ (Array.size_push _) (s.frame_enclose outer)
  rintro _ ⟨⟩
  exact houter

theorem bind (h : s.Agrees r) {scope : Scope} (hscope : scope.frame < s.frames.size) (x : String)
    (v : Value) : (s.bind scope x v).Agrees (r.update scope ((x, v) :: ·)) := by
  refine h.update (s.size_bind scope x v) (s.outer_frame_bind scope · x v) (fun t ht y => ?_)
    fun bound hbound y => ?_
  · rw [get?_bind s scope t x y v hscope, if_neg fun hc => ht hc.1]
  · rw [get?_bind s scope scope x y v hscope, List.lookup_cons]
    by_cases hy : y = x
    · simp [hy]
    · have hne : (y == x) = false := beq_eq_false_iff_ne.2 hy
      simp [hy, hne, hbound]

theorem clear (h : s.Agrees r) (scope : Scope) :
    (s.clear scope).Agrees (r.update scope fun _ => []) := by
  refine h.update (Array.size_modify ..) (fun t => ?_) (fun t ht x => ?_) fun bound _ x => ?_
  · rw [frame_clear]
    split <;> rfl
  · rw [get?, frame_clear, if_neg ht, get?]
  · rw [get?, frame_clear, if_pos rfl]
    rfl

end Agrees

end Store

/-! ## Users of both stores -/

/-- Both users hold the same handles, on scopes of stores that hold the same. -/
structure Client.Agrees (c : Client Store) (d : Client LinkedStore) : Prop where
  handles_eq : d.handles = c.handles
  store : c.store.Agrees d.store
  made : ∀ t ∈ c.handles, t.frame < c.store.frames.size

namespace Client.Agrees
variable {c : Client Store} {d : Client LinkedStore}

theorem hold (h : c.Agrees d) {r : Scope × Store} {r' : Scope × LinkedStore} (hscope : r'.1 = r.1)
    (hstore : r.2.Agrees r'.2) (hle : c.store.frames.size ≤ r.2.frames.size)
    (hmade : r.1.frame < r.2.frames.size) : (c.hold r).Agrees (d.hold r') where
  handles_eq := by
    rw [Client.hold, Client.hold, h.handles_eq, hscope]
  store := hstore
  made t ht := by
    obtain ht | ht := List.mem_append.1 ht
    · exact Nat.lt_of_lt_of_le (h.made t ht) hle
    · rw [List.mem_singleton.1 ht]
      exact hmade

theorem through (h : c.Agrees d) (k : Nat) {act : Scope → Client Store}
    {act' : Scope → Client LinkedStore}
    (hact : ∀ t, t.frame < c.store.frames.size → (act t).Agrees (act' t)) :
    (c.through k act).Agrees (d.through k act') := by
  rw [Client.through, Client.through, h.handles_eq]
  cases hk : c.handles[k]? with
  | none => exact h
  | some t => exact hact t (h.made t (List.mem_of_getElem? hk))

theorem set (h : c.Agrees d) {s : Store} {r : LinkedStore} (hstore : s.Agrees r)
    (hsize : s.frames.size = c.store.frames.size) :
    Agrees { c with store := s } { d with store := r } :=
  ⟨h.handles_eq, hstore, fun t ht => hsize ▸ h.made t ht⟩

/-- An operation does the same through the handles of both. -/
theorem perform (h : c.Agrees d) (op : Operation) : (c.perform op).Agrees (d.perform op) := by
  have hnext : d.store.next = c.store.next := congrArg Scope.mk h.store.size_eq
  have hpush : ∀ f, c.store.frames.size < (c.store.frames.push f).size := fun f => by
    rw [Array.size_push]
    exact Nat.lt_succ_self _
  cases op with
  | fresh => exact h.hold hnext h.store.fresh (Nat.le_of_lt (hpush _)) (hpush _)
  | enclose k =>
    exact h.through k fun t ht =>
      h.hold hnext (h.store.enclose ht) (Nat.le_of_lt (hpush _)) (hpush _)
  | clone k => exact h.through k fun t ht => h.hold rfl h.store (Nat.le_refl _) ht
  | bind k x v =>
    exact h.through k fun t ht => h.set (h.store.bind ht x v) (c.store.size_bind t x v)
  | copy k x l y =>
    refine h.through k fun t ht => h.through l fun u hu => ?_
    -- the same value is found in both, if any
    show Agrees (match some (c.store.lookup t x) with | some (some v) => _ | _ => _)
      (match d.store.lookup t x with | some (some v) => _ | _ => _)
    rw [h.store.lookup ht]
    cases c.store.lookup t x with
    | none => exact h
    | some v => exact h.set (h.store.bind hu y v) (c.store.size_bind u y v)
  | clear k => exact h.through k fun t ht => h.set (h.store.clear t) (Array.size_modify ..)

theorem foldl (h : c.Agrees d) (ops : List Operation) :
    (ops.foldl Client.perform c).Agrees (ops.foldl Client.perform d) := by
  induction ops generalizing c d with
  | nil => exact h
  | cons op ops ih => exact ih (h.perform op)

end Client.Agrees

/-- Whatever is done with new stores of either kind, the same handles are held, and through each of
them both find the same value under a name: the very one, so that equality between values agrees as
well. Looking up always ends: no scope lies around itself. -/
theorem Store.lookup_eq_linked (ops : List Operation) :
    (Client.after LinkedStore ops).handles = (Client.after Store ops).handles ∧
      (∀ t ∈ (Client.after Store ops).handles, ∀ x,
        (Client.after LinkedStore ops).store.lookup t x =
          some ((Client.after Store ops).store.lookup t x)) ∧
      (∀ t ∈ (Client.after Store ops).handles, ∀ u ∈ (Client.after Store ops).handles,
        ∀ x y v w, (Client.after LinkedStore ops).store.lookup t x = some v →
          (Client.after LinkedStore ops).store.lookup u y = some w →
          Value.sameFound ((Client.after Store ops).store.lookup t x)
            ((Client.after Store ops).store.lookup u y) = Value.sameFound v w) ∧
      (∀ t, ¬ Relation.TransGen (Client.after LinkedStore ops).store.Parent t t) ∧
      ∀ t, ∀ u ∈ ((Client.after Store ops).store.frame t).outer, u.frame < t.frame := by
  have hstart : Client.Agrees ⟨Scoping.empty, []⟩ ⟨Scoping.empty, []⟩ :=
    ⟨rfl, agrees_empty, fun t ht => by cases ht⟩
  have h : (Client.after Store ops).Agrees (Client.after LinkedStore ops) := hstart.foldl ops
  have hlookup := fun t ht x => h.store.lookup (h.made t ht) x
  refine ⟨h.handles_eq, hlookup, fun t ht u hu x y v w hv hw => ?_, h.store.not_transGen,
    h.store.frame_lt⟩
  rw [hlookup t ht, Option.some.injEq] at hv
  rw [hlookup u hu, Option.some.injEq] at hw
  rw [hv, hw]

end LetFn
