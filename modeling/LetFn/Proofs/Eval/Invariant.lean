import LetFn.Proofs.Code
import LetFn.Proofs.Operator
import LetFn.Proofs.Eval.Task
import LetFn.Proofs.Store.Changes

/-!
# What evaluation keeps

Statements about all values of a run follow from what holds of code where it runs, and so of the
closures made there, and of the code of their bodies when they are called.

* `Invariant`: what holds of code and of closures, as long as the store only grows.
* `Invariant.value`, `Invariant.store`, `Invariant.task`: the same of values, of all that is bound
  and of tasks. `Invariant.Kept.plan` says that plans keep it, one task at a time.
* `Invariant.Kept.ends`, `Invariant.Kept.of_visits`: so runs keep it, up to their outcome and at
  every point on their way.
* `errorless`: that no value is an error, or hands one on.
-/

namespace LetFn

/-- A store after some scopes were made, and some names bound anew. -/
abbrev Store.Grows (s s' : Store) : Prop := s.Changes (fun _ _ => True) s'

/-- Something that holds of code where it runs, of the closures made there, of the faults among
values, and stays so while a store grows. -/
structure Invariant where
  code : Store → Scope → Code → Site → Prop
  closure : Store → Closure → Prop
  fault : Fault → Prop
  code_grows : ∀ {s s' scope c site}, s.Grows s' → code s scope c site → code s' scope c site
  closure_grows : ∀ {s s' c}, s.Grows s' → closure s c → closure s' c
  /-- The parts of a piece of code run where it does, but for the body of a function. -/
  code_child : ∀ {s scope c site i d}, code s scope c site → c.isFn = false →
    c.child? i = some d → code s scope d (site.child i)
  closure_made : ∀ {s scope xs b site}, code s scope (.expr (.fn xs b)) site →
    closure s ⟨⟨xs, b, site⟩, scope⟩
  /-- The body runs in a scope that is made for the call. -/
  code_body : ∀ {s c}, closure s c →
    code (s.enclose c.scope).2 s.next (.block c.body) (c.site.child 0)

namespace Invariant
variable (I : Invariant)

/-! ## Values, stores and tasks -/

/-- What holds of a value, or of the one that it hands on. -/
def value (s : Store) : Value → Prop
  | .returned v => value s v
  | .error f => I.fault f
  | .closure c => I.closure s c
  | .int _ | .bool _ | .str _ | .null | .builtin _ => True

/-- What holds of all that is bound. -/
def store (s : Store) : Prop := s.Every (I.value s)

/-- What holds of the values and the code of a task. -/
def task (s : Store) : Task → Prop
  | .expr scope e site => I.code s scope (.expr e) site
  | .sign _ v | .bind _ _ v | .give v => I.value s v
  | .right scope _ v r site => I.value s v ∧ I.code s scope (.expr r) site
  | .operator _ v w => I.value s v ∧ I.value s w
  | .branch scope _ yes no site =>
    I.code s scope (.block yes) (site.child 1) ∧
      ∀ n ∈ no, I.code s scope (.block n) (site.child 2)
  | .args scope callee done es site =>
    (∀ v ∈ callee :: done, I.value s v) ∧ I.code s scope (.args es) site
  | .call callee as => ∀ v ∈ callee :: as, I.value s v
  | .stmt scope t site => I.code s scope (.stmt t) site
  | .block scope v ss site | .rest scope v ss site =>
    I.value s v ∧ I.code s scope (.block ss) site

/-- What holds of all that a plan leads to. -/
def plan (s : Store) : Plan → Prop
  | .done o m => s.Grows m.store ∧ I.store m.store ∧ ∀ v, o = .ok v → I.value m.store v
  | .goOn t => I.task s t
  | .part t k => I.task s t ∧ ∀ s' v, s.Grows s' → I.value s' v → I.task s' (k v)
  | .enter _ t m => s.Grows m.store ∧ I.store m.store ∧ I.task m.store t

section
variable {I} {s s' : Store}

theorem value_grows (h : s.Grows s') : ∀ {v : Value}, I.value s v → I.value s' v
  | .returned v, hv => value_grows (v := v) h hv
  | .error _, hv => hv
  | .closure _, hv => I.closure_grows h hv
  | .int _, _ | .bool _, _ | .str _, _ | .null, _ | .builtin _, _ => trivial

theorem value_of_isScalar {v : Value} (h : v.IsScalar) : I.value s v := by
  cases v with
  | int | bool | str | null | builtin => trivial
  | returned | error | closure => exact h.elim

theorem value_of_unscoped {x : String} {v : Value} (h : unscoped x = .ok v) : I.value s v := by
  unfold unscoped at h
  split at h
  · cases h
    trivial
  · cases h

theorem value_unwrap {v : Value} (h : I.value s v) : I.value s v.unwrap := by
  cases v <;> exact h

theorem store_bind (h : I.store s) (scope : Scope) (x : String) {v : Value} (hv : I.value s v) :
    I.store (s.bind scope x v) := by
  have hgrows : s.Grows (s.bind scope x v) := .bind trivial v
  have hbound : s.Every (I.value (s.bind scope x v)) :=
    fun t y w hw => value_grows hgrows (h t y w hw)
  exact hbound.bind scope x (value_grows hgrows hv)

theorem store_enclose (h : I.store s) (outer : Scope) (xs : List String) {vs : List Value}
    (hvs : ∀ v ∈ vs, I.value s v) :
    I.store ((s.enclose outer).2.bindAll s.next (xs.zip vs)) := by
  have hgrows : s.Grows ((s.enclose outer).2.bindAll s.next (xs.zip vs)) := .enclose_bindAll ..
  have hbound : s.Every (I.value ((s.enclose outer).2.bindAll s.next (xs.zip vs))) :=
    fun t y w hw => value_grows hgrows (h t y w hw)
  exact (hbound.enclose outer).bindAll s.next xs vs fun v hv => value_grows hgrows (hvs v hv)

end

/-! ## Plans -/

/-- A point where it holds of all that is bound, and of the task. -/
structure Kept (p : Point) : Prop where
  bound : I.store p.machine.store
  held : I.task p.machine.store p.task

variable {I} {limit : Nat} {p q : Point}

theorem plan_done {s : Store} {o : Except Fault Value} {m : Machine} (hm : m.store = s)
    (hs : I.store s) (ho : ∀ v, o = .ok v → I.value s v) : I.plan s (.done o m) := by
  subst hm
  exact ⟨.refl _ _, hs, ho⟩

/-- Plans keep it, one task at a time. -/
theorem Kept.plan (hp : I.Kept p) (limit : Nat) : I.plan p.machine.store (p.plan limit) := by
  obtain ⟨left, t, m⟩ := p
  obtain ⟨hs, ht⟩ := hp
  change I.store m.store at hs
  change I.task m.store t at ht
  show I.plan m.store (t.plan limit left m)
  cases t with
  | expr scope e site =>
    have hchild : ∀ {i d}, (Code.expr e).isFn = false → (Code.expr e).child? i = some d →
        I.code m.store scope d (site.child i) := I.code_child ht
    cases e with
    | name x =>
      refine plan_done rfl hs fun v hv => ?_
      cases hx : m.store.lookup scope x with
      | some w =>
        rw [hx] at hv
        cases hv
        exact hs.lookup hx
      | none =>
        rw [hx] at hv
        exact value_of_unscoped hv
    | int | bool | str => exact plan_done rfl hs fun v hv => by cases hv; trivial
    | fn xs b => exact plan_done rfl hs fun v hv => by cases hv; exact I.closure_made ht
    | unary op e => exact ⟨hchild rfl rfl, fun s' v _ hv => hv⟩
    | binary op l r =>
      refine ⟨hchild rfl rfl, fun s' v hg hv => ⟨hv, ?_⟩⟩
      exact I.code_grows hg (hchild (i := 1) rfl rfl)
    | cond t y no =>
      refine ⟨hchild rfl rfl, fun s' v hg _ => ⟨?_, fun n hn => ?_⟩⟩
      · exact I.code_grows hg (hchild (i := 1) rfl rfl)
      · cases hn
        exact I.code_grows hg (hchild (i := 2) rfl rfl)
    | call f as =>
      refine ⟨hchild rfl rfl, fun s' v hg hv => ⟨?_, ?_⟩⟩
      · exact List.forall_mem_singleton.2 hv
      · exact I.code_grows hg (hchild (i := 1) rfl rfl)
  | sign op v =>
    exact plan_done rfl hs fun w hw => value_of_isScalar (isScalar_of_unary hw)
  | right scope op v r site => exact ⟨ht.2, fun s' w hg hw => ⟨value_grows hg ht.1, hw⟩⟩
  | operator op v w =>
    exact plan_done rfl hs fun u hu => value_of_isScalar (isScalar_of_binary hu)
  | branch scope v yes no site =>
    show I.plan _ (if v.truthy then _ else _)
    split
    · exact ⟨trivial, ht.1⟩
    · cases no with
      | none => exact plan_done rfl hs fun w hw => by cases hw; trivial
      | some n => exact ⟨trivial, ht.2 n rfl⟩
  | args scope callee done es site =>
    cases es with
    | nil => exact ht.1
    | cons e es =>
      refine ⟨I.code_child ht.2 rfl rfl, fun s' v hg hv => ⟨?_, ?_⟩⟩
      · rw [← List.cons_append, List.forall_mem_append]
        exact ⟨fun w hw => value_grows hg (ht.1 w hw), List.forall_mem_singleton.2 hv⟩
      · exact I.code_grows hg (I.code_child (i := 1) ht.2 rfl rfl)
  | call v as =>
    cases v with
    | closure c =>
      show I.plan _ (if as.length ≠ c.params.length then _ else _)
      split
      · exact plan_done rfl hs fun w hw => by cases hw
      · cases left with
        | zero => exact plan_done rfl hs fun w hw => by cases hw
        | succ left =>
          obtain ⟨hc, has⟩ := List.forall_mem_cons.1 ht
          refine ⟨.enclose_bindAll .., store_enclose hs c.scope c.params has, trivial, ?_⟩
          exact I.code_grows (.bindAll (fun _ => trivial) _) (I.code_body hc)
    | builtin b =>
      obtain ⟨o, sink, hrun, hnull⟩ := b.exists_run as m
      show I.plan _ (.done ((b.run as).run m).1 ((b.run as).run m).2)
      rw [hrun]
      refine plan_done rfl hs fun w hw => ?_
      rw [hnull w hw]
      trivial
    | int | bool | str | null | returned | error =>
      exact plan_done rfl hs fun w hw => by cases hw
  | stmt scope t site =>
    cases t with
    | bind x e => exact ⟨I.code_child ht rfl rfl, fun s' v hg hv => hv⟩
    | ret e => exact ⟨I.code_child ht rfl rfl, fun s' v hg hv => hv⟩
    | expr e => exact I.code_child (i := 0) ht rfl rfl
  | bind scope x v =>
    exact ⟨.bind trivial v, store_bind hs scope x ht, fun w hw => by cases hw; trivial⟩
  | give v => exact plan_done rfl hs fun w hw => by cases hw; exact ht
  | block scope last ss site =>
    cases ss with
    | nil => exact plan_done rfl hs fun w hw => by cases hw; exact ht.1
    | cons t ss =>
      refine ⟨I.code_child (i := 0) ht.2 rfl rfl, fun s' v hg hv => ⟨hv, ?_⟩⟩
      exact I.code_grows hg (I.code_child (i := 1) ht.2 rfl rfl)
  | rest scope v ss site =>
    show I.plan _ (if v.isReturned then _ else _)
    split
    · exact plan_done rfl hs fun w hw => by cases hw; exact ht.1
    · exact ht

/-! ## Runs -/

/-- What a point comes to: a store that has grown and where it holds of all that is bound, and of
the value, if it comes to one. -/
structure Ends (limit : Nat) (p : Point) : Prop where
  grows : p.machine.store.Grows (p.run limit).2.store
  bound : I.store (p.run limit).2.store
  value : ∀ v, (p.run limit).1 = .ok v → I.value (p.run limit).2.store v

/-- It holds of the value that leaves a body. -/
theorem Ends.value_of_map (h : I.Ends limit p) {v : Value}
    (hv : (p.run limit).1.map Value.unwrap = .ok v) : I.value (p.run limit).2.store v := by
  cases hr : (p.run limit).1 with
  | error f =>
    rw [hr] at hv
    cases hv
  | ok w =>
    rw [hr] at hv
    cases hv
    exact value_unwrap (h.value w hr)

theorem Kept.part {t : Task} {k : Value → Task} (hp : I.Kept p) (h : p.plan limit = .part t k) :
    I.Kept (p.turn t p.machine) := by
  have hplan := hp.plan limit
  rw [h] at hplan
  exact ⟨hp.bound, hplan.1⟩

/-- What a point leads to keeps it, if the first part of its task does. -/
theorem Kept.of_starts (hp : I.Kept p) (h : p.Starts limit q)
    (hpart : ∀ t k, p.plan limit = .part t k → I.Ends limit (p.turn t p.machine)) : I.Kept q := by
  have hplan := hp.plan limit
  cases h with
  | goOn h =>
    rw [h] at hplan
    exact ⟨hp.bound, hplan⟩
  | part h => exact hp.part h
  | @next t k v m h hv =>
    obtain ⟨hgrows, hbound, hvalue⟩ := hpart t k h
    rw [h] at hplan
    rw [hv] at hgrows hbound hvalue
    exact ⟨hbound, hplan.2 m.store v hgrows (hvalue v rfl)⟩
  | enter h =>
    rw [h] at hplan
    exact ⟨hplan.2.1, hplan.2.2⟩

/-- Runs keep it up to their outcome. -/
theorem Kept.ends (hp : I.Kept p) (limit : Nat) : I.Ends limit p := by
  induction p using Point.induction limit with
  | h p ih =>
    have hpart : ∀ t k, p.plan limit = .part t k → I.Ends limit (p.turn t p.machine) :=
      fun t k h => ih _ (.part h) (hp.part h)
    have hstep : ∀ q, p.Starts limit q → I.Ends limit q :=
      fun q hq => ih q hq (hp.of_starts hq hpart)
    have hplan := hp.plan limit
    cases h : p.plan limit with
    | done o m =>
      rw [h] at hplan
      refine ⟨?_, ?_, ?_⟩ <;> rw [Point.run_of_done h]
      · exact hplan.1
      · exact hplan.2.1
      · exact hplan.2.2
    | goOn t =>
      have ht := hstep _ (.goOn h)
      refine ⟨?_, ?_, ?_⟩ <;> rw [Point.run_of_goOn h]
      · exact ht.grows
      · exact ht.bound
      · exact ht.value
    | part t k =>
      obtain ⟨hgrows, hbound, hvalue⟩ := hpart t k h
      rcases hr : (p.turn t p.machine).run limit with ⟨f | v, m⟩
      · rw [hr] at hgrows hbound
        refine ⟨?_, ?_, ?_⟩ <;> rw [Point.run_of_part_error h hr]
        · exact hgrows
        · exact hbound
        · exact nofun
      · have hnext := hstep _ (.next h hr)
        rw [hr] at hgrows
        refine ⟨?_, ?_, ?_⟩ <;> rw [Point.run_of_next h hr]
        · exact hgrows.trans hnext.grows fun _ _ _ => id
        · exact hnext.bound
        · exact hnext.value
    | enter left t m =>
      rw [h] at hplan
      have ht := hstep _ (.enter h)
      refine ⟨?_, ?_, ?_⟩ <;> rw [Point.run_of_enter h]
      · exact hplan.1.trans ht.grows fun _ _ _ => id
      · exact ht.bound
      · exact fun v hv => ht.value_of_map hv

/-- Every point of a run keeps it. -/
theorem Kept.of_visits (hp : I.Kept p) (h : p.Visits limit q) : I.Kept q := by
  induction h with
  | refl => exact hp
  | tail _ hstarts ih => exact ih.of_starts hstarts fun t k hplan => (ih.part hplan).ends limit

end Invariant

/-! ## Errors among values -/

/-- No error is a value, or is handed on by it. -/
def Value.Errorless : Value → Prop
  | .returned v => v.Errorless
  | .error _ => False
  | .int _ | .bool _ | .str _ | .null | .closure _ | .builtin _ => True

theorem Value.Errorless.type_ne {v : Value} (h : v.Errorless) : v.type ≠ .error := by
  cases v with
  | error => exact h.elim
  | int | bool | str | null | returned | closure | builtin => exact nofun

/-- Code gives no errors as values. -/
def errorless : Invariant where
  code _ _ _ _ := True
  closure _ _ := True
  fault _ := False
  code_grows _ h := h
  closure_grows _ h := h
  code_child _ _ _ := trivial
  closure_made _ := trivial
  code_body _ := trivial

theorem errorless_value_iff {s : Store} : ∀ {v : Value}, errorless.value s v ↔ v.Errorless
  | .returned v => errorless_value_iff (v := v)
  | .error _ => Iff.rfl
  | .int _ | .bool _ | .str _ | .null | .closure _ | .builtin _ => Iff.rfl

end LetFn
