import LetFn.Proofs.Eval.Task
import LetFn.Proofs.Store.Changes

/-!
# What a run can bind

Code binds names in the scope that it runs in, and nowhere else among the scopes that there were.

* `Block.lets`: the names that the `let` statements of some code bind, those of functions left out.
* `Task.Writes`: the names that a task may bind, and where; `Task.changes_of_done` says that it binds
  no others, `Task.plan_under` that neither does what its plan leads to.
* `Point.run_changes`: so a run changes nothing else. `Point.Follows` is what comes with every point
  of a run.
* `Point.Before`: the points of a run that are done before others start. By
  `Point.Before.frame_eq` the scopes made by then stay as they are.
* `eval_onlyBinds`: the same of programs, expressions and calls.
-/

namespace LetFn

/-! ## The names that code binds -/

mutual

/-- The names bound by `let` statements in an expression, those inside of functions left out. -/
def Expr.lets : Expr → List String
  | .name _ | .int _ | .bool _ | .str _ | .fn _ _ => []
  | .unary _ e => e.lets
  | .binary _ l r => l.lets ++ r.lets
  | .cond t y none => t.lets ++ Block.lets y
  | .cond t y (some n) => t.lets ++ (Block.lets y ++ Block.lets n)
  | .call f as => f.lets ++ Expr.letsAll as
termination_by structural e => e

def Expr.letsAll : List Expr → List String
  | [] => []
  | e :: es => e.lets ++ Expr.letsAll es

def Stmt.lets : Stmt → List String
  | .bind x e => x :: e.lets
  | .ret e | .expr e => e.lets

def Block.lets : List Stmt → List String
  | [] => []
  | s :: ss => s.lets ++ Block.lets ss

end

def Program.lets (p : Program) : List String := Block.lets p.statements

/-! ## The names that a task may bind -/

namespace Task

/-- The scope that a task runs in. -/
def scope? : Task → Option Scope
  | .expr scope _ _ | .right scope _ _ _ _ | .branch scope _ _ _ _ | .args scope _ _ _ _
  | .stmt scope _ _ | .bind scope _ _ | .block scope _ _ _ | .rest scope _ _ _ => some scope
  | .sign .. | .operator .. | .call .. | .give .. => none

/-- The names that a task binds in its scope, if it comes to that. -/
def lets : Task → List String
  | .expr _ e _ => e.lets
  | .right _ _ _ r _ => r.lets
  | .branch _ _ yes none _ => Block.lets yes
  | .branch _ _ yes (some no) _ => Block.lets yes ++ Block.lets no
  | .args _ _ _ es _ => Expr.letsAll es
  | .stmt _ s _ => s.lets
  | .bind _ x _ => [x]
  | .block _ _ ss _ | .rest _ _ ss _ => Block.lets ss
  | .sign .. | .operator .. | .call .. | .give .. => []

/-- The names that a task may bind, and where. -/
def Writes (t : Task) (scope : Scope) (x : String) : Prop := t.scope? = some scope ∧ x ∈ t.lets

/-- The scope of a task was made. -/
def InStore (t : Task) (s : Store) : Prop := ∀ scope ∈ t.scope?, scope.frame < s.frames.size

/-- A task that runs in the scope of another, or in none, and binds no other names. -/
structure Under (t u : Task) : Prop where
  scope : ∀ scope ∈ t.scope?, scope ∈ u.scope?
  lets : t.lets ⊆ u.lets

theorem Under.of_eq {t u : Task} (hs : t.scope? = u.scope?) (hl : t.lets ⊆ u.lets) : t.Under u :=
  ⟨fun _ h => hs ▸ h, hl⟩

theorem Under.of_none {t u : Task} (hs : t.scope? = none) (hl : t.lets = []) : t.Under u where
  scope scope h := by
    rw [hs] at h
    cases h
  lets := hl ▸ List.nil_subset _

theorem Under.writes {t u : Task} (h : t.Under u) {scope : Scope} {x : String}
    (hx : t.Writes scope x) : u.Writes scope x := ⟨h.scope scope hx.1, h.lets hx.2⟩

theorem Under.inStore {t u : Task} (h : t.Under u) {s s' : Store} (hu : u.InStore s)
    (hle : s.frames.size ≤ s'.frames.size) : t.InStore s' := fun scope hs =>
  Nat.lt_of_lt_of_le (hu scope (h.scope scope hs)) hle

end Task

/-- What a plan leads to in the same call is under the task. -/
def Plan.Under (t : Task) : Plan → Prop
  | .goOn u => u.Under t
  | .part u k => u.Under t ∧ ∀ v, (k v).Under t
  | .done _ _ | .enter _ _ _ => True

namespace Task
variable {limit left left' : Nat} {t u : Task} {o : Except Fault Value} {m m' : Machine}

theorem changes_of_done (h : t.plan limit left m = .done o m') :
    m.store.Changes t.Writes m'.store := by
  obtain rfl | ⟨scope, x, v, rfl, rfl⟩ | ⟨b, as, rfl, rfl⟩ := machine_of_plan_done h
  · exact .refl _ _
  · exact .bind ⟨rfl, List.mem_singleton_self x⟩ v
  · obtain ⟨o, sink, hrun, -⟩ := b.exists_run as m
    rw [hrun]
    exact .refl _ _

/-- A call runs its body in a new scope, and changes none of those that there were. -/
theorem changes_of_enter (h : t.plan limit left m = .enter left' u m') :
    u.scope? = some m.store.next ∧ u.InStore m'.store ∧ ∀ W, m.store.Changes W m'.store := by
  obtain ⟨c, as, -, -, -, rfl, rfl⟩ := exists_of_plan_enter h
  refine ⟨rfl, ?_, fun W => .enclose_bindAll W _ _ _⟩
  rintro _ ⟨⟩
  exact Store.size_enclose_bindAll _ _ _

theorem plan_under (limit left : Nat) (m : Machine) (t : Task) :
    (t.plan limit left m).Under t := by
  cases t with
  | expr scope e site =>
    cases e with
    | name | int | bool | str | fn => trivial
    | unary op e => exact ⟨.of_eq rfl (List.Subset.refl _), fun v => .of_none rfl rfl⟩
    | cond t y no =>
      cases no <;> exact ⟨.of_eq rfl (List.subset_append_left _ _),
        fun v => .of_eq rfl (List.subset_append_right _ _)⟩
    | binary | call =>
      exact ⟨.of_eq rfl (List.subset_append_left _ _),
        fun v => .of_eq rfl (List.subset_append_right _ _)⟩
  | sign | operator | give | bind => trivial
  | right => exact ⟨.of_eq rfl (List.Subset.refl _), fun v => .of_none rfl rfl⟩
  | branch scope v yes no site =>
    show Plan.Under _ (if v.truthy then _ else _)
    split
    · cases no with
      | none => exact .of_eq rfl (List.Subset.refl _)
      | some n => exact .of_eq rfl (List.subset_append_left _ _)
    · cases no with
      | none => trivial
      | some n => exact .of_eq rfl (List.subset_append_right _ _)
  | args scope callee done es site =>
    cases es with
    | nil => exact .of_none rfl rfl
    | cons e es =>
      exact ⟨.of_eq rfl (List.subset_append_left _ _),
        fun v => .of_eq rfl (List.subset_append_right _ _)⟩
  | call v as =>
    cases v with
    | closure c =>
      show Plan.Under _ (if as.length ≠ c.params.length then _ else _)
      split
      · trivial
      · cases left <;> trivial
    | builtin | int | bool | str | null | returned | error => trivial
  | stmt scope s site =>
    cases s with
    | bind x e =>
      exact ⟨.of_eq rfl (List.subset_cons_self _ _),
        fun v => .of_eq rfl (List.cons_subset.2 ⟨List.mem_cons_self, List.nil_subset _⟩)⟩
    | ret e => exact ⟨.of_eq rfl (List.Subset.refl _), fun v => .of_none rfl rfl⟩
    | expr e => exact .of_eq rfl (List.Subset.refl _)
  | block scope last ss site =>
    cases ss with
    | nil => trivial
    | cons s ss =>
      exact ⟨.of_eq rfl (List.subset_append_left _ _),
        fun v => .of_eq rfl (List.subset_append_right _ _)⟩
  | rest scope v ss site =>
    show Plan.Under _ (if v.isReturned then _ else _)
    split
    · trivial
    · exact .of_eq rfl (List.Subset.refl _)

end Task

/-! ## What runs change -/

namespace Point
variable {limit : Nat} {p q r : Point}

/-- The scope that a point's task runs in was made. -/
def InStore (p : Point) : Prop := p.task.InStore p.machine.store

theorem under_of_goOn {t : Task} (h : p.plan limit = .goOn t) : t.Under p.task := by
  have hunder : (p.plan limit).Under p.task := p.task.plan_under _ _ _
  rwa [h] at hunder

theorem under_of_part {t : Task} {k : Value → Task} (h : p.plan limit = .part t k) :
    t.Under p.task ∧ ∀ v, (k v).Under p.task := by
  have hunder : (p.plan limit).Under p.task := p.task.plan_under _ _ _
  rwa [h] at hunder

/-- The body of a call writes to no scope that there was. -/
theorem not_lt_of_enter {left : Nat} {t : Task} {m : Machine}
    (h : p.plan limit = .enter left t m) {scope : Scope} {x : String} (hx : t.Writes scope x) :
    ¬ scope.frame < p.machine.store.frames.size := by
  have hscope := hx.1
  rw [(Task.changes_of_enter h).1] at hscope
  cases hscope
  exact Nat.lt_irrefl _

/-- A run changes what its task may bind, and nothing else. -/
theorem run_changes (limit : Nat) (p : Point) (hp : p.InStore) :
    p.machine.store.Changes p.task.Writes (p.run limit).2.store := by
  induction p using Point.induction limit with
  | h p ih =>
    cases h : p.plan limit with
    | done o m =>
      rw [run_of_done h]
      exact Task.changes_of_done h
    | goOn t =>
      have hunder := under_of_goOn h
      rw [run_of_goOn h]
      exact (ih _ (.goOn h) (hunder.inStore hp (Nat.le_refl _))).mono
        fun _ _ _ hx => hunder.writes hx
    | part t k =>
      obtain ⟨hunder, hnext⟩ := under_of_part h
      have hpart := (ih _ (.part h) (hunder.inStore hp (Nat.le_refl _))).mono
        fun _ _ _ hx => hunder.writes hx
      rcases hr : (p.turn t p.machine).run limit with ⟨f | v, m⟩
      · rw [run_of_part_error h hr]
        rwa [hr] at hpart
      · rw [run_of_next h hr]
        rw [hr] at hpart
        exact hpart.trans (ih _ (.next h hr) ((hnext v).inStore hp hpart.size_le))
          fun _ _ _ hx => (hnext v).writes hx
    | enter left t m =>
      obtain ⟨-, hin, hchanges⟩ := Task.changes_of_enter h
      rw [run_of_enter h]
      exact (hchanges _).trans (ih _ (.enter h) hin)
        fun _ _ ht hx => absurd ht (not_lt_of_enter h hx)

/-- What comes with every point `q` of a run from `p` on. -/
structure Follows (p q : Point) : Prop where
  inStore : q.InStore
  changes : p.machine.store.Changes p.task.Writes q.machine.store
  writes : ∀ t x, t.frame < p.machine.store.frames.size → q.task.Writes t x → p.task.Writes t x

theorem Follows.trans (h : p.Follows q) (h' : q.Follows r) : p.Follows r where
  inStore := h'.inStore
  changes := h.changes.trans h'.changes h.writes
  writes t x ht hx :=
    h.writes t x ht (h'.writes t x (Nat.lt_of_lt_of_le ht h.changes.size_le) hx)

theorem Starts.follows (h : p.Starts limit q) (hp : p.InStore) : p.Follows q := by
  cases h with
  | goOn h =>
    have hunder := under_of_goOn h
    exact ⟨hunder.inStore hp (Nat.le_refl _), .refl _ _, fun _ _ _ hx => hunder.writes hx⟩
  | part h =>
    have hunder := (under_of_part h).1
    exact ⟨hunder.inStore hp (Nat.le_refl _), .refl _ _, fun _ _ _ hx => hunder.writes hx⟩
  | @next t k v m h hv =>
    obtain ⟨hunder, hnext⟩ := under_of_part h
    have hpart := run_changes limit (p.turn t p.machine) (hunder.inStore hp (Nat.le_refl _))
    rw [hv] at hpart
    exact ⟨(hnext v).inStore hp hpart.size_le, hpart.mono fun _ _ _ hx => hunder.writes hx,
      fun _ _ _ hx => (hnext v).writes hx⟩
  | enter h =>
    obtain ⟨-, hin, hchanges⟩ := Task.changes_of_enter h
    exact ⟨hin, hchanges _, fun _ _ ht hx => absurd ht (not_lt_of_enter h hx)⟩

theorem Visits.follows (h : p.Visits limit q) (hp : p.InStore) : p.Follows q := by
  induction h with
  | refl => exact ⟨hp, .refl _ _, fun _ _ _ hx => hx⟩
  | tail _ hstarts ih => exact ih.trans (hstarts.follows ih.inStore)

/-! ## What is done stays as it is -/

/-- A scope that was made since is not the one that a task runs in. -/
theorem InStore.not_writes (hp : p.InStore) {f : Scope} {x : String}
    (hf : p.machine.store.frames.size ≤ f.frame) : ¬ p.task.Writes f x :=
  fun hx => Nat.not_le_of_lt (hp f hx.1) hf

section
variable {t : Task} {k : Value → Task} {v : Value} {m : Machine} {f : Scope}

/-- What is left of a task when a part of it is done does not write to scopes made in that part. -/
theorem InStore.not_writes_next (hp : p.InStore) (hplan : p.plan limit = .part t k)
    (hnew : p.machine.store.frames.size ≤ f.frame) {x : String} : ¬ (k v).Writes f x :=
  fun hx => hp.not_writes hnew (((under_of_part hplan).2 v).writes hx)

/-- Once a point `c` is done, what a run from `p` still does leaves the scopes made in it. -/
theorem Visits.frame_eq {c : Point} (h : p.Visits limit c) (hp : p.InStore)
    (hnew : c.machine.store.frames.size ≤ f.frame)
    (hmade : f.frame < (c.run limit).2.store.frames.size) :
    f.frame < (p.run limit).2.store.frames.size ∧
      (p.run limit).2.store.frame f = (c.run limit).2.store.frame f := by
  -- from `c` outwards: the tasks around it go on in scopes that were there before
  induction h using Relation.ReflTransGen.head_induction_on with
  | refl => exact ⟨hmade, rfl⟩
  | @head p q hstarts hvisits ih =>
    have hq := ih (hstarts.follows hp).inStore
    cases hstarts with
    | goOn h => rwa [run_of_goOn h]
    | next h hv => rwa [run_of_next h hv]
    | enter h => rwa [run_of_enter h]
    | @part t k h =>
      rcases hr : (p.turn t p.machine).run limit with ⟨e | v, m⟩
      · rw [run_of_part_error h hr]
        rwa [hr] at hq
      · rw [hr] at hq
        have hnext : (p.turn (k v) m).InStore := ((Starts.next h hr).follows hp).inStore
        have hrest := run_changes limit _ hnext
        have hvisit : p.Visits limit c := .head (.part h) hvisits
        have hle := Nat.le_trans (hvisit.follows hp).changes.size_le hnew
        rw [run_of_next h hr]
        exact ⟨Nat.lt_of_lt_of_le hq.1 hrest.size_le,
          (hrest.frame_eq hq.1 fun x => hp.not_writes_next h hle).trans hq.2⟩

end

/-- In a run from `p`, the point `c` is done before `r` starts: some task has both, `c` in its first
part and `r` in what is left of it then. -/
inductive Before (limit : Nat) (p c r : Point) : Prop
  | part {q : Point} {t : Task} {k : Value → Task} {v : Value} {m : Machine} :
      p.Visits limit q → q.plan limit = .part t k → (q.turn t q.machine).run limit = (.ok v, m) →
      (q.turn t q.machine).Visits limit c → (q.turn (k v) m).Visits limit r → Before limit p c r

/-- The scopes made in a point that is done are the same when later ones start. -/
theorem Before.frame_eq {c : Point} (h : p.Before limit c r) (hp : p.InStore) {f : Scope}
    (hnew : c.machine.store.frames.size ≤ f.frame)
    (hmade : f.frame < (c.run limit).2.store.frames.size) :
    r.machine.store.frame f = (c.run limit).2.store.frame f := by
  cases h with
  | part hq hplan hv hc hr =>
    have hqs := (hq.follows hp).inStore
    have hdone := hc.frame_eq ((Starts.part hplan).follows hqs).inStore hnew hmade
    rw [hv] at hdone
    have hvisit : Visits limit _ c := .head (.part hplan) hc
    have hle := Nat.le_trans (hvisit.follows hqs).changes.size_le hnew
    have hrest := (hr.follows ((Starts.next hplan hv).follows hqs).inStore).changes
    exact (hrest.frame_eq hdone.1 fun x => hqs.not_writes_next hplan hle).trans hdone.2

/-- The scope of a call is made when the call is entered. -/
theorem made_of_enter {c : Point} {left : Nat} {f : Scope} {last : Value} {b : Block} {site : Site}
    {m : Machine} (h : c.plan limit = .enter left (.block f last b site) m) :
    c.machine.store.frames.size ≤ f.frame ∧ f.frame < (c.run limit).2.store.frames.size := by
  obtain ⟨hscope, hin, -⟩ := Task.changes_of_enter h
  have hbody := run_changes limit ⟨left, .block f last b site, m⟩ hin
  rw [run_of_enter h]
  refine ⟨Nat.le_of_eq ?_, Nat.lt_of_lt_of_le (hin f rfl) hbody.size_le⟩
  rw [Option.some.inj hscope]
  rfl

end Point

/-- Code that runs in a scope binds names of its own `let` statements there, and changes no other
scope that there was, whether it comes to a value or fails. A call changes none at all, and no later
step changes the scope of a call that is done. -/
theorem eval_onlyBinds {limit : Nat} {scope : Scope} {m : Machine}
    (h : scope.frame < m.store.frames.size) :
    (∀ tree (p : Program),
        m.store.OnlyBinds scope p.lets ((p.eval limit tree scope).run m).2.store) ∧
      (∀ left (e : Expr) site,
        m.store.OnlyBinds scope e.lets ((e.eval (apply limit left) scope site).run m).2.store) ∧
      (∀ left v as t, t.frame < m.store.frames.size →
        ((apply limit left v as).run m).2.store.frame t = m.store.frame t) ∧
      ∀ (start c : Point), start.InStore → start.Visits limit c →
        ∀ left f last b site m', c.plan limit = .enter left (.block f last b site) m' →
          (start.run limit).2.store.frame f = (c.run limit).2.store.frame f ∧
            ∀ r, start.Before limit c r →
              r.machine.store.frame f = (c.run limit).2.store.frame f := by
  refine ⟨fun tree p => ?_, fun left e site => ?_, fun left v as t ht => ?_, ?_⟩
  · have hin : (p.point limit tree scope m).InStore := by
      rintro _ ⟨⟩
      exact h
    have hrun := Point.run_changes limit (p.point limit tree scope m) hin
    rw [Program.run_eval]
    refine hrun.onlyBinds h ?_
    rintro t x ⟨⟨⟩, hx⟩
    exact ⟨rfl, hx⟩
  · have hin : Point.InStore ⟨left, .expr scope e site, m⟩ := by
      rintro _ ⟨⟩
      exact h
    have hrun := Point.run_changes limit ⟨left, .expr scope e site, m⟩ hin
    refine hrun.onlyBinds h ?_
    rintro t x ⟨⟨⟩, hx⟩
    exact ⟨rfl, hx⟩
  · have hrun := Point.run_changes limit ⟨left, .call v as, m⟩ nofun
    exact hrun.frame_eq ht fun x hx => nomatch hx.1
  · intro start c hstart hc left f last b site m' hplan
    obtain ⟨hnew, hmade⟩ := Point.made_of_enter hplan
    exact ⟨(hc.frame_eq hstart hnew hmade).2, fun r hr => hr.frame_eq hstart hnew hmade⟩

/-- The program `fn() { let y = 1 }(); let x = 2`. -/
def callThenLet : Program :=
  ⟨[.expr (.call (.fn [] [.bind "y" (.int 1)]) []), .bind "x" (.int 2)]⟩

/-- Where it runs from, in a scope that binds nothing. -/
def callThenLetStart : Point := callThenLet.point 1 0 ⟨0⟩ ⟨Store.empty.fresh.2, .endless⟩

/-- Where it calls its function. -/
def callThenLetCall : Point :=
  ⟨1, .call (.closure ⟨⟨[], [.bind "y" (.int 1)], ⟨0, [0, 0, 0]⟩⟩, ⟨0⟩⟩) [],
    ⟨Store.empty.fresh.2, .endless⟩⟩

/-- A program binds its own name beside a call that binds one. The scope of the call is as it left
it when the next statement starts. -/
theorem eval_onlyBinds_callThenLet :
    (⟨0⟩ : Scope).frame < Store.empty.fresh.2.frames.size ∧
      Store.empty.fresh.2.OnlyBinds ⟨0⟩ ["x"]
        ((callThenLet.eval 1 0 ⟨0⟩).run ⟨Store.empty.fresh.2, .endless⟩).2.store ∧
      callThenLetStart.InStore ∧ callThenLetStart.Visits 1 callThenLetCall ∧
      ∃ (left : Nat) (f : Scope) (last : Value) (b : Block) (site : Site) (m : Machine) (r : Point),
        callThenLetCall.plan 1 = .enter left (.block f last b site) m ∧
          callThenLetStart.Before 1 callThenLetCall r ∧
          r.machine.store.frame f = (callThenLetCall.run 1).2.store.frame f := by
  have hscope : (⟨0⟩ : Scope).frame < Store.empty.fresh.2.frames.size := Nat.one_pos
  have hin : callThenLetStart.InStore := by
    rintro _ ⟨⟩
    exact hscope
  have hfirst : callThenLetStart.plan 1 =
      .part (.stmt ⟨0⟩ (.expr (.call (.fn [] [.bind "y" (.int 1)]) [])) ⟨0, [0]⟩)
        fun v => .rest ⟨0⟩ v [.bind "x" (.int 2)] ⟨0, [1]⟩ := rfl
  have hcall : (callThenLetStart.turn
      (.stmt ⟨0⟩ (.expr (.call (.fn [] [.bind "y" (.int 1)]) [])) ⟨0, [0]⟩)
      callThenLetStart.machine).Visits 1 callThenLetCall :=
    .head (.goOn rfl) (.head (.next rfl rfl) (.single (.goOn rfl)))
  have hdone : ((callThenLetStart.turn
      (.stmt ⟨0⟩ (.expr (.call (.fn [] [.bind "y" (.int 1)]) [])) ⟨0, [0]⟩)
      callThenLetStart.machine).run 1).1 = .ok .null := rfl
  have hvisits : callThenLetStart.Visits 1 callThenLetCall := .head (.part hfirst) hcall
  have hbefore := Point.Before.part .refl hfirst (Prod.ext hdone rfl) hcall .refl
  obtain ⟨hprogram, -, -, hcalls⟩ :=
    @eval_onlyBinds 1 ⟨0⟩ ⟨Store.empty.fresh.2, .endless⟩ hscope
  have hscopes := hcalls callThenLetStart callThenLetCall hin hvisits _ _ _ _ _ _ rfl
  exact ⟨hscope, hprogram 0 callThenLet, hin, hvisits, _, _, _, _, _, _, _, rfl, hbefore,
    hscopes.2 _ hbefore⟩

end LetFn
