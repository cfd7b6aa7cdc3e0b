import LetFn.Proofs.Eval.Run
import LetFn.Proofs.Operator
import LetFn.Proofs.Structured
import LetFn.Proofs.Structured.Disciplined
import Mathlib.Data.List.Forall2

/-!
# Returns as values simulate structured returns

On disciplined programs the evaluator, which carries a `return` as a value, does what the reference
does, in which a `return` leaves the function around it.

* `Value.Tame`, `Store.Tame`: values and stores without a `return` on its way, and with disciplined
  function bodies only.
* `Agrees R x y`: from any such machine the outcomes of `x` and `y` are related by `R`, and the
  machines they end in are the same; `Agrees.bind` takes a sequence of computations apart.
* `Expr.agrees`, `Block.agrees`, `apply_agrees`: the evaluator against the reference.
* `Program.eval_eq_structured`: the same for whole programs.
-/

namespace LetFn

/-! ## Tame values and stores -/

/-- No `return` is on its way in a value, and the body of a function is disciplined. -/
def Value.Tame : Value → Prop
  | .returned _ => False
  | .closure c => Block.disciplined true c.body = true
  | _ => True

/-- Every name of every scope is bound to a tame value. -/
def Store.Tame (s : Store) : Prop := s.Every Value.Tame

theorem Value.Tame.isReturned {v : Value} (h : v.Tame) : v.isReturned = false := by
  cases v with
  | returned => exact h.elim
  | _ => rfl

/-- A machine as the reference sees it. -/
def Machine.world (m : Machine) : World := ⟨m.store.plain.map .ofValue, m.sink⟩

theorem Machine.world_bind (m : Machine) (scope : Scope) (x : String) (d : Datum) :
    Machine.world { m with store := m.store.bind scope x d.toValue } =
      { m.world with scopes := m.world.scopes.bind scope x d } := by
  refine World.ext ?_ rfl
  show (m.store.bind scope x d.toValue).plain.map Datum.ofValue =
    (m.store.plain.map Datum.ofValue).bind scope x d
  rw [← Store.plain_bind, ← Scopes.bind_map, Datum.ofValue_toValue]

theorem Machine.world_enclose (m : Machine) (outer : Scope) :
    m.world.scopes.enclose outer =
      ((m.store.enclose outer).1,
        (Machine.world { m with store := (m.store.enclose outer).2 }).scopes) := by
  show (m.store.plain.map Datum.ofValue).enclose outer = _
  rw [Scopes.enclose_map, Store.plain_enclose]
  rfl

/-! ## Agreement -/

/-- A value is what a datum stands for. -/
def Denotes (d : Datum) (v : Value) : Prop := v = d.toValue ∧ v.Tame

/-- Both outcomes are values that belong together, or the same fault. -/
inductive Same {α β : Type} (rel : β → α → Prop) : Except Stop β → Except Fault α → Prop
  | ok {b : β} {a : α} : rel b a → Same rel (.ok b) (.ok a)
  | fault (f : Fault) : Same rel (.error (.fault f)) (.error f)

/-- The same outcome, or where a spot for statements allows it, one that leaves against one on its
way out. -/
inductive SameOrLeaves (spot : Bool) : Except Stop Datum → Except Fault Value → Prop
  | same {o : Except Stop Datum} {o' : Except Fault Value} :
      Same Denotes o o' → SameOrLeaves spot o o'
  | leave {d : Datum} {v : Value} :
      spot = true → Denotes d v → SameOrLeaves spot (.error (.leave d)) (.ok (.returned v))

/-- From tame machines, `R` relates the outcomes, and the machines that are reached are the same. -/
def Agrees {α β : Type} (R : Except Stop β → Except Fault α → Prop) (x : EvalM α)
    (y : Structured β) : Prop :=
  ∀ m : Machine, m.store.Tame → R (y.run m.world).1 (x.run m).1 ∧ (x.run m).2.store.Tame ∧
    (x.run m).2.world = (y.run m.world).2

namespace Agrees
variable {α β γ δ : Type} {rel : β → α → Prop}

theorem pure {R : Except Stop β → Except Fault α → Prop} {a : α} {b : β} (h : R (.ok b) (.ok a)) :
    Agrees R (Pure.pure a) (Pure.pure b) := fun _ hm => ⟨h, hm, rfl⟩

theorem fault {R : Except Stop β → Except Fault α → Prop} {f : Fault}
    (h : R (.error (.fault f)) (.error f)) : Agrees R (throw f) (throw (.fault f)) :=
  fun _ hm => ⟨h, hm, rfl⟩

theorem imp {R R' : Except Stop β → Except Fault α → Prop} {x : EvalM α} {y : Structured β}
    (h : Agrees R x y) (himp : ∀ o o', R o o' → R' o o') : Agrees R' x y := by
  intro m hm
  obtain ⟨hR, hrest⟩ := h m hm
  exact ⟨himp _ _ hR, hrest⟩

/-- The second parts run from the same machine, or both computations end in the same fault. -/
theorem bind {R : Except Stop δ → Except Fault γ → Prop} {x : EvalM α} {y : Structured β}
    {k : α → EvalM γ} {l : β → Structured δ} (hx : Agrees (Same rel) x y)
    (hk : ∀ a b, rel b a → Agrees R (k a) (l b)) (hR : ∀ f, R (.error (.fault f)) (.error f)) :
    Agrees R (x >>= k) (y >>= l) := by
  intro m hm
  obtain ⟨hR', hm', hw⟩ := hx m hm
  cases hrun : x.run m with
  | mk o m' =>
    cases hrun' : y.run m.world with
    | mk o' w =>
      rw [hrun, hrun'] at hR' hw
      rw [hrun] at hm'
      cases hR' with
      | ok hab =>
        rw [run_bind_of_ok hrun, run_bind_of_ok hrun', ← show m'.world = w from hw]
        exact hk _ _ hab m' hm'
      | fault f =>
        rw [run_bind_of_error hrun, run_bind_of_error hrun']
        exact ⟨hR f, hm', hw⟩

end Agrees

theorem SameOrLeaves.fault {spot : Bool} (f : Fault) :
    SameOrLeaves spot (.error (.fault f)) (.error f) := .same (.fault f)

theorem SameOrLeaves.mono {spot spot' : Bool} (h : spot = true → spot' = true)
    (o : Except Stop Datum) (o' : Except Fault Value) (ho : SameOrLeaves spot o o') :
    SameOrLeaves spot' o o' := by
  cases ho with
  | same hs => exact .same hs
  | leave hspot hd => exact .leave (h hspot) hd

/-- Outside of spots for statements nothing leaves. -/
theorem SameOrLeaves.of_false (o : Except Stop Datum) (o' : Except Fault Value)
    (ho : SameOrLeaves false o o') : Same Denotes o o' := by
  cases ho with
  | same hs => exact hs
  | leave hspot => cases hspot

theorem agrees_value {spot : Bool} {v : Value} {d : Datum} (h : Denotes d v) :
    Agrees (SameOrLeaves spot) (pure v) (pure d) := .pure (.same (.ok h))

/-- The rest of a block runs unless a value is on its way out, or the computation left. -/
theorem Agrees.rest {spot : Bool} {x : EvalM Value} {y : Structured Datum} {k : Value → EvalM Value}
    {l : Datum → Structured Datum} (hx : Agrees (SameOrLeaves spot) x y)
    (hk : ∀ v d, Denotes d v → Agrees (SameOrLeaves spot) (k v) (l d)) :
    Agrees (SameOrLeaves spot) (x >>= fun v => if v.isReturned then Pure.pure v else k v)
      (y >>= l) := by
  intro m hm
  obtain ⟨hR, hm', hw⟩ := hx m hm
  cases hrun : x.run m with
  | mk o m' =>
    cases hrun' : y.run m.world with
    | mk o' w =>
      rw [hrun, hrun'] at hR hw
      rw [hrun] at hm'
      cases hR with
      | same hs =>
        cases hs with
        | ok hd =>
          rw [run_bind_of_ok hrun, run_bind_of_ok hrun', if_neg (by rw [hd.2.isReturned]; decide),
            ← show m'.world = w from hw]
          exact hk _ _ hd m' hm'
        | fault f =>
          rw [run_bind_of_error hrun, run_bind_of_error hrun']
          exact ⟨.fault f, hm', hw⟩
      | leave hspot hd =>
        rw [run_bind_of_ok hrun, run_bind_of_error hrun', if_pos (by rfl)]
        exact ⟨.leave hspot hd, hm', hw⟩

/-! ## Operations -/

theorem Value.IsScalar.tame {v : Value} (h : v.IsScalar) : v.Tame := by
  cases v with
  | int | bool => trivial
  | _ => exact h.elim

theorem tame_of_unscoped {x : String} {v : Value} (h : unscoped x = .ok v) : v.Tame := by
  unfold unscoped at h
  split at h
  · cases h
    trivial
  · cases h

theorem agrees_ofExcept {r : Except Fault Value} (h : ∀ v, r = .ok v → v.Tame) :
    Agrees (Same Denotes) (liftExcept r) (Structured.ofExcept r) := by
  cases r with
  | error f => exact .fault (.fault f)
  | ok v =>
    have hv := h v rfl
    exact .pure (.ok ⟨(Datum.toValue_ofValue hv.isReturned).symm, hv⟩)

theorem Structured.run_lookup (scope : Scope) (x : String) (w : World) :
    (Structured.lookup scope x).run w = (.ok (w.scopes.lookup scope x), w) := rfl

theorem Structured.run_write (text : String) (w : World) :
    (Structured.write text).run w =
      match w.sink.write text with
      | .ok sink => (.ok (), { w with sink })
      | .error reason => (.error (.fault (.output reason)), w) := by
  rw [Structured.write, run_bind_of_ok (run_get w)]
  cases w.sink.write text <;> rfl

theorem agrees_name (scope : Scope) (x : String) (site : Site)
    (call : Value → List Value → EvalM Value) (call' : Datum → List Datum → Structured Datum) :
    Agrees (Same Denotes) ((Expr.name x).eval call scope site)
      (Structured.expr call' scope (.name x) site) := by
  intro m hm
  have hlookup : m.world.scopes.lookup scope x = (m.store.lookup scope x).map Datum.ofValue :=
    Scopes.lookup_map Datum.ofValue m.store.plain scope x
  rw [Expr.eval, Structured.expr, run_bind_of_ok (EvalM.run_lookup scope x m),
    run_bind_of_ok (Structured.run_lookup scope x m.world), hlookup]
  cases hv : m.store.lookup scope x with
  | none => exact agrees_ofExcept (fun _ => tame_of_unscoped) m hm
  | some v =>
    have ht := Store.Every.lookup hm hv
    exact ⟨.ok ⟨(Datum.toValue_ofValue ht.isReturned).symm, ht⟩, hm, rfl⟩

theorem agrees_bind (scope : Scope) (x : String) {v : Value} {d : Datum} (h : Denotes d v) :
    Agrees (Same fun _ _ => True) (EvalM.bind scope x v) (Structured.bind scope x d) := by
  intro m hm
  obtain ⟨rfl, hv⟩ := h
  exact ⟨.ok trivial, Store.Every.bind hm scope x hv, m.world_bind scope x d⟩

theorem agrees_bindAll (scope : Scope) {vs : List Value} {ds : List Datum}
    (h : List.Forall₂ Denotes ds vs) : ∀ xs : List String,
    Agrees (Same fun _ _ => True) (EvalM.bindAll scope (xs.zip vs))
      (Structured.bindAll scope (xs.zip ds)) := by
  induction h with
  | nil =>
    intro xs
    rw [List.zip_nil_right, List.zip_nil_right]
    exact .pure (.ok trivial)
  | cons hd _ ih =>
    intro xs
    cases xs with
    | nil => exact .pure (.ok trivial)
    | cons x xs => exact (agrees_bind scope x hd).bind (fun _ _ _ => ih xs) .fault

theorem agrees_enclose (outer : Scope) :
    Agrees (Same Eq) (EvalM.enclose outer) (Structured.enclose outer) := by
  intro m hm
  have hw := m.world_enclose outer
  refine ⟨.ok (congrArg Prod.fst hw), Store.Every.enclose hm outer, World.ext ?_ rfl⟩
  exact (congrArg Prod.snd hw).symm

theorem agrees_write (text : String) :
    Agrees (Same fun _ _ => True) (EvalM.write text) (Structured.write text) := by
  intro m hm
  rw [EvalM.run_write, Structured.run_write, show m.world.sink = m.sink from rfl]
  cases m.sink.write text with
  | ok sink => exact ⟨.ok trivial, hm, rfl⟩
  | error reason => exact ⟨.fault _, hm, rfl⟩

theorem agrees_builtin (b : Builtin) {vs : List Value} {ds : List Datum}
    (h : List.Forall₂ Denotes ds vs) :
    Agrees (Same Denotes) (b.run vs) (Structured.builtin b ds) := by
  cases b with
  | puts =>
    have htexts : ds.map (fun d => d.toValue.text) = vs.map Value.text :=
      map_eq_map_of_forall₂ h fun _ _ hd => congrArg Value.text hd.1.symm
    have hend : Agrees (Same Denotes) (do EvalM.write "\n"; return .null)
        (do Structured.write "\n"; return .null) :=
      (agrees_write "\n").bind (fun _ _ _ => .pure (.ok ⟨rfl, trivial⟩)) .fault
    rw [Builtin.run, Structured.builtin, ← htexts]
    dsimp only
    split
    · exact (agrees_write _).bind (fun _ _ _ => hend) .fault
    · exact hend

/-! ## Trees -/

/-- Calls of what belongs together agree. -/
def CallsAgree (call : Value → List Value → EvalM Value)
    (call' : Datum → List Datum → Structured Datum) : Prop :=
  ∀ v d vs ds, Denotes d v → List.Forall₂ Denotes ds vs →
    Agrees (Same Denotes) (call v vs) (call' d ds)

section
variable {call : Value → List Value → EvalM Value} {call' : Datum → List Datum → Structured Datum}
  {scope : Scope}

mutual

theorem Expr.agrees (hcall : CallsAgree call call') : ∀ (e : Expr) (spot : Bool) (site : Site),
    e.disciplined spot = true →
    Agrees (SameOrLeaves spot) (e.eval call scope site) (Structured.expr call' scope e site)
  | .name x, spot, site, _ => (agrees_name scope x site call call').imp fun _ _ => .same
  | .int n, _, _, _ => agrees_value ⟨rfl, trivial⟩
  | .bool b, _, _, _ => agrees_value ⟨rfl, trivial⟩
  | .str s, _, _, _ => agrees_value ⟨rfl, trivial⟩
  | .unary op e, spot, site, h => by
    have he := (e.agrees hcall false (site.child 0) h).imp SameOrLeaves.of_false
    refine he.bind (fun v d hd => ?_) .fault
    rw [hd.1]
    exact (agrees_ofExcept fun _ hw => (isScalar_of_unary hw).tame).imp fun _ _ => .same
  | .binary op l r, spot, site, h => by
    rw [Expr.disciplined, Bool.and_eq_true] at h
    have hl := (l.agrees hcall false (site.child 0) h.1).imp SameOrLeaves.of_false
    have hr := (r.agrees hcall false (site.child 1) h.2).imp SameOrLeaves.of_false
    refine hl.bind (fun v d hd => hr.bind (fun w e he => ?_) .fault) .fault
    rw [hd.1, he.1]
    exact (agrees_ofExcept fun _ hu => (isScalar_of_binary hu).tame).imp fun _ _ => .same
  | .cond t y none, spot, site, h => by
    rw [Expr.disciplined, Bool.and_eq_true, Bool.and_eq_true, Bool.or_eq_true] at h
    obtain ⟨⟨hspot, ht⟩, hy⟩ := h
    have hmono : Block.hasReturn y = true → spot = true := by
      intro hret
      rw [hret] at hspot
      exact hspot.resolve_right (by decide)
    have ht := (t.agrees hcall false (site.child 0) ht).imp SameOrLeaves.of_false
    have hy := (Block.agrees hcall y _ .null .null (site.child 1) ⟨rfl, trivial⟩ hy id).imp
      (SameOrLeaves.mono hmono)
    refine ht.bind (fun v d hd => ?_) .fault
    rw [hd.1]
    split
    · exact hy
    · exact agrees_value ⟨rfl, trivial⟩
  | .cond t y (some n), spot, site, h => by
    rw [Expr.disciplined, Bool.and_eq_true, Bool.and_eq_true, Bool.and_eq_true,
      Bool.or_eq_true] at h
    obtain ⟨⟨⟨hspot, ht⟩, hy⟩, hn⟩ := h
    have hmono : (Block.hasReturn y || Block.hasReturn n) = true → spot = true := by
      intro hret
      rw [hret] at hspot
      exact hspot.resolve_right (by decide)
    have ht := (t.agrees hcall false (site.child 0) ht).imp SameOrLeaves.of_false
    have hy := (Block.agrees hcall y _ .null .null (site.child 1) ⟨rfl, trivial⟩ hy
      (fun hret => Bool.or_eq_true_iff.2 (.inl hret))).imp (SameOrLeaves.mono hmono)
    have hn := (Block.agrees hcall n _ .null .null (site.child 2) ⟨rfl, trivial⟩ hn
      (fun hret => Bool.or_eq_true_iff.2 (.inr hret))).imp (SameOrLeaves.mono hmono)
    refine ht.bind (fun v d hd => ?_) .fault
    rw [hd.1]
    split
    · exact hy
    · exact hn
  | .fn xs b, _, _, h => agrees_value ⟨rfl, h⟩
  | .call f as, spot, site, h => by
    rw [Expr.disciplined, Bool.and_eq_true] at h
    have hf := (f.agrees hcall false (site.child 0) h.1).imp SameOrLeaves.of_false
    have has := Expr.allAgree hcall as (site.child 1) h.2
    refine hf.bind (fun v d hd => has.bind (fun vs ds hds => ?_) .fault) .fault
    exact (hcall v d vs ds hd hds).imp fun _ _ => .same
termination_by structural e => e

theorem Expr.allAgree (hcall : CallsAgree call call') : ∀ (es : List Expr) (site : Site),
    Expr.allDisciplined es = true →
    Agrees (Same (List.Forall₂ Denotes)) (Expr.evalAll call scope es site)
      (Structured.exprs call' scope es site)
  | [], _, _ => .pure (.ok .nil)
  | e :: es, site, h => by
    rw [Expr.allDisciplined, Bool.and_eq_true] at h
    have he := (e.agrees hcall false (site.child 0) h.1).imp SameOrLeaves.of_false
    have hes := Expr.allAgree hcall es (site.child 1) h.2
    exact he.bind (fun v d hd => hes.bind (fun vs ds hds => .pure (.ok (.cons hd hds))) .fault) .fault

theorem Stmt.agrees (hcall : CallsAgree call call') : ∀ (s : Stmt) (spot : Bool) (site : Site),
    s.disciplined spot = true → (s.hasReturn = true → spot = true) →
    Agrees (SameOrLeaves spot) (s.eval call scope site) (Structured.stmt call' scope s site)
  | .bind x e, spot, site, h, _ => by
    have he := (e.agrees hcall false (site.child 0) h).imp SameOrLeaves.of_false
    refine he.bind (fun v d hd => ?_) .fault
    exact (agrees_bind scope x hd).bind (fun _ _ _ => agrees_value ⟨rfl, trivial⟩) .fault
  | .ret e, spot, site, h, hret => by
    have he := (e.agrees hcall false (site.child 0) h).imp SameOrLeaves.of_false
    refine he.bind (fun v d hd => ?_) .fault
    exact fun m hm => ⟨.leave (hret rfl) hd, hm, rfl⟩
  | .expr e, spot, site, h, _ => e.agrees hcall spot (site.child 0) h

theorem Block.agrees (hcall : CallsAgree call call') : ∀ (ss : List Stmt) (spot : Bool)
    (last : Value) (d : Datum) (site : Site), Denotes d last → Block.disciplined spot ss = true →
    (Block.hasReturn ss = true → spot = true) →
    Agrees (SameOrLeaves spot) (Block.eval call scope last ss site)
      (Structured.block call' scope d ss site)
  | [], _, _, _, _, hd, _, _ => agrees_value hd
  | s :: ss, spot, last, d, site, _, h, hret => by
    rw [Block.disciplined, Bool.and_eq_true] at h
    have hs := s.agrees hcall spot (site.child 0) h.1 fun hr => hret (Bool.or_eq_true_iff.2 (.inl hr))
    refine hs.rest fun v e he => ?_
    exact Block.agrees hcall ss spot v e (site.child 1) he h.2 fun hr =>
      hret (Bool.or_eq_true_iff.2 (.inr hr))

end

end

/-! ## Calls and programs -/

/-- What leaves a body against what is unwrapped from it. -/
theorem SameOrLeaves.settle {o : Except Stop Datum} {o' : Except Fault Value}
    (h : SameOrLeaves true o o') :
    Same Denotes ((Structured.settle o).mapError .fault) (o'.map Value.unwrap) := by
  cases h with
  | same hs =>
    cases hs with
    | @ok d v hd =>
      have hv : v.unwrap = v := by
        cases v with
        | returned => exact hd.2.elim
        | _ => rfl
      refine .ok ?_
      rwa [hv]
    | fault f => exact .fault f
  | leave _ hd => exact .ok hd

theorem Same.eq_map {o : Except Fault Datum} {o' : Except Fault Value}
    (h : Same Denotes (o.mapError .fault) o') : o' = o.map Datum.toValue := by
  cases o with
  | ok d =>
    change Same Denotes (.ok d) o' at h
    cases h with
    | ok hd => exact congrArg Except.ok hd.1
  | error f =>
    change Same Denotes (.error (.fault f)) o' at h
    cases h
    rfl

theorem Agrees.settled {x : EvalM Value} {y : Structured Datum}
    (h : Agrees (SameOrLeaves true) x y) :
    Agrees (Same Denotes) (do let v ← x; return v.unwrap)
      (fun w => ((Structured.settle (y.run w).1).mapError .fault, (y.run w).2)) := by
  intro m hm
  obtain ⟨hR, hm', hw⟩ := h m hm
  rw [run_unwrap]
  exact ⟨hR.settle, hm', hw⟩

/-- Calls do what the reference does, as many of them as may still be entered. -/
theorem apply_agrees (limit left : Nat) :
    CallsAgree (apply limit left) (Structured.apply limit left) := by
  induction left with
  | zero =>
    intro v d vs ds hd hds
    obtain ⟨rfl, hv⟩ := hd
    cases d with
    | closure c =>
      rw [Datum.toValue, apply, Structured.apply, hds.length_eq]
      split
      · exact .fault (.fault _)
      · exact .fault (.fault _)
    | builtin b => exact agrees_builtin b hds
    | int | bool | str | null | error => exact .fault (.fault _)
  | succ left ih =>
    intro v d vs ds hd hds
    obtain ⟨rfl, hv⟩ := hd
    cases d with
    | closure c =>
      rw [Datum.toValue, apply, Structured.apply, hds.length_eq]
      split
      · exact .fault (.fault _)
      · refine (agrees_enclose c.scope).bind (fun scope scope' hscope => ?_) .fault
        subst hscope
        refine (agrees_bindAll _ hds c.params).bind (fun _ _ _ => ?_) .fault
        exact (Block.agrees ih c.body true .null .null _ ⟨rfl, trivial⟩ hv fun _ => rfl).settled
    | builtin b => exact agrees_builtin b hds
    | int | bool | str | null | error => exact .fault (.fault _)

/-- A disciplined program, run where no `return` is on its way and functions are disciplined, comes
to the value or fault of the reference, writes the same and leaves the same scopes, whatever the
limit of calls and the sink. -/
theorem Program.eval_eq_structured (limit tree : Nat) (scope : Scope) (p : Program) (m : Machine)
    (hp : p.IsDisciplined) (hm : m.store.Tame) :
    ((p.eval limit tree scope).run m).1 =
        (Structured.program limit tree scope p m.world).1.map Datum.toValue ∧
      ((p.eval limit tree scope).run m).2.world =
        (Structured.program limit tree scope p m.world).2 ∧
      ((p.eval limit tree scope).run m).2.store.Tame := by
  have hblock : Agrees (SameOrLeaves true)
      (Block.eval (apply limit limit) scope .null p.statements ⟨tree, []⟩)
      (Structured.block (Structured.apply limit limit) scope .null p.statements ⟨tree, []⟩) :=
    Block.agrees (apply_agrees limit limit) p.statements true .null .null ⟨tree, []⟩
      ⟨rfl, trivial⟩ hp fun _ => rfl
  obtain ⟨hR, hm', hw⟩ := hblock.settled m hm
  exact ⟨hR.eq_map, hw, hm'⟩

/-- A function that returns out of a condition, called in a scope that binds nothing else. -/
theorem Program.eval_eq_structured_early_return :
    Program.IsDisciplined
        ⟨[.bind "f" (.fn ["x"] [.expr (.cond (.name "x") [.ret (.int 1)] none), .expr (.int 2)]),
          .expr (.call (.name "f") [.bool true])]⟩ ∧
      Store.empty.fresh.2.Tame ∧
      ((Program.eval 512 0 ⟨0⟩
        ⟨[.bind "f" (.fn ["x"] [.expr (.cond (.name "x") [.ret (.int 1)] none), .expr (.int 2)]),
          .expr (.call (.name "f") [.bool true])]⟩).run ⟨Store.empty.fresh.2, .endless⟩).1 =
        .ok (.int 1) := by
  have hp : Program.IsDisciplined
      ⟨[.bind "f" (.fn ["x"] [.expr (.cond (.name "x") [.ret (.int 1)] none), .expr (.int 2)]),
        .expr (.call (.name "f") [.bool true])]⟩ := by rfl
  have hm : Store.empty.fresh.2.Tame := Store.every_fresh Value.Tame
  obtain ⟨hvalue, -, -⟩ :=
    eval_eq_structured 512 0 ⟨0⟩ _ ⟨Store.empty.fresh.2, .endless⟩ hp hm
  exact ⟨hp, hm, hvalue.trans rfl⟩

end LetFn
