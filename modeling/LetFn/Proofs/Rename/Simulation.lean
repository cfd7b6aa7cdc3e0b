import LetFn.Proofs.Eval.Sites
import LetFn.Proofs.Rename.Store

/-!
# Code with a name replaced

Code of a function literal does what it does under other names.

* `EvalM.Renamed`: computations that come to values which become each other, on machines that do;
  `EvalM.Renamed.bind` takes a sequence of them apart.
* `Code.Renamed.runs`: code and what it becomes, one kind of code at a time.
* `apply_renamed`: calls, as many of them as may still be entered.
-/

namespace LetFn

/-! ## Computations -/

/-- Machines whose scopes become each other and that wrote the same. -/
structure Machine.Renamed (x y : String) (W : Marks) (m m' : Machine) : Prop where
  store : Store.Renamed x y W m.store m'.store
  layered : m.store.Layered x W
  sink_eq : m.sink = m'.sink

/-- From machines that become each other, when more scopes may have been made, `rel` relates the
values come to, and the machines reached become each other. -/
def EvalM.Renamed {α β : Type} (x y : String) (rel : Marks → α → β → Prop) (W : Marks)
    (a : EvalM α) (b : EvalM β) : Prop :=
  ∀ V m m', W <+: V → Machine.Renamed x y V m m' →
    ∃ U, V <+: U ∧ SameEnd (rel U) (a.run m).1 (b.run m').1 ∧
      Machine.Renamed x y U (a.run m).2 (b.run m').2

section
variable {x y : String} {W : Marks}

namespace EvalM.Renamed
variable {α β γ δ : Type} {rel : Marks → α → β → Prop} {rel' : Marks → γ → δ → Prop}

theorem mono {a : EvalM α} {b : EvalM β} (h : EvalM.Renamed x y rel W a b) {V : Marks}
    (hWV : W <+: V) : EvalM.Renamed x y rel V a b :=
  fun U m m' hVU hm => h U m m' (hWV.trans hVU) hm

theorem pure {a : α} {b : β} (h : ∀ V, W <+: V → rel V a b) :
    EvalM.Renamed x y rel W (Pure.pure a) (Pure.pure b) :=
  fun V _ _ hWV hm => ⟨V, List.prefix_refl V, .ok (h V hWV), hm⟩

theorem fault (f : Fault) : EvalM.Renamed x y rel W (throw f) (throw f) :=
  fun V _ _ _ hm => ⟨V, List.prefix_refl V, .error f, hm⟩

/-- The second parts run once more scopes were made, or both computations end in one fault. -/
theorem bind {a : EvalM α} {b : EvalM β} {k : α → EvalM γ} {l : β → EvalM δ}
    (h : EvalM.Renamed x y rel W a b)
    (hk : ∀ V v w, W <+: V → rel V v w → EvalM.Renamed x y rel' V (k v) (l w)) :
    EvalM.Renamed x y rel' W (a >>= k) (b >>= l) := by
  intro V m m' hWV hm
  obtain ⟨U, hVU, hend, hmachine⟩ := h V m m' hWV hm
  rcases hrun : a.run m with ⟨o, n⟩
  rcases hrun' : b.run m' with ⟨o', n'⟩
  rw [hrun, hrun'] at hend hmachine
  cases hend with
  | ok hvw =>
    obtain ⟨T, hUT, hlater⟩ := hk U _ _ (hWV.trans hVU) hvw U n n' (List.prefix_refl U) hmachine
    rw [run_bind_of_ok hrun, run_bind_of_ok hrun']
    exact ⟨T, hVU.trans hUT, hlater⟩
  | error f =>
    rw [run_bind_of_error hrun, run_bind_of_error hrun']
    exact ⟨U, hVU, .error f, hmachine⟩

theorem ofExcept {r : Except Fault Value}
    (h : ∀ v V, r = .ok v → Value.Renamed x y V v v) :
    EvalM.Renamed x y (Value.Renamed x y) W (liftExcept r) (liftExcept r) := by
  cases r with
  | ok v => exact pure fun V _ => h v V rfl
  | error f => exact fault f

end EvalM.Renamed

/-! ### Operations on machines -/

theorem EvalM.lookup_renamed {scope : Scope} {i : Bool} {z z' : String}
    (hscope : W[scope.frame]? = some i) (hz : NameRenamed x y i z z') :
    EvalM.Renamed x y (FoundRenamed x y z z') W (EvalM.lookup scope z) (EvalM.lookup scope z') :=
  fun V _ _ hWV hm => ⟨V, List.prefix_refl V,
    .ok (hm.store.lookup hm.layered (Marks.extend hWV hscope) hz), hm⟩

theorem EvalM.bind_renamed {scope : Scope} {i : Bool} {z z' : String} {v v' : Value}
    (hscope : W[scope.frame]? = some i) (hz : NameRenamed x y i z z')
    (hv : Value.Renamed x y W v v') :
    EvalM.Renamed x y (fun _ => Eq) W (EvalM.bind scope z v) (EvalM.bind scope z' v') :=
  fun V _ _ hWV hm => ⟨V, List.prefix_refl V, .ok rfl,
    hm.store.bind (Marks.extend hWV hscope) hz (hv.mono hWV),
    hm.layered.bind hm.store.size_eq scope z v, hm.sink_eq⟩

theorem EvalM.write_renamed (text : String) :
    EvalM.Renamed x y (fun _ => Eq) W (EvalM.write text) (EvalM.write text) := by
  intro V m m' _ hm
  refine ⟨V, List.prefix_refl V, ?_⟩
  rw [EvalM.run_write, EvalM.run_write, hm.sink_eq]
  cases m'.sink.write text with
  | ok sink => exact ⟨.ok rfl, hm.store, hm.layered, rfl⟩
  | error reason => exact ⟨.error _, hm⟩

theorem EvalM.writeAll_renamed (texts : List String) :
    EvalM.Renamed x y (fun _ => Eq) W (EvalM.writeAll texts) (EvalM.writeAll texts) := by
  induction texts generalizing W with
  | nil => exact .pure fun _ _ => rfl
  | cons text texts ih => exact (EvalM.write_renamed text).bind fun _ _ _ _ _ => ih

theorem Builtin.run_renamed (b : Builtin) {vs ws : List Value}
    (h : List.Forall₂ (Value.Renamed x y W) vs ws) :
    EvalM.Renamed x y (Value.Renamed x y) W (b.run vs) (b.run ws) := by
  have htexts : vs.map Value.text = ws.map Value.text :=
    map_eq_map_of_forall₂ h fun _ _ hvw => hvw.looksLike.text_eq
  rw [b.run_eq vs, b.run_eq ws, b.writes_congr htexts]
  exact (EvalM.writeAll_renamed _).bind fun _ _ _ _ _ => .pure fun _ _ => .null

/-! ## Code -/

/-- Calls of values that become each other do the same. -/
def CallsRenamed (x y : String) (call : Value → List Value → EvalM Value) : Prop :=
  ∀ W v w vs ws, Value.Renamed x y W v w → List.Forall₂ (Value.Renamed x y W) vs ws →
    EvalM.Renamed x y (Value.Renamed x y) W (call v vs) (call w ws)

/-- Two pieces of code in a scope come to values that become each other. -/
def Code.RunRenamed (x y : String) (call : Value → List Value → EvalM Value) (W : Marks)
    (scope : Scope) : Code → Code → Prop
  | .expr e, .expr e' => ∀ site, EvalM.Renamed x y (Value.Renamed x y) W
      (e.eval call scope site) (e'.eval call scope site)
  | .args es, .args es' => ∀ site,
      EvalM.Renamed x y (fun V => List.Forall₂ (Value.Renamed x y V)) W
        (Expr.evalAll call scope es site) (Expr.evalAll call scope es' site)
  | .stmt s, .stmt s' => ∀ site, EvalM.Renamed x y (Value.Renamed x y) W
      (s.eval call scope site) (s'.eval call scope site)
  | .block ss, .block ss' => ∀ site v w, Value.Renamed x y W v w →
      EvalM.Renamed x y (Value.Renamed x y) W
        (Block.eval call scope v ss site) (Block.eval call scope w ss' site)
  | _, _ => False

/-- Code does what it does under other names. -/
theorem Code.Renamed.runs {call : Value → List Value → EvalM Value} (hcall : CallsRenamed x y call)
    {i : Bool} {c c' : Code} (h : Code.Renamed x y i c c') {W : Marks} {scope : Scope}
    (hscope : W[scope.frame]? = some i) : Code.RunRenamed x y call W scope c c' := by
  -- later parts run when more scopes were made; the one that they run in keeps its mark
  induction h generalizing W with
  | name hz =>
    intro site
    refine (EvalM.lookup_renamed hscope hz).bind fun V found found' _ hfound => ?_
    obtain ⟨hvalue, hsame⟩ := hfound
    cases hvalue with
    | some hvw => exact .pure fun U hVU => hvw.mono hVU
    | none =>
      rw [hsame rfl]
      exact .ofExcept fun _ _ hv => .of_unscoped hv
  | int n => exact fun _ => .pure fun _ _ => .int n
  | bool b => exact fun _ => .pure fun _ _ => .bool b
  | str s => exact fun _ => .pure fun _ _ => .str s
  | unary op _ ih =>
    intro site
    refine (ih hscope _).bind fun V v w _ hvw => ?_
    rw [hvw.unary_eq]
    exact .ofExcept fun _ _ hu => .of_isScalar (isScalar_of_unary hu)
  | binary op _ _ ihl ihr =>
    intro site
    refine (ihl hscope _).bind fun V v w hWV hvw => ?_
    refine ((ihr hscope _).mono hWV).bind fun U v' w' hVU hvw' => ?_
    rw [(hvw.mono hVU).binary_eq hvw']
    exact .ofExcept fun _ _ hu => .of_isScalar (isScalar_of_binary hu)
  | cond _ _ iht ihyes =>
    intro site
    refine (iht hscope _).bind fun V v w hWV hvw => ?_
    rw [hvw.looksLike.truthy_eq]
    split
    · exact ihyes (Marks.extend hWV hscope) _ _ _ .null
    · exact .pure fun _ _ => .null
  | condElse _ _ _ iht ihyes ihno =>
    intro site
    refine (iht hscope _).bind fun V v w hWV hvw => ?_
    rw [hvw.looksLike.truthy_eq]
    split
    · exact ihyes (Marks.extend hWV hscope) _ _ _ .null
    · exact ihno (Marks.extend hWV hscope) _ _ _ .null
  | fn hps hb _ => exact fun _ => .pure fun V hWV => .closure (Marks.extend hWV hscope) (.fn hps hb)
  | here hx hps hb _ =>
    exact fun _ => .pure fun V hWV => .closure (Marks.extend hWV hscope) (.here hx hps hb)
  | call _ _ ihf ihas =>
    intro site
    refine (ihf hscope _).bind fun V v w hWV hvw => ?_
    refine ((ihas hscope _).mono hWV).bind fun U vs ws hVU hvws => ?_
    exact hcall U v w vs ws (hvw.mono hVU) hvws
  | noArgs => exact fun _ => .pure fun _ _ => .nil
  | args _ _ ihe ihes =>
    intro site
    refine (ihe hscope _).bind fun V v w hWV hvw => ?_
    refine ((ihes hscope _).mono hWV).bind fun U vs ws hVU hvws => ?_
    exact .pure fun T hUT => .cons (hvw.mono (hVU.trans hUT)) (Value.Renamed.mono_all hvws hUT)
  | bind hz _ ih =>
    intro site
    refine (ih hscope _).bind fun V v w hWV hvw => ?_
    refine (EvalM.bind_renamed (Marks.extend hWV hscope) hz hvw).bind fun _ _ _ _ _ => ?_
    exact .pure fun _ _ => .null
  | ret _ ih =>
    intro site
    refine (ih hscope _).bind fun V v w _ hvw => ?_
    exact .pure fun U hVU => .returned (hvw.mono hVU)
  | expr _ ih => exact fun _ => ih hscope _
  | noStmts => exact fun _ _ _ hvw => .pure fun V hWV => hvw.mono hWV
  | block _ _ ihs ihss =>
    intro site _ _ _
    refine (ihs hscope _).bind fun V v w hWV hvw => ?_
    rw [hvw.isReturned_eq]
    split
    · exact .pure fun U hVU => hvw.mono hVU
    · exact ihss (Marks.extend hWV hscope) _ _ _ hvw

/-! ## Calls -/

theorem EvalM.Renamed.unwrap {a b : EvalM Value}
    (h : EvalM.Renamed x y (Value.Renamed x y) W a b) :
    EvalM.Renamed x y (Value.Renamed x y) W (do let v ← a; return v.unwrap)
      (do let v ← b; return v.unwrap) :=
  h.bind fun _ _ _ _ hvw => .pure fun _ hVU => hvw.unwrap.mono hVU

/-- A call enters the body in a scope of its own, or both calls come to the same fault. -/
theorem apply_closure_renamed {limit left : Nat} {i : Bool} {ps ps' : List String} {b b' : Block}
    {site : Site} {scope : Scope} (hcall : ∀ n < left, CallsRenamed x y (apply limit n))
    (hscope : W[scope.frame]? = some i)
    (hfn : Code.Renamed x y i (.expr (.fn ps b)) (.expr (.fn ps' b')))
    {vs ws : List Value} (hvs : List.Forall₂ (Value.Renamed x y W) vs ws) :
    EvalM.Renamed x y (Value.Renamed x y) W
      (apply limit left (.closure ⟨⟨ps, b, site⟩, scope⟩) vs)
      (apply limit left (.closure ⟨⟨ps', b', site⟩, scope⟩) ws) := by
  obtain ⟨j, hj, hps, hb⟩ := hfn.exists_enters
  have hpslen := hps.length_eq
  have hvslen := hvs.length_eq
  by_cases hlen : vs.length = ps.length
  · have hlen' : ws.length = ps'.length := hvslen.symm.trans (hlen.trans hpslen)
    cases left with
    | zero =>
      rw [apply, apply, if_neg (not_not_intro hlen), if_neg (not_not_intro hlen')]
      exact .fault _
    | succ left =>
      intro V m m' hWV hm
      obtain ⟨hnext, hstore, hlayered⟩ := hm.store.enter hm.layered (Marks.extend hWV hscope) hj hps
        (Value.Renamed.mono_all hvs hWV) hlen.symm
      have hbody :=
        (hb.runs (hcall left left.lt_succ_self) hnext (site.child 0) .null .null .null).unwrap
      have hstart : Machine.Renamed x y (V ++ [j])
          { m with store := (m.store.enclose scope).2.bindAll m.store.next (ps.zip vs) }
          { m' with store := (m'.store.enclose scope).2.bindAll m.store.next (ps'.zip ws) } :=
        ⟨hstore, hlayered, hm.sink_eq⟩
      obtain ⟨U, hVU, hends⟩ := hbody _ _ _ (List.prefix_refl _) hstart
      rw [run_apply_succ limit left _ hlen, run_apply_succ limit left _ hlen', hm.store.next_eq]
      exact ⟨U, (List.prefix_append V [j]).trans hVU, hends⟩
  · have hlen' : ws.length ≠ ps'.length := by rwa [← hvslen, ← hpslen]
    rw [apply_of_length_ne _ _ _ hlen, apply_of_length_ne _ _ _ hlen', hvslen, hpslen]
    exact .fault _

/-- Calls do the same, as many of them as may still be entered. -/
theorem apply_renamed (limit left : Nat) : CallsRenamed x y (apply limit left) := by
  induction left using Nat.strongRecOn with
  | ind left ih =>
    intro W v w vs ws h hvs
    cases h with
    | closure hscope hfn => exact apply_closure_renamed ih hscope hfn hvs
    | builtin b => cases left <;> exact b.run_renamed hvs
    | int | bool | str | null | error | returned => cases left <;> exact .fault _

end

end LetFn
