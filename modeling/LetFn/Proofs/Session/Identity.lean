import LetFn.Proofs.Session.Depth

/-!
# Functions that are the same

Two functions are compared by the site of their literals and by the scopes that they capture. That
tells them apart as far as calls can: the site of a function in a session is that of its own
literal, however often programs ran and wherever the function was copied to.

* `Session.Hosted`: the sessions that a host comes to, with the programs that it keeps and the
  values that it holds; `Session.Hosted.run` and `Session.Hosted.evaluate` say that runs in the root
  scope lead to such sessions.
* `codeAt?`: what stands at a site; `planted`: every function has the parameters and the body of the
  literal at its site, which evaluation keeps.
* `Session.Hosted.isPlanted`: so do sessions.
* `Closure.eq_of_same`: such functions are the same only if they are equal.
* `Store.exists_lookup_same`: what a scope bound is looked up as it was.
* `Session.same_interchangeable`: functions that are the same do the same when they are called.
-/

namespace LetFn

/-! ## Sessions with a host -/

/-- The sessions that a host comes to, who keeps programs, runs them in any scope under any
configuration, and holds values: those of runs, those that it looks up, and those that it makes,
with no functions in them but such as it holds. With the programs, each at the place of its number,
and the values. -/
inductive Session.Hosted (config : Config) (sink : Sink) :
    Session → List Program → List Value → Prop
  | start : Hosted config sink (Session.start config sink) [] []
  | keep {s : Session} {ps : List Program} {vs : List Value} (p : Program) :
      Hosted config sink s ps vs →
      Hosted config sink { s with trees := s.trees + 1 } (ps ++ [p]) vs
  | runIn {s : Session} {ps : List Program} {vs : List Value} {k : Nat} {p : Program}
      (config' : Config) (scope : Scope) :
      Hosted config sink s ps vs → ps[k]? = some p →
      Hosted config sink (s.valueIn config' scope ⟨k, p⟩).2 ps
        ((s.valueIn config' scope ⟨k, p⟩).1 :: vs)
  | get {s : Session} {ps : List Program} {vs : List Value} {scope : Scope} {x : String}
      {v : Value} :
      Hosted config sink s ps vs → s.getIn scope x = some v → Hosted config sink s ps (v :: vs)
  | make {s : Session} {ps : List Program} {vs : List Value} {v : Value} :
      Hosted config sink s ps vs →
      (∀ c, v.closure? = some c → ∃ w ∈ vs, w.closure? = some c) →
      Hosted config sink s ps (v :: vs)
  | set {s : Session} {ps : List Program} {vs : List Value} {v : Value} (scope : Scope)
      (x : String) :
      Hosted config sink s ps vs → v ∈ vs → Hosted config sink (s.setIn scope x v) ps vs
  | fresh {s : Session} {ps : List Program} {vs : List Value} :
      Hosted config sink s ps vs → Hosted config sink s.fresh.2 ps vs
  | enclose {s : Session} {ps : List Program} {vs : List Value} (outer : Scope) :
      Hosted config sink s ps vs → Hosted config sink (s.enclose outer).2 ps vs
  | close {s : Session} {ps : List Program} {vs : List Value} :
      Hosted config sink s ps vs → Hosted config sink s.close ps vs
  | configure {s : Session} {ps : List Program} {vs : List Value} (config' : Config) :
      Hosted config sink s ps vs → Hosted config sink { s with config := config' } ps vs

namespace Session

namespace Hosted
variable {config : Config} {sink : Sink} {s : Session} {ps : List Program} {vs : List Value}

theorem trees_eq (h : Hosted config sink s ps vs) : s.trees = ps.length := by
  induction h with
  | start => rfl
  | keep p _ ih => rw [List.length_append, ← ih]; rfl
  | runIn config' scope _ _ ih => rw [valueIn_eq, ← ih]
  | get _ _ ih | make _ _ ih | set _ _ _ _ ih | fresh _ ih | enclose _ _ ih | close _ ih
  | configure _ _ ih => exact ih

/-- A program that is kept is run in the root scope. -/
theorem run (h : Hosted config sink s ps vs) {k : Nat} {p : Program} (hp : ps[k]? = some p) :
    ∃ v, Hosted config sink (s.run ⟨k, p⟩).2 ps (v :: vs) ∧
      ∀ w, (s.run ⟨k, p⟩).1 = .ok w → w = v := by
  rw [run_eq_valueIn]
  exact ⟨_, h.runIn s.config s.root hp, fun w hw => (Value.eq_of_outcome hw).symm⟩

/-- A text is read and run, or leaves the session as it is. -/
theorem evaluate (h : Hosted config sink s ps vs) (text : String) :
    ∃ qs us, Hosted config sink (s.evaluate text).2 qs us ∧ vs ⊆ us ∧
      ∀ w, (s.evaluate text).1 = .ok w → w ∈ us := by
  cases hp : Program.parse text with
  | error es =>
    rw [evaluate_of_parse_error hp]
    exact ⟨ps, vs, h, List.Subset.refl vs, nofun⟩
  | ok p =>
    have hkept : (ps ++ [p])[s.trees]? = some p := by
      rw [h.trees_eq, List.getElem?_concat_length]
    obtain ⟨v, hrun, hv⟩ := (h.keep p).run hkept
    rw [evaluate_of_parse hp]
    refine ⟨_, _, hrun, List.subset_cons_self v vs, fun w hw => ?_⟩
    cases hresult : ({ s with trees := s.trees + 1 }.run ⟨s.trees, p⟩).1 with
    | error f =>
      rw [hresult] at hw
      cases hw
    | ok u =>
      rw [hresult] at hw
      cases hw
      rw [hv _ hresult]
      exact List.mem_cons_self

end Hosted
end Session

/-! ## Sites and literals -/

/-- What stands at a site of some programs. -/
def codeAt? (ps : List Program) (site : Site) : Option Code := (locate? ps site).map Prod.snd

section
variable {ps : List Program} {c d : Code} {site : Site}

theorem codeAt?_child (h : codeAt? ps site = some c) {i : Nat} (hd : c.child? i = some d) :
    codeAt? ps (site.child i) = some d := by
  obtain ⟨⟨n, e⟩, hlocate, rfl⟩ := Option.map_eq_some_iff.1 h
  rw [codeAt?, locate?_child hlocate hd]
  rfl

theorem codeAt?_append (h : codeAt? ps site = some c) (qs : List Program) :
    codeAt? (ps ++ qs) site = some c := by
  obtain ⟨nc, hlocate, rfl⟩ := Option.map_eq_some_iff.1 h
  rw [codeAt?, locate?_append hlocate]
  rfl

end

/-- A function has the parameters and the body of the literal at its site. -/
def Closure.Planted (ps : List Program) (c : Closure) : Prop :=
  codeAt? ps c.site = some (.expr (.fn c.params c.body))

/-- So has a value, if it is a function or hands one on. -/
def Value.Planted (ps : List Program) (v : Value) : Prop :=
  ∀ c, v.closure? = some c → c.Planted ps

theorem Value.Planted.append {ps : List Program} {v : Value} (h : v.Planted ps)
    (qs : List Program) : v.Planted (ps ++ qs) :=
  fun c hc => codeAt?_append (h c hc) qs

/-- Code runs at the site where it stands, so every function stands at its own. -/
def planted (ps : List Program) : Invariant where
  code _ _ c site := codeAt? ps site = some c
  closure _ c := c.Planted ps
  fault _ := True
  code_grows _ h := h
  closure_grows _ h := h
  code_child h _ hd := codeAt?_child h hd
  closure_made h := h
  code_body h := codeAt?_child h rfl

theorem planted_value_iff {ps : List Program} {s : Store} :
    ∀ {v : Value}, (planted ps).value s v ↔ v.Planted ps
  | .returned v => planted_value_iff (v := v)
  | .closure c => ⟨fun h d hd => by cases hd; exact h, fun h => h c rfl⟩
  | .error _ | .int _ | .bool _ | .str _ | .null | .builtin _ => ⟨fun _ => nofun, fun _ => trivial⟩

/-- Functions that stand at their own sites are the same only if they are equal. -/
theorem Closure.eq_of_same {ps : List Program} {c d : Closure} (hc : c.Planted ps)
    (hd : d.Planted ps) (h : (Value.closure c).same (.closure d) = true) : c = d := by
  obtain ⟨hsite, hscope⟩ : c.site = d.site ∧ c.scope = d.scope := by simpa [Value.same] using h
  have hcode : some (Code.expr (.fn c.params c.body)) = some (.expr (.fn d.params d.body)) := by
    rw [← hc, ← hd, hsite]
  obtain ⟨⟨params, body, site⟩, scope⟩ := c
  obtain ⟨⟨params', body', site'⟩, scope'⟩ := d
  cases hsite
  cases hscope
  cases hcode
  rfl

/-! ## Sessions keep it -/

namespace Store.Every
variable {P Q : Value → Prop} {s : Store}

theorem imp (h : s.Every P) (hPQ : ∀ v, P v → Q v) : s.Every Q :=
  fun t x v hv => hPQ v (h t x v hv)

theorem fresh (h : s.Every P) : s.fresh.2.Every P := by
  intro t x v hv
  rw [get?, frame_fresh] at hv
  exact h t x v hv

theorem clear (h : s.Every P) (scope : Scope) : (s.clear scope).Every P := by
  intro t x v hv
  rw [get?, frame_clear] at hv
  split at hv
  · cases hv
  · exact h t x v hv

end Store.Every

namespace Session

/-- The functions that are bound, and those among some values, stand at their own sites. -/
structure IsPlanted (ps : List Program) (vs : List Value) (s : Session) : Prop where
  bound : s.machine.store.Every (Value.Planted ps)
  held : ∀ v ∈ vs, v.Planted ps

section
variable {ps : List Program} {vs : List Value} {s : Session}

/-- What a run comes to, and what it leaves bound. -/
theorem IsPlanted.valueIn (h : s.IsPlanted ps vs) {k : Nat} {p : Program} (hp : ps[k]? = some p)
    (config : Config) (scope : Scope) :
    (s.valueIn config scope ⟨k, p⟩).2.machine.store.Every (Value.Planted ps) ∧
      (s.valueIn config scope ⟨k, p⟩).1.Planted ps := by
  have hstart : (planted ps).Kept (p.point config.maxCallDepth k scope s.machine) := by
    refine ⟨h.bound.imp fun v => planted_value_iff.2, trivial, ?_⟩
    show ((ps[k]?).bind fun p => Block.locate? p.statements []).map Prod.snd = _
    rw [hp]
    rfl
  have hends := hstart.ends config.maxCallDepth
  rw [valueIn_eq]
  refine ⟨hends.bound.imp fun v => planted_value_iff.1, ?_⟩
  cases hv : ((p.point config.maxCallDepth k scope s.machine).run
      config.maxCallDepth).1.map Value.unwrap with
  | ok v => exact planted_value_iff.1 (hends.value_of_map hv)
  | error f => exact nofun

theorem Hosted.isPlanted {config : Config} {sink : Sink} (h : Hosted config sink s ps vs) :
    s.IsPlanted ps vs := by
  induction h with
  | start => exact ⟨Store.every_fresh _, nofun⟩
  | keep p _ ih =>
    exact ⟨ih.bound.imp fun v hv => hv.append [p], fun v hv => (ih.held v hv).append [p]⟩
  | runIn config' scope _ hp ih =>
    obtain ⟨hbound, hvalue⟩ := ih.valueIn hp config' scope
    exact ⟨hbound, List.forall_mem_cons.2 ⟨hvalue, ih.held⟩⟩
  | get _ hv ih => exact ⟨ih.bound, List.forall_mem_cons.2 ⟨ih.bound.lookup hv, ih.held⟩⟩
  | make _ hv ih =>
    refine ⟨ih.bound, List.forall_mem_cons.2 ⟨fun c hc => ?_, ih.held⟩⟩
    obtain ⟨w, hw, hwc⟩ := hv c hc
    exact ih.held w hw c hwc
  | set scope x _ hv ih => exact ⟨ih.bound.bind scope x (ih.held _ hv), ih.held⟩
  | fresh _ ih => exact ⟨ih.bound.fresh, ih.held⟩
  | enclose outer _ ih => exact ⟨ih.bound.enclose outer, ih.held⟩
  | close _ ih => exact ⟨ih.bound.clear _, ih.held⟩
  | configure _ _ ih => exact ⟨ih.bound, ih.held⟩

end

end Session

/-! ## Reading back -/

/-- As long as a name is not bound anew, it is looked up as what it was bound to, from each scope
whose nearest binding of it is that one. -/
theorem Store.exists_lookup_same {s s' : Store} {t : Scope} (ht : t.frame < s.frames.size)
    {x : String} {c : Closure}
    (hchanges : (s.bind t x (.closure c)).Changes (fun u y => ¬ (u = t ∧ y = x)) s')
    {u : Scope} {nearer outer : List Scope} (hchain : s'.chain u = nearer ++ t :: outer)
    (hnearer : ∀ n ∈ nearer, s'.get? n x = none) :
    ∃ w, s'.lookup u x = some w ∧ w.same (.closure c) = true := by
  have hbound : (s.bind t x (.closure c)).get? t x = some (.closure c) := by
    rw [get?_bind s t t x x _ ht, if_pos ⟨rfl, rfl⟩]
  have hsize : t.frame < (s.bind t x (.closure c)).frames.size := by
    rwa [size_bind]
  have hframe := (hchanges.rebinds t hsize).get?_eq x (not_not_intro ⟨rfl, rfl⟩)
  have hlater : s'.get? t x = some (.closure c) := by
    rw [← hbound, get?, get?, hframe]
  refine ⟨.closure c, ?_, by simp [Value.same]⟩
  rw [lookup, hchain, List.findSome?_append, List.findSome?_eq_none_iff.2 hnearer,
    List.findSome?_cons, hlater]
  rfl

namespace Session

/-- The functions that occur in a session: bound in some scope, or among the values that are held,
on their own or handed on. -/
def Occurs (s : Session) (vs : List Value) (c : Closure) : Prop :=
  (∃ v ∈ vs, v.closure? = some c) ∨
    ∃ t x v, s.machine.store.get? t x = some v ∧ v.closure? = some c

/-- However a host got there: two functions that occur and are the same have the same parameters and
the same body, capture the same scope and do the same when they are called, with any arguments, on
any machine and under any limit. And a function that is bound in a scope, by whom it may be, is
looked up as the same function, as long as its name is not bound anew there. -/
theorem same_interchangeable {config : Config} {sink : Sink} {s : Session} {ps : List Program}
    {vs : List Value} (h : Hosted config sink s ps vs) :
    (∀ c d, s.Occurs vs c → s.Occurs vs d → (Value.closure c).same (.closure d) = true →
      c.params = d.params ∧ c.body = d.body ∧ c.scope = d.scope ∧
        ∀ limit left as m, (apply limit left (.closure c) as).run m =
          (apply limit left (.closure d) as).run m) ∧
    ∀ (r r' : Store) t x c, t.frame < r.frames.size →
      (r.bind t x (.closure c)).Changes (fun u y => ¬ (u = t ∧ y = x)) r' →
      ∀ u nearer outer, r'.chain u = nearer ++ t :: outer →
        (∀ n ∈ nearer, r'.get? n x = none) →
        ∃ w, r'.lookup u x = some w ∧ w.same (.closure c) = true := by
  have hplanted := h.isPlanted
  have hoccurs : ∀ c, s.Occurs vs c → c.Planted ps := by
    rintro c (⟨v, hv, hc⟩ | ⟨t, x, v, hv, hc⟩)
    · exact hplanted.held v hv c hc
    · exact hplanted.bound t x v hv c hc
  refine ⟨fun c d hc hd hsame => ?_, fun r r' t x c ht hchanges u nearer outer hchain hnearer => ?_⟩
  · obtain rfl := Closure.eq_of_same (hoccurs c hc) (hoccurs d hd) hsame
    exact ⟨rfl, rfl, rfl, fun _ _ _ _ => rfl⟩
  · exact Store.exists_lookup_same ht hchanges hchain hnearer

/-- The program `let f = fn(x) { x }; f`. -/
def namedFunction : Program :=
  ⟨[.bind "f" (.fn ["x"] [.expr (.name "x")]), .expr (.name "f")]⟩

/-- A session that keeps it as two programs, and ran the first one twice. -/
def rerun : Session :=
  let s : Session := { start ⟨512⟩ .endless with trees := 2 }
  let s := (s.valueIn ⟨512⟩ ⟨0⟩ ⟨0, namedFunction⟩).2
  (s.valueIn ⟨512⟩ ⟨0⟩ ⟨0, namedFunction⟩).2

/-- Both runs come to the same function. A run of the second program comes to another one, which is
what is read back from then on. -/
theorem same_interchangeable_rerun :
    ∃ c d e : Closure,
      Hosted ⟨512⟩ .endless (rerun.valueIn ⟨512⟩ ⟨0⟩ ⟨1, namedFunction⟩).2
        [namedFunction, namedFunction] [.closure e, .closure d, .closure c] ∧
      ((Value.closure c).same (.closure d) = true ∧ c.params = d.params) ∧
      (Value.closure c).same (.closure e) = false ∧
      ∃ w, (rerun.valueIn ⟨512⟩ ⟨0⟩ ⟨1, namedFunction⟩).2.getIn ⟨0⟩ "f" = some w ∧
        w.same (.closure e) = true := by
  have hkept : Hosted ⟨512⟩ .endless { start ⟨512⟩ .endless with trees := 2 }
      [namedFunction, namedFunction] [] := (Hosted.start.keep namedFunction).keep namedFunction
  have hrun := hkept.runIn (k := 0) ⟨512⟩ ⟨0⟩ rfl
  have hrerun := hrun.runIn (k := 0) ⟨512⟩ ⟨0⟩ rfl
  have hhosted := hrerun.runIn (k := 1) ⟨512⟩ ⟨0⟩ rfl
  obtain ⟨hsame, hread⟩ := same_interchangeable hhosted
  refine ⟨_, _, _, hhosted, ⟨rfl, ?_⟩, rfl, ?_⟩
  · refine (hsame _ _ (.inl ⟨.closure _, ?_, rfl⟩) (.inl ⟨.closure _, ?_, rfl⟩) rfl).1
    · exact List.mem_cons_of_mem _ (List.mem_cons_of_mem _ List.mem_cons_self)
    · exact List.mem_cons_of_mem _ List.mem_cons_self
  · exact hread rerun.machine.store _ ⟨0⟩ "f" _ (by decide) (.refl _ _) ⟨0⟩ [] [] rfl nofun

end Session
end LetFn
