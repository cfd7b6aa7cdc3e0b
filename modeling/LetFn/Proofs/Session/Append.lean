import LetFn.Proofs.Eval.Sites
import LetFn.Proofs.Parser.Append
import LetFn.Proofs.Session.Errors

/-!
# Two texts or one

A session that is given a text in two parts, the first of which ends in a semicolon, does what it
does if it is given the whole text at once. Only the sites of function literals differ.

* `Block.eval_append`: statements in two parts; by `Session.run_point_append` a program runs so.
* `Session.evaluate_append`: the same of texts, with what stops the first part stopping the whole.
-/

namespace LetFn

/-! ## Statements in two parts -/

/-- The second part runs after the first one, unless that returns. -/
theorem Block.eval_append (call : Value → List Value → EvalM Value) (scope : Scope)
    (ss ts : List Stmt) (last : Value) (site : Site) (h : last.isReturned = false) :
    Block.eval call scope last (ss ++ ts) site =
      Block.eval call scope last ss site >>= fun v =>
        if v.isReturned then return v
        else Block.eval call scope v ts (Nat.iterate (Site.child · 1) ss.length site) := by
  induction ss generalizing last site with
  | nil =>
    rw [Block.eval, pure_bind, if_neg (by rw [h]; decide)]
    rfl
  | cons s ss ih =>
    rw [List.cons_append, Block.eval, Block.eval, bind_assoc]
    refine congrArg _ (funext fun v => ?_)
    by_cases hv : v.isReturned = true
    · rw [if_pos hv, if_pos hv, pure_bind, if_pos hv]
    · rw [if_neg hv, if_neg hv, ih v (site.child 1) (Bool.eq_false_iff.2 hv)]
      rfl

namespace Session
variable {s : Session}

/-- A statement of a tree returns: the value that the statements come to is on its way out. -/
def Returns (s : Session) (t : Tree) : Prop :=
  ∃ v, ((s.point t).run s.config.maxCallDepth).1 = .ok (.returned v)

section
variable {n : Nat} {p q : Program}

theorem run_point_append_of_error {f : Fault}
    (h : ((s.point ⟨n, p⟩).run s.config.maxCallDepth).1 = .error f) :
    (s.point ⟨n, ⟨p.statements ++ q.statements⟩⟩).run s.config.maxCallDepth =
      (s.point ⟨n, p⟩).run s.config.maxCallDepth := by
  rw [run_point] at h ⊢
  rw [run_point, Block.eval_append _ _ _ _ _ _ rfl]
  exact (run_bind_of_error (Prod.ext h rfl)).trans (Prod.ext h.symm rfl)

theorem run_point_append_of_returns (h : s.Returns ⟨n, p⟩) :
    (s.point ⟨n, ⟨p.statements ++ q.statements⟩⟩).run s.config.maxCallDepth =
      (s.point ⟨n, p⟩).run s.config.maxCallDepth := by
  obtain ⟨v, h⟩ := h
  rw [run_point] at h ⊢
  rw [run_point, Block.eval_append _ _ _ _ _ _ rfl]
  exact (run_bind_of_ok (Prod.ext h rfl)).trans (Prod.ext h.symm rfl)

/-- If the first part comes to a value that is not on its way out, the second one runs where that
leaves off. -/
theorem run_point_append_of_ok {v : Value} {m : Machine}
    (h : (s.point ⟨n, p⟩).run s.config.maxCallDepth = (.ok v, m)) (hv : ¬ s.Returns ⟨n, p⟩)
    (hq : q.statements ≠ []) :
    ∃ site, (s.point ⟨n, ⟨p.statements ++ q.statements⟩⟩).run s.config.maxCallDepth =
      (Block.eval (apply s.config.maxCallDepth s.config.maxCallDepth) s.root .null q.statements
        site).run m := by
  have hreturned : ¬ v.isReturned = true := by
    intro hr
    cases v with
    | returned w => exact hv ⟨w, by rw [h]⟩
    | int | bool | str | null | error | closure | builtin => cases hr
  rw [run_point] at h
  refine ⟨Nat.iterate (Site.child · 1) p.statements.length ⟨n, []⟩, ?_⟩
  rw [run_point, Block.eval_append _ _ _ _ _ _ rfl, run_bind_of_ok h, if_neg hreturned]
  -- the value of the first part is none of the second, which has a statement
  cases hs : q.statements with
  | nil => exact absurd hs hq
  | cons s ss => rfl

end

/-! ## Outcomes -/

theorem outcome_like {v w : Value} (h : v.Like w) : SameEnd Value.Like v.outcome w.outcome := by
  by_cases hv : v.type = .error
  · cases v with
    | error f =>
      cases w with
      | error g =>
        cases h
        exact .error f
      | int | bool | str | null | returned | closure | builtin => cases h
    | int | bool | str | null | returned | closure | builtin => cases hv
  · rw [Value.outcome_of_type hv, Value.outcome_of_type (h.type_eq ▸ hv)]
    exact .ok h

/-- Runs that come to values that are alike, or to the same fault, have outcomes that are. -/
theorem run_like {s' : Session} {t t' : Tree}
    (h : SameEnd Value.Like ((s.point t).run s.config.maxCallDepth).1
      ((s'.point t').run s'.config.maxCallDepth).1) :
    SameEnd Value.Like (s.run t).1 (s'.run t').1 := by
  rw [run_fst, run_fst]
  exact h.bind fun _ _ hvw => outcome_like hvw.unwrap

/-- A run that comes to the same has the same outcome, and leaves the same session. -/
theorem run_eq_of_run {t t' : Tree}
    (h : (s.point t').run s.config.maxCallDepth = (s.point t).run s.config.maxCallDepth) :
    s.run t' = s.run t :=
  Prod.ext (by rw [run_fst, run_fst, h]) (by rw [run_snd, run_snd, h])

/-! ## Texts -/

/-- Sessions are alike if they bind and wrote the same, up to the sites of function literals. -/
structure Like (s s' : Session) : Prop where
  machine : s.machine.Like s'.machine
  root_eq : s.root = s'.root
  config_eq : s.config = s'.config

section
variable {text text' : String} {p q : Program}

theorem evaluate_eq_error_iff (hs : s.machine.store.Every Value.Errorless)
    (hp : Program.parse text = .ok p) :
    (∃ e, (s.evaluate text).1 = .error e) ↔
      ∃ f, ((s.point ⟨s.trees, p⟩).run s.config.maxCallDepth).1 = .error f := by
  have hrun : ∀ f, (Session.run { s with trees := s.trees + 1 } ⟨s.trees, p⟩).1 = .error f ↔
      ((s.point ⟨s.trees, p⟩).run s.config.maxCallDepth).1 = .error f :=
    fun f => run_eq_error_iff (s := { s with trees := s.trees + 1 }) hs
  rw [evaluate_of_parse hp]
  constructor
  · rintro ⟨e, he⟩
    cases hr : (Session.run { s with trees := s.trees + 1 } ⟨s.trees, p⟩).1 with
    | error f => exact ⟨f, (hrun f).1 hr⟩
    | ok v =>
      rw [hr] at he
      cases he
  · rintro ⟨f, hf⟩
    rw [(hrun f).2 hf]
    exact ⟨.runtime f, rfl⟩

/-- A text is given in two parts, or at once, with no difference but in the sites of literals. -/
theorem evaluate_like (hp : Program.parse text = .ok p) (hq : Program.parse text' = .ok q)
    (hpq : Program.parse (text ++ text') = .ok ⟨p.statements ++ q.statements⟩)
    (hne : q.statements ≠ []) (hreturns : ¬ s.Returns ⟨s.trees, p⟩) {v : Value} {m : Machine}
    (hrun : (s.point ⟨s.trees, p⟩).run s.config.maxCallDepth = (.ok v, m)) :
    SameEnd Value.Like ((s.evaluate text).2.evaluate text').1 (s.evaluate (text ++ text')).1 ∧
      ((s.evaluate text).2.evaluate text').2.Like (s.evaluate (text ++ text')).2 := by
  obtain ⟨site, hone⟩ := run_point_append_of_ok hrun hreturns hne
  have hfirst : (s.evaluate text).2 = { s with trees := s.trees + 1, machine := m } := by
    rw [evaluate_of_parse hp, run_snd]
    exact congrArg (fun o : _ × Machine => { s with trees := s.trees + 1, machine := o.2 }) hrun
  have hsites : EvalM.Like Value.Like
      (Block.eval (apply s.config.maxCallDepth s.config.maxCallDepth) s.root .null q.statements
        ⟨s.trees + 1, []⟩)
      (Block.eval (apply s.config.maxCallDepth s.config.maxCallDepth) s.root .null q.statements
        site) := Block.eval_like (apply_like _ _) q.statements _ _ (.refl .null)
  obtain ⟨hend, hmachine⟩ := hsites m m (.refl m)
  rw [← hone] at hend hmachine
  rw [hfirst, evaluate_of_parse hq, evaluate_of_parse hpq]
  constructor
  · have hrun : SameEnd Value.Like
        (Session.run { s with trees := s.trees + 2, machine := m } ⟨s.trees + 1, q⟩).1
        (Session.run { s with trees := s.trees + 1 }
          ⟨s.trees, ⟨p.statements ++ q.statements⟩⟩).1 := run_like hend
    exact hrun.mapError _
  · rw [run_snd, run_snd]
    exact ⟨hmachine, rfl, rfl⟩

/-- What is said to a session in two texts, the first of which ends in a semicolon, can be said in
one. If the first fails or returns, that is all that happens. Else the session comes to the same
error or to values that are alike, and has bound and written the same, the sites of function
literals apart. -/
theorem evaluate_append (hs : s.machine.store.Every Value.Errorless)
    (hp : Program.parse text = .ok p) (hsemi : EndsInSemicolon text)
    (hq : Program.parse text' = .ok q) (hne : q.statements ≠ []) :
    Program.parse (text ++ text') = .ok ⟨p.statements ++ q.statements⟩ ∧
      ((∀ e, (s.evaluate text).1 ≠ .error e) → ¬ s.Returns ⟨s.trees, p⟩ →
        SameEnd (fun v w => v.Like w ∧ v.type = w.type ∧ v.text = w.text ∧ v.truthy = w.truthy)
            ((s.evaluate text).2.evaluate text').1 (s.evaluate (text ++ text')).1 ∧
          ((s.evaluate text).2.evaluate text').2.Like (s.evaluate (text ++ text')).2) ∧
      ((∃ e, (s.evaluate text).1 = .error e) ∨ s.Returns ⟨s.trees, p⟩ →
        s.evaluate (text ++ text') = s.evaluate text) := by
  have hpq := Program.parse_append hp hsemi hq
  refine ⟨hpq, fun hok hreturns => ?_, fun hstops => ?_⟩
  · rcases hrun : (s.point ⟨s.trees, p⟩).run s.config.maxCallDepth with ⟨f | v, m⟩
    · obtain ⟨e, he⟩ := (evaluate_eq_error_iff hs hp).2 ⟨f, by rw [hrun]⟩
      exact absurd he (hok e)
    · obtain ⟨hend, hlike⟩ := evaluate_like hp hq hpq hne hreturns hrun
      exact ⟨hend.imp fun v w h => ⟨h, h.type_eq, h.text_eq, h.truthy_eq⟩, hlike⟩
  · have hsame : (s.point ⟨s.trees, ⟨p.statements ++ q.statements⟩⟩).run s.config.maxCallDepth =
        (s.point ⟨s.trees, p⟩).run s.config.maxCallDepth := by
      rcases hstops with hfails | hreturns
      · obtain ⟨f, hf⟩ := (evaluate_eq_error_iff hs hp).1 hfails
        exact run_point_append_of_error hf
      · exact run_point_append_of_returns hreturns
    rw [evaluate_of_parse hp, evaluate_of_parse hpq,
      run_eq_of_run (s := { s with trees := s.trees + 1 }) hsame]

end

/-- `let x = 1;` and then a function come to a function that stands elsewhere in one text of both;
`return 1;` is all that happens of a text that starts with it. -/
theorem evaluate_append_functionOrReturn :
    (start ⟨512⟩ .endless).machine.store.Every Value.Errorless ∧
      (EndsInSemicolon "let x = 1;" ∧
        Program.parse "let x = 1;" = .ok ⟨[.bind "x" (.int 1)]⟩ ∧
        Program.parse "fn() \x7b x \x7d" = .ok ⟨[.expr (.fn [] [.expr (.name "x")])]⟩ ∧
        ∃ c d, (((start ⟨512⟩ .endless).evaluate "let x = 1;").2.evaluate "fn() \x7b x \x7d").1 =
            .ok (.closure c) ∧
          ((start ⟨512⟩ .endless).evaluate ("let x = 1;" ++ "fn() \x7b x \x7d")).1 =
            .ok (.closure d) ∧
          c.site ≠ d.site ∧ (Value.closure c).Like (.closure d)) ∧
      EndsInSemicolon "return 1;" ∧
        Program.parse "return 1;" = .ok ⟨[.ret (.int 1)]⟩ ∧
        Program.parse "x" = .ok ⟨[.expr (.name "x")]⟩ ∧
        (start ⟨512⟩ .endless).evaluate ("return 1;" ++ "x") =
          (start ⟨512⟩ .endless).evaluate "return 1;" := by
  have hs : (start ⟨512⟩ .endless).machine.store.Every Value.Errorless := Store.every_fresh _
  refine ⟨hs, ?_, ?_⟩
  · have hp : Program.parse "let x = 1;" = .ok ⟨[.bind "x" (.int 1)]⟩ := by decide +kernel
    have hq : Program.parse "fn() \x7b x \x7d" = .ok ⟨[.expr (.fn [] [.expr (.name "x")])]⟩ := by
      decide +kernel
    have hsemi : EndsInSemicolon "let x = 1;" := by decide +kernel
    obtain ⟨hpq, hgoes, -⟩ := evaluate_append hs hp hsemi hq (List.cons_ne_nil _ _)
    have hok : ∀ e, ((start ⟨512⟩ .endless).evaluate "let x = 1;").1 ≠ .error e := by
      rw [evaluate_of_parse hp]
      exact nofun
    have htwo : (((start ⟨512⟩ .endless).evaluate "let x = 1;").2.evaluate "fn() \x7b x \x7d").1 =
        .ok (.closure ⟨⟨[], [.expr (.name "x")], ⟨1, [0, 0]⟩⟩, ⟨0⟩⟩) := by
      rw [evaluate_of_parse hp, evaluate_of_parse hq]
      rfl
    have hone : ((start ⟨512⟩ .endless).evaluate ("let x = 1;" ++ "fn() \x7b x \x7d")).1 =
        .ok (.closure ⟨⟨[], [.expr (.name "x")], ⟨0, [0, 0, 1]⟩⟩, ⟨0⟩⟩) := by
      rw [evaluate_of_parse hpq]
      rfl
    refine ⟨hsemi, hp, hq, _, _, htwo, hone, by decide, ?_⟩
    obtain ⟨hend, -⟩ := hgoes hok nofun
    rw [htwo, hone] at hend
    cases hend with
    | ok h => exact h.1
  · have hp : Program.parse "return 1;" = .ok ⟨[.ret (.int 1)]⟩ := by decide +kernel
    have hq : Program.parse "x" = .ok ⟨[.expr (.name "x")]⟩ := by decide +kernel
    have hsemi : EndsInSemicolon "return 1;" := by decide +kernel
    obtain ⟨-, -, hstops⟩ := evaluate_append hs hp hsemi hq (List.cons_ne_nil _ _)
    exact ⟨hsemi, hp, hq, hstops (.inr ⟨.int 1, rfl⟩)⟩

end Session

end LetFn
