import LetFn.Proofs.Grammar.Nesting

/-!
# A lower limit only cuts off

With fewer levels of nesting a rule does what it does with more, or it fails because the text is
nested too deep.

* `CutOff r r'`: the outcome `r` is `r'`, unless the limit of nesting stops it; `CutOff.bind` takes
  a sequence of rules apart.
* `Rule.cutOff_expr`: fewer levels cut an expression off; each rule over it has a lemma of its own.
* `Program.ofWords_of_derives`: the words of a program come to it, or their first error is the
  nesting.
-/

namespace LetFn
open Token (Kind)

/-- The outcome `r` is `r'`, unless the limit of nesting stops it. -/
def CutOff {α : Type} (r r' : Except Failure α) : Prop :=
  r = r' ∨ ∃ rest, r = .error ⟨.tooDeep nestingLimit, rest⟩

namespace CutOff
variable {α β : Type}

@[refl] theorem refl (r : Except Failure α) : CutOff r r := .inl rfl

theorem tooDeep {rest : List Token} {r : Except Failure α} :
    CutOff (.error ⟨.tooDeep nestingLimit, rest⟩) r := .inr ⟨rest, rfl⟩

theorem bind {r r' : Except Failure α} {k k' : α → Except Failure β} (h : CutOff r r')
    (hk : ∀ a, CutOff (k a) (k' a)) : CutOff (r >>= k) (r' >>= k') := by
  rcases h with rfl | ⟨rest, rfl⟩
  · cases r with
    | error f => exact refl _
    | ok a => exact hk a
  · exact tooDeep

theorem map {r r' : Except Failure α} (h : CutOff r r') (g : α → β) :
    CutOff (r.map g) (r'.map g) := by
  rcases h with rfl | ⟨rest, rfl⟩
  · exact refl _
  · exact tooDeep

theorem eq_of_error {r r' : Except Failure α} {f : Failure} (h : CutOff r r')
    (hf : r = .error f) : r' = .error f ∨ ∃ rest, f = ⟨.tooDeep nestingLimit, rest⟩ := by
  rcases h with rfl | ⟨rest, h⟩
  · exact .inl hf
  · rw [hf, Except.error.injEq] at h
    exact .inr ⟨rest, h⟩

theorem eq_of_ok {r r' : Except Failure α} {a : α} (h : CutOff r r') (ha : r = .ok a) :
    r' = .ok a := by
  rcases h with rfl | ⟨rest, h⟩
  · exact ha
  · rw [ha] at h
    cases h

end CutOff

namespace Rule

/-! ## Lists of items -/

section
variable {α : Type} {item item' : Rule α} (hitem : ∀ ts, CutOff (item ts) (item' ts))
include hitem

theorem cutOff_itemsTo {bound : Nat} (done : List α) (ts : List Token) (h : ts.length < bound) :
    CutOff (itemsTo item done ts h) (itemsTo item' done ts h) := by
  fun_induction itemsTo item done ts h with
  | case1 done =>
    rw [itemsTo.eq_def item']
  | case2 done t ts h hk f hf =>
    rw [itemsTo.eq_def item']
    dsimp only
    rw [if_pos hk]
    rcases (hitem ts).eq_of_error hf with hf' | ⟨rest, rfl⟩
    · rw [hf']
    · exact .tooDeep
  | case3 done t ts h hk a mid hm ha _ ih =>
    rw [itemsTo.eq_def item']
    dsimp only
    rw [if_pos hk, (hitem ts).eq_of_ok ha]
    exact ih
  | case4 done t ts h hc hk =>
    rw [itemsTo.eq_def item']
    dsimp only
    rw [if_neg hc, if_pos hk]
  | case5 done t ts h hc hk =>
    rw [itemsTo.eq_def item']
    dsimp only
    rw [if_neg hc, if_neg hk]

theorem cutOff_separated (ts : List Token) : CutOff (separated item ts) (separated item' ts) := by
  unfold separated
  split
  · rfl
  · exact (hitem ts).bind fun p => cutOff_itemsTo hitem _ _ _

end

/-! ## Statements and expressions -/

section
variable {sub sub' : Nat → Rule Expr} (hsub : ∀ floor ts, CutOff (sub floor ts) (sub' floor ts))
include hsub

theorem cutOff_statement (ts : List Token) : CutOff (statement sub ts) (statement sub' ts) := by
  unfold statement
  split
  · exact (hsub 0 []).map _
  · split
    · refine (CutOff.refl _).bind fun x => (CutOff.refl _).bind fun s => ?_
      exact (hsub 0 s.rest).bind fun e => CutOff.refl _
    · exact (hsub 0 _).bind fun e => CutOff.refl _
    · exact (hsub 0 _).bind fun e => CutOff.refl _

theorem cutOff_statementsTo {bound : Nat} (done : Block) (ts : List Token)
    (h : ts.length < bound) :
    CutOff (statementsTo sub done ts h) (statementsTo sub' done ts h) := by
  fun_induction statementsTo sub done ts h with
  | case1 done => rw [statementsTo.eq_def sub']
  | case2 done t ts h hk =>
    rw [statementsTo.eq_def sub']
    dsimp only
    rw [if_pos hk]
  | case3 done t ts h hk f hf =>
    rw [statementsTo.eq_def sub']
    dsimp only
    rw [if_neg hk]
    rcases (cutOff_statement hsub (t :: ts)).eq_of_error hf with hf' | ⟨rest, rfl⟩
    · rw [hf']
    · exact .tooDeep
  | case4 done t ts h hk s mid hm hs _ ih =>
    rw [statementsTo.eq_def sub']
    dsimp only
    rw [if_neg hk, (cutOff_statement hsub (t :: ts)).eq_of_ok hs]
    exact ih

theorem cutOff_block (ts : List Token) : CutOff (block sub ts) (block sub' ts) :=
  (CutOff.refl _).bind fun _ => cutOff_statementsTo hsub _ _ _

theorem cutOff_linksAfter {floor bound : Nat} (left : Expr) (ts : List Token)
    (h : ts.length < bound) :
    CutOff (linksAfter sub floor left ts h) (linksAfter sub' floor left ts h) := by
  fun_induction linksAfter sub floor left ts h with
  | case1 left => rw [linksAfter.eq_def sub']
  | case2 left t ts h hk =>
    rw [linksAfter.eq_def sub']
    dsimp only
    rw [hk]
  | case3 left t ts h op f hf _ hk hlt =>
    rw [linksAfter.eq_def sub']
    dsimp only
    rw [hk]
    dsimp only
    rw [if_pos hlt]
    rcases (hsub op.strength ts).eq_of_error hf with hf' | ⟨rest, rfl⟩
    · rw [hf']
    · exact .tooDeep
  | case4 left t ts h op right mid hm hr _ hk hlt ih =>
    rw [linksAfter.eq_def sub']
    dsimp only
    rw [hk]
    dsimp only
    rw [if_pos hlt, (hsub op.strength ts).eq_of_ok hr]
    exact ih
  | case5 left t ts h f hf _ hk hlt =>
    rw [linksAfter.eq_def sub']
    dsimp only
    rw [hk]
    dsimp only
    rw [if_pos hlt]
    rcases (cutOff_separated (hsub 0) ts).eq_of_error hf with hf' | ⟨rest, rfl⟩
    · rw [hf']
    · exact .tooDeep
  | case6 left t ts h args mid hm ha _ hk hlt ih =>
    rw [linksAfter.eq_def sub']
    dsimp only
    rw [hk]
    dsimp only
    rw [if_pos hlt, (cutOff_separated (hsub 0) ts).eq_of_ok ha]
    exact ih
  | case7 left t ts h link hk hlt =>
    rw [linksAfter.eq_def sub']
    dsimp only
    rw [hk]
    dsimp only
    rw [if_neg hlt]

theorem cutOff_conditional (ts : List Token) :
    CutOff (conditional sub ts) (conditional sub' ts) := by
  refine (CutOff.refl _).bind fun l => (hsub 0 l.rest).bind fun test => ?_
  refine (CutOff.refl _).bind fun r => (cutOff_block hsub r.rest).bind fun ⟨yes, mid, hmid⟩ => ?_
  by_cases hk : nextKind mid = .elseWord
  · simp only [if_pos hk]
    exact (CutOff.refl _).bind fun o => (cutOff_block hsub _).bind fun no => CutOff.refl _
  · simp only [if_neg hk]
    rfl

theorem cutOff_function (ts : List Token) : CutOff (function sub ts) (function sub' ts) := by
  refine (CutOff.refl _).bind fun l => (CutOff.refl _).bind fun xs => ?_
  exact (cutOff_block hsub xs.rest).bind fun body => CutOff.refl _

theorem cutOff_operand (ts : List Token) : CutOff (operand sub ts) (operand sub' ts) := by
  unfold operand
  split
  · rfl
  · split
    · rfl
    · rfl
    · rfl
    · rfl
    · rfl
    · exact (hsub _ _).bind fun e => CutOff.refl _
    · exact (hsub _ _).bind fun e => CutOff.refl _
    · exact (hsub _ _).bind fun e => (CutOff.refl _).bind fun r => CutOff.refl _
    · exact (cutOff_conditional hsub _).bind fun e => CutOff.refl _
    · exact (cutOff_function hsub _).bind fun e => CutOff.refl _
    · rfl

end

/-- Fewer levels of nesting cut an expression off. -/
theorem cutOff_expr {m n : Nat} (hmn : m ≤ n) (floor : Nat) (ts : List Token) :
    CutOff (expr m floor ts) (expr n floor ts) := by
  induction m generalizing n floor ts with
  | zero => exact .tooDeep
  | succ m ih =>
    cases n with
    | zero => exact absurd hmn (Nat.not_succ_le_zero m)
    | succ n =>
      have hsub : ∀ floor ts, CutOff (expr m floor ts) (expr n floor ts) :=
        ih (Nat.le_of_succ_le_succ hmn)
      exact (cutOff_operand hsub ts).bind fun left => cutOff_linksAfter hsub _ _ _

end Rule

/-! ## Whole texts -/

/-- The statements of a row are read at a lower limit, up to the first that is nested too deep. -/
theorem Reading.Row.outcomes_or_tooDeep {n : Nat} (hn : nestingLimit ≤ n) {ts : List Token}
    {b : LetFn.Block} (h : Reading.Row (Rule.expr n) ts b []) (stop : Position) :
    LetFn.outcomes stop ts = b.map .ok ∨
      ∃ (done : LetFn.Block) (e : ParseError) (more : List (Except ParseError Stmt)),
        LetFn.outcomes stop ts = done.map .ok ++ .error e :: more ∧
          e.fault = .tooDeep nestingLimit := by
  generalize hrest : ([] : List Token) = rest at h
  induction h with
  | nil =>
    rw [← hrest]
    exact .inl (outcomes_nil stop)
  | @cons ts mid rest s ss hs _ ih =>
    have hs := Rule.reads_statement_iff.2 hs
    obtain ⟨hlt, heq⟩ := hs
    rcases Rule.cutOff_statement (Rule.cutOff_expr hn) ts with hsame | ⟨rest', hdeep⟩
    · rw [outcomes_of_reads ⟨hlt, hsame.trans heq⟩]
      rcases ih hrest with h | ⟨done, e, more, h, hdeep⟩
      · exact .inl (by rw [h, List.map_cons])
      · exact .inr ⟨s :: done, e, more, by rw [h, List.map_cons, List.cons_append], hdeep⟩
    · cases ts with
      | nil => exact absurd hlt (Nat.not_lt_zero _)
      | cons t ts => exact .inr ⟨[], _, _, outcomes_of_error hdeep, rfl⟩

/-- The words of a program come to it, or they are nested too deep and that is their first error. -/
theorem Program.ofWords_of_derives {n : Nat} {ts : List Token} {p : Program}
    (h : Grammar.Derives n ts p) (stop : Position) :
    ofWords ts stop = .ok p ∨
      ∃ e es, ofWords ts stop = .error (e :: es) ∧ e.fault = .tooDeep nestingLimit := by
  have hrow := row_iff_statements.2 (h.mono (Nat.le_max_right nestingLimit n))
  rcases hrow.outcomes_or_tooDeep (Nat.le_max_left nestingLimit n) stop with
    ho | ⟨done, e, more, ho, hdeep⟩
  · have herr : errorsOf (outcomes stop ts) = [] := by
      have h := errorsOf_ok_append p.statements []
      rw [List.append_nil] at h
      rw [ho, h]
      rfl
    rw [ofWords_eq_ok herr, ho, List.filterMap_map]
    exact .inl (congrArg _ (congrArg Program.mk List.filterMap_some))
  · have herr : errorsOf (outcomes stop ts) = e :: errorsOf more := by
      rw [ho, errorsOf_ok_append]
      rfl
    refine .inr ⟨e, errorsOf more, ?_, hdeep⟩
    rw [ofWords_eq_error (by rw [herr]; exact List.cons_ne_nil _ _), herr]

end LetFn
