import LetFn.Proofs.Lexer.Words
import LetFn.Proofs.Parser.Outcomes
import Mathlib.Data.List.Forall2

/-!
# Places do not decide what is read

Tokens of the same words are read alike, wherever they stand in a text.

* `SameWords`: tokens of the same words.
* `Alike R r r'`: outcomes of a rule on such tokens; `Alike.bind` takes a sequence of rules apart.
* `Rule.alike_expr`: the rule for expressions, over a lemma for each rule that it is made of.
* `outcomes_of_sameWords`: statements come to the same, and recovery from broken ones goes on at the
  same word.
* `Program.mapError_ofWords`: tokens come to the program, or to the faults, that their words come to
  elsewhere.
-/

namespace LetFn
open Token (Kind)

/-- Tokens of the same words, whatever their places. -/
abbrev SameWords : List Token → List Token → Prop := List.Forall₂ fun t u => t.word = u.word

theorem sameWords_iff {ts us : List Token} :
    SameWords ts us ↔ ts.map Token.word = us.map Token.word := by
  rw [← List.forall₂_eq_eq_eq, List.forall₂_map_left_iff, List.forall₂_map_right_iff]

namespace SameWords
variable {t : Token} {ts us : List Token}

theorem exists_cons (h : SameWords (t :: ts) us) :
    ∃ place vs, us = { t with position := place } :: vs ∧ SameWords ts vs := by
  obtain ⟨⟨kind, text, place⟩, vs, htu, hw, rfl⟩ := List.forall₂_cons_left_iff.1 h
  obtain ⟨rfl, rfl⟩ := Prod.mk.inj htu
  exact ⟨place, vs, rfl, hw⟩

theorem nextKind_eq (h : SameWords ts us) : nextKind us = nextKind ts := by
  cases h with
  | nil => rfl
  | cons htu => exact congrArg Prod.fst htu.symm

theorem dropSemicolon (h : SameWords ts us) : SameWords (dropSemicolon ts) (dropSemicolon us) := by
  cases ts with
  | nil =>
    cases h
    exact .nil
  | cons t ts =>
    obtain ⟨place, us, rfl, hw⟩ := h.exists_cons
    unfold LetFn.dropSemicolon
    dsimp only
    split
    · exact hw
    · exact h

end SameWords

/-! ## Outcomes -/

/-- Both outcomes are values that belong together, or the same fault, with the same words left. -/
inductive Alike {α : Type} (R : α → α → Prop) {m n : Nat} :
    Except Failure (Parsed α m) → Except Failure (Parsed α n) → Prop
  | ok {a b : α} {ts us : List Token} {h : ts.length < m} {h' : us.length < n} :
      R a b → SameWords ts us → Alike R (.ok ⟨a, ts, h⟩) (.ok ⟨b, us, h'⟩)
  | error {f : ParseFault} {ts us : List Token} :
      SameWords ts us → Alike R (.error ⟨f, ts⟩) (.error ⟨f, us⟩)

namespace Alike
variable {α β : Type} {R : α → α → Prop} {S : β → β → Prop} {m n p q : Nat}
  {r : Except Failure (Parsed α m)} {r' : Except Failure (Parsed α n)}

theorem bind {k : Parsed α m → Except Failure (Parsed β p)}
    {k' : Parsed α n → Except Failure (Parsed β q)} (h : Alike R r r')
    (hk : ∀ a b ts us hts hus, R a b → SameWords ts us →
      Alike S (k ⟨a, ts, hts⟩) (k' ⟨b, us, hus⟩)) : Alike S (r >>= k) (r' >>= k') := by
  cases h with
  | ok hab hw => exact hk _ _ _ _ _ _ hab hw
  | error hw => exact .error hw

theorem exists_of_ok {a : α} {ts : List Token} {hts : ts.length < m} (h : Alike Eq r r')
    (hr : r = .ok ⟨a, ts, hts⟩) :
    ∃ us, ∃ hus : us.length < n, r' = .ok ⟨a, us, hus⟩ ∧ SameWords ts us := by
  subst hr
  cases h with
  | ok hab hw =>
    subst hab
    exact ⟨_, _, rfl, hw⟩

theorem exists_of_error {f : Failure} (h : Alike R r r') (hr : r = .error f) :
    ∃ us, r' = .error ⟨f.fault, us⟩ ∧ SameWords f.rest us := by
  subst hr
  cases h with
  | error hw => exact ⟨_, rfl, hw⟩

end Alike

theorem alike_expect (wanted : Kind) {ts us : List Token} (h : SameWords ts us) :
    Alike (fun t u => t.text = u.text) (expect wanted ts) (expect wanted us) := by
  cases ts with
  | nil =>
    cases h
    exact .error .nil
  | cons t ts =>
    obtain ⟨place, us, rfl, hw⟩ := h.exists_cons
    simp only [expect]
    split
    · exact .ok rfl hw
    · exact .error h

namespace Rule

/-! ## Lists of items -/

section
variable {α : Type} {item : Rule α}
  (hitem : ∀ {ts us}, SameWords ts us → Alike Eq (item ts) (item us))
include hitem

theorem alike_itemsTo {m n : Nat} (done : List α) {ts us : List Token} (hw : SameWords ts us)
    (h : ts.length < m) (h' : us.length < n) :
    Alike Eq (itemsTo item done ts h) (itemsTo item done us h') := by
  fun_induction itemsTo item done ts h generalizing us with
  | case1 done =>
    cases hw
    rw [itemsTo.eq_def]
    exact .error .nil
  | case2 done t ts h hk f hf =>
    obtain ⟨place, us, rfl, hws⟩ := hw.exists_cons
    obtain ⟨vs, hf', hvs⟩ := (hitem hws).exists_of_error hf
    rw [itemsTo.eq_def]
    dsimp only
    rw [if_pos hk, hf']
    exact .error hvs
  | case3 done t ts h hk a mid hm ha _ ih =>
    obtain ⟨place, us, rfl, hws⟩ := hw.exists_cons
    obtain ⟨vs, hvs, ha', hmid⟩ := (hitem hws).exists_of_ok ha
    rw [itemsTo.eq_def item _ (_ :: us)]
    dsimp only
    rw [if_pos hk, ha']
    exact ih hmid _
  | case4 done t ts h hc hk =>
    obtain ⟨place, us, rfl, hws⟩ := hw.exists_cons
    rw [itemsTo.eq_def]
    dsimp only
    rw [if_neg hc, if_pos hk]
    exact .ok rfl hws
  | case5 done t ts h hc hk =>
    obtain ⟨place, us, rfl, hws⟩ := hw.exists_cons
    rw [itemsTo.eq_def]
    dsimp only
    rw [if_neg hc, if_neg hk]
    exact .error hw

theorem alike_separated {ts us : List Token} (hw : SameWords ts us) :
    Alike Eq (separated item ts) (separated item us) := by
  unfold separated
  rw [hw.nextKind_eq]
  split
  · exact (alike_expect .rightParen hw).bind fun _ _ _ _ _ _ _ hw => .ok rfl hw
  · refine (hitem hw).bind fun a b ts us hts hus hab hw => ?_
    subst hab
    exact alike_itemsTo hitem _ hw _ _

end

/-! ## Statements and expressions -/

section
variable {sub : Nat → Rule Expr}
  (hsub : ∀ (floor : Nat) {ts us : List Token}, SameWords ts us →
    Alike Eq (sub floor ts) (sub floor us)) {ts us : List Token}
include hsub

theorem alike_statement (hw : SameWords ts us) :
    Alike Eq (statement sub ts) (statement sub us) := by
  cases ts with
  | nil =>
    cases hw
    exact (hsub 0 .nil).bind fun _ _ _ _ _ _ hab hw => .ok (congrArg _ hab) hw
  | cons t ts =>
    obtain ⟨place, us, rfl, hws⟩ := hw.exists_cons
    simp only [statement]
    split
    · refine (alike_expect .name hws).bind fun x y _ _ _ _ hxy hw => ?_
      refine (alike_expect .assign hw).bind fun _ _ _ _ _ _ _ hw => ?_
      refine (hsub 0 hw).bind fun _ _ _ _ _ _ hab hw => ?_
      exact .ok (congrArg₂ _ hxy hab) hw.dropSemicolon
    · refine (hsub 0 hws).bind fun _ _ _ _ _ _ hab hw => ?_
      exact .ok (congrArg _ hab) hw.dropSemicolon
    · refine (hsub 0 hw).bind fun _ _ _ _ _ _ hab hw => ?_
      exact .ok (congrArg _ hab) hw.dropSemicolon

theorem alike_statementsTo {m n : Nat} (done : Block) (hw : SameWords ts us) (h : ts.length < m)
    (h' : us.length < n) :
    Alike Eq (statementsTo sub done ts h) (statementsTo sub done us h') := by
  fun_induction statementsTo sub done ts h generalizing us with
  | case1 done =>
    cases hw
    rw [statementsTo.eq_def]
    exact .error .nil
  | case2 done t ts h hk =>
    obtain ⟨place, us, rfl, hws⟩ := hw.exists_cons
    rw [statementsTo.eq_def]
    dsimp only
    rw [if_pos hk]
    exact .ok rfl hws
  | case3 done t ts h hk f hf =>
    obtain ⟨vs, hf', hvs⟩ := (alike_statement hsub hw).exists_of_error hf
    obtain ⟨place, us, rfl, -⟩ := hw.exists_cons
    rw [statementsTo.eq_def]
    dsimp only
    rw [if_neg hk, hf']
    exact .error hvs
  | case4 done t ts h hk s mid hm hs _ ih =>
    obtain ⟨vs, hvs, hs', hmid⟩ := (alike_statement hsub hw).exists_of_ok hs
    obtain ⟨place, us, rfl, -⟩ := hw.exists_cons
    rw [statementsTo.eq_def sub _ (_ :: us)]
    dsimp only
    rw [if_neg hk, hs']
    exact ih hmid _

theorem alike_block (hw : SameWords ts us) : Alike Eq (block sub ts) (block sub us) :=
  (alike_expect .leftBrace hw).bind fun _ _ _ _ _ _ _ hw => alike_statementsTo hsub _ hw _ _

theorem alike_linksAfter {m n floor : Nat} (left : Expr) (hw : SameWords ts us)
    (h : ts.length < m) (h' : us.length < n) :
    Alike Eq (linksAfter sub floor left ts h) (linksAfter sub floor left us h') := by
  fun_induction linksAfter sub floor left ts h generalizing us with
  | case1 left =>
    cases hw
    rw [linksAfter.eq_def]
    exact .ok rfl .nil
  | case2 left t ts h hk =>
    obtain ⟨place, us, rfl, -⟩ := hw.exists_cons
    rw [linksAfter.eq_def]
    dsimp only
    rw [hk]
    exact .ok rfl hw
  | case3 left t ts h op f hf _ hk hlt =>
    obtain ⟨place, us, rfl, hws⟩ := hw.exists_cons
    obtain ⟨vs, hf', hvs⟩ := (hsub _ hws).exists_of_error hf
    rw [linksAfter.eq_def]
    dsimp only
    rw [hk]
    dsimp only
    rw [if_pos hlt, hf']
    exact .error hvs
  | case4 left t ts h op right mid hm hr _ hk hlt ih =>
    obtain ⟨place, us, rfl, hws⟩ := hw.exists_cons
    obtain ⟨vs, hvs, hr', hmid⟩ := (hsub _ hws).exists_of_ok hr
    rw [linksAfter.eq_def sub _ _ (_ :: us)]
    dsimp only
    rw [hk]
    dsimp only
    rw [if_pos hlt, hr']
    exact ih hmid _
  | case5 left t ts h f hf _ hk hlt =>
    obtain ⟨place, us, rfl, hws⟩ := hw.exists_cons
    obtain ⟨vs, hf', hvs⟩ := (alike_separated (hsub 0) hws).exists_of_error hf
    rw [linksAfter.eq_def]
    dsimp only
    rw [hk]
    dsimp only
    rw [if_pos hlt, hf']
    exact .error hvs
  | case6 left t ts h args mid hm ha _ hk hlt ih =>
    obtain ⟨place, us, rfl, hws⟩ := hw.exists_cons
    obtain ⟨vs, hvs, ha', hmid⟩ := (alike_separated (hsub 0) hws).exists_of_ok ha
    rw [linksAfter.eq_def sub _ _ (_ :: us)]
    dsimp only
    rw [hk]
    dsimp only
    rw [if_pos hlt, ha']
    exact ih hmid _
  | case7 left t ts h link hk hlt =>
    obtain ⟨place, us, rfl, -⟩ := hw.exists_cons
    rw [linksAfter.eq_def]
    dsimp only
    rw [hk]
    dsimp only
    rw [if_neg hlt]
    exact .ok rfl hw

theorem alike_conditional (hw : SameWords ts us) :
    Alike Eq (conditional sub ts) (conditional sub us) := by
  refine (alike_expect .leftParen hw).bind fun _ _ _ _ _ _ _ hw => ?_
  refine (hsub 0 hw).bind fun test test' _ _ _ _ htest hw => ?_
  refine (alike_expect .rightParen hw).bind fun _ _ _ _ _ _ _ hw => ?_
  refine (alike_block hsub hw).bind fun yes yes' _ _ _ _ hyes hw => ?_
  subst htest hyes
  dsimp only
  rw [hw.nextKind_eq]
  split
  · refine (alike_expect .elseWord hw).bind fun _ _ _ _ _ _ _ hw => ?_
    refine (alike_block hsub hw).bind fun no no' _ _ _ _ hno hw => ?_
    exact .ok (congrArg (fun n => Expr.cond test yes (some n)) hno) hw
  · exact .ok rfl hw

omit hsub in
theorem alike_param (hw : SameWords ts us) : Alike Eq (param ts) (param us) :=
  (alike_expect .name hw).bind fun _ _ _ _ _ _ hxy hw => .ok hxy hw

theorem alike_function (hw : SameWords ts us) :
    Alike Eq (function sub ts) (function sub us) := by
  refine (alike_expect .leftParen hw).bind fun _ _ _ _ _ _ _ hw => ?_
  refine (alike_separated alike_param hw).bind fun _ _ _ _ _ _ hxs hw => ?_
  refine (alike_block hsub hw).bind fun _ _ _ _ _ _ hb hw => ?_
  exact .ok (congrArg₂ _ hxs hb) hw

theorem alike_operand (hw : SameWords ts us) : Alike Eq (operand sub ts) (operand sub us) := by
  cases ts with
  | nil =>
    cases hw
    exact .error .nil
  | cons t ts =>
    obtain ⟨place, us, rfl, hws⟩ := hw.exists_cons
    have hint : Token.integer? { t with position := place } = t.integer? := rfl
    simp only [operand, hint]
    split
    · exact .ok rfl hws
    · split
      · exact .ok rfl hws
      · exact .error hw
    · exact .ok rfl hws
    · exact .ok rfl hws
    · exact .ok rfl hws
    · exact (hsub _ hws).bind fun _ _ _ _ _ _ he hw => .ok (congrArg _ he) hw
    · exact (hsub _ hws).bind fun _ _ _ _ _ _ he hw => .ok (congrArg _ he) hw
    · refine (hsub _ hws).bind fun _ _ _ _ _ _ he hw => ?_
      exact (alike_expect .rightParen hw).bind fun _ _ _ _ _ _ _ hw => .ok he hw
    · exact (alike_conditional hsub hws).bind fun _ _ _ _ _ _ he hw => .ok he hw
    · exact (alike_function hsub hws).bind fun _ _ _ _ _ _ he hw => .ok he hw
    · exact .error hw

end

/-- Expressions are read alike. -/
theorem alike_expr (levels floor : Nat) {ts us : List Token} (hw : SameWords ts us) :
    Alike Eq (expr levels floor ts) (expr levels floor us) := by
  induction levels generalizing floor ts us with
  | zero => exact .error hw
  | succ levels ih =>
    refine (alike_operand (fun floor => ih floor) hw).bind fun left _ _ _ _ _ hleft hw => ?_
    subst hleft
    exact alike_linksAfter (fun floor => ih floor) left hw _ _

end Rule

/-! ## Rows of statements -/

/-- Rows of statements are read alike. -/
theorem Reading.Row.sameWords {n : Nat} {ts : List Token} {ss : LetFn.Block}
    (h : Reading.Row (Rule.expr n) ts ss []) {us : List Token} (hw : SameWords ts us) :
    Reading.Row (Rule.expr n) us ss [] := by
  generalize hrest : ([] : List Token) = rest at h
  induction h generalizing us with
  | nil =>
    subst hrest
    cases hw
    exact .nil
  | cons hs _ ih =>
    obtain ⟨hlt, hs⟩ := Rule.reads_statement_iff.2 hs
    have halike := Rule.alike_statement (fun floor => Rule.alike_expr n floor) hw
    obtain ⟨vs, hvs, hs', hmid⟩ := halike.exists_of_ok hs
    exact .cons (Rule.reads_statement_iff.1 ⟨hvs, hs'⟩) (ih hmid hrest)

/-! ## Recovery and faults -/

namespace SameWords
variable {ts us : List Token}

theorem braceDepth_eq (h : SameWords ts us) (depth : Int) :
    braceDepth depth us = braceDepth depth ts := by
  induction h generalizing depth with
  | nil => rfl
  | cons htu _ ih =>
    have hkind := congrArg Prod.fst htu
    simp only [Token.word] at hkind
    simp only [braceDepth, ← hkind, ih]

theorem fromSemicolon (h : SameWords ts us) (depth : Int) :
    SameWords (fromSemicolon depth ts) (fromSemicolon depth us) := by
  induction h generalizing depth with
  | nil => exact .nil
  | cons htu h ih =>
    have hkind := congrArg Prod.fst htu
    simp only [Token.word] at hkind
    simp only [LetFn.fromSemicolon, ← hkind]
    split
    · split
      · exact .cons htu h
      · exact ih depth
    · exact ih _
    · exact ih _
    · exact ih _

theorem recover (h : SameWords ts us) (left : Nat) :
    SameWords (recover ts left) (recover us left) := by
  have htaken : SameWords (ts.take (ts.length - left)) (us.take (ts.length - left)) :=
    List.forall₂_take _ h
  simp only [LetFn.recover, List.splitAt_eq, ← h.length_eq, htaken.braceDepth_eq]
  exact fromSemicolon (List.forall₂_drop _ h) _

theorem tail (h : SameWords ts us) : SameWords ts.tail us.tail := by
  cases h with
  | nil => exact .nil
  | cons _ h => exact h

end SameWords

/-- The statements of some words come to the same statements and faults elsewhere. -/
theorem outcomes_of_sameWords (stop stop' : Position) {ts us : List Token}
    (hw : SameWords ts us) :
    (outcomes stop us).map (Except.mapError ParseError.fault) =
      (outcomes stop' ts).map (Except.mapError ParseError.fault) := by
  refine outcomes_induction (motive := fun ts read => ∀ us, SameWords ts us →
    (outcomes stop us).map (Except.mapError ParseError.fault) =
      read.map (Except.mapError ParseError.fault)) ?_ ?_ ?_ ts us hw
  · rintro us ⟨⟩
    rw [outcomes_nil]
  · rintro ts s rest ⟨hlt, hs⟩ ih us hw
    have halike := Rule.alike_statement (fun floor => Rule.alike_expr nestingLimit floor) hw
    obtain ⟨vs, hvs, hs', hrest⟩ := halike.exists_of_ok hs
    rw [outcomes_of_reads ⟨hvs, hs'⟩, List.map_cons, List.map_cons, ih vs hrest]
  · intro t ts f hf behind ih us hw
    have halike := Rule.alike_statement (fun floor => Rule.alike_expr nestingLimit floor) hw
    obtain ⟨vs, hf', hrest⟩ := halike.exists_of_error hf
    obtain ⟨place, ws, rfl, -⟩ := hw.exists_cons
    have hbehind := (hw.recover f.rest.length).tail
    rw [outcomes_of_error hf', List.map_cons, List.map_cons, ← hrest.length_eq, ih _ hbehind]
    rfl

theorem map_fault_errorsOf (read : List (Except ParseError Stmt)) :
    (errorsOf read).map ParseError.fault =
      (read.map (Except.mapError ParseError.fault)).filterMap
        fun | .error f => some f | .ok _ => none := by
  rw [errorsOf, List.map_filterMap, List.filterMap_map]
  refine congrArg (List.filterMap · read) (funext fun r => ?_)
  cases r <;> rfl

theorem filterMap_toOption_mapError (read : List (Except ParseError Stmt)) :
    (read.map (Except.mapError ParseError.fault)).filterMap Except.toOption =
      read.filterMap Except.toOption := by
  rw [List.filterMap_map]
  refine congrArg (List.filterMap · read) (funext fun r => ?_)
  cases r <;> rfl

/-- The places of some words decide neither which program they come to nor which faults. -/
theorem Program.mapError_ofWords {ts us : List Token} (hw : SameWords ts us)
    (stop stop' : Position) :
    (ofWords us stop).mapError (List.map ParseError.fault) =
      (ofWords ts stop').mapError (List.map ParseError.fault) := by
  have houtcomes := outcomes_of_sameWords stop stop' hw
  have hfaults : (errorsOf (outcomes stop us)).map ParseError.fault =
      (errorsOf (outcomes stop' ts)).map ParseError.fault := by
    rw [map_fault_errorsOf, houtcomes, ← map_fault_errorsOf]
  by_cases hnone : errorsOf (outcomes stop' ts) = []
  · rw [hnone, List.map_nil, List.map_eq_nil_iff] at hfaults
    rw [ofWords_eq_ok hfaults, ofWords_eq_ok hnone, ← filterMap_toOption_mapError, houtcomes,
      filterMap_toOption_mapError]
  · have hsome : errorsOf (outcomes stop us) ≠ [] := by
      rwa [Ne, ← List.map_eq_nil_iff (f := ParseError.fault), hfaults, List.map_eq_nil_iff]
    rw [ofWords_eq_error hsome, ofWords_eq_error hnone]
    exact congrArg Except.error hfaults

end LetFn
