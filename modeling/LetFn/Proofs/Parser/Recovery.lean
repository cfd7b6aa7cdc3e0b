import LetFn.Proofs.Parser.Sentences
import Mathlib.Data.Nat.Find
import Mathlib.Order.Bounds.Basic

/-!
# Where recovery stops

A broken statement should end at the first semicolon outside of the braces that it opened. Recovery
counts closing braces against opening ones, so a closing brace that closes nothing hides an opening
one further on.

* `openBraces`: the braces open after some words, a closing one closing one of them at most;
  `StatementEnd` is where a broken statement should end.
* `fromSemicolon_eq_drop`: where recovery stops, by the count of `braceDepth`.
* `recover_statementEnd_iff`: recovery never stops too late, and in time exactly if no semicolon on
  its way stands inside braces that the count has lost.
-/

namespace LetFn

/-! ## Open braces -/

/-- The braces open after some words: a closing one closes the last that is open, if one is. -/
def openBraces (n : Nat) : List Token → Nat
  | [] => n
  | t :: ts =>
    match t.kind with
    | .leftBrace => openBraces (n + 1) ts
    | .rightBrace => openBraces (n - 1) ts
    | _ => openBraces n ts

/-- The count is low where a brace was closed that was not open. -/
theorem braceDepth_le_openBraces {d : Int} {n : Nat} (h : d ≤ n) (ts : List Token) :
    braceDepth d ts ≤ openBraces n ts := by
  induction ts generalizing d n with
  | nil => exact h
  | cons t ts ih =>
    by_cases hl : t.kind = .leftBrace
    · rw [braceDepth, openBraces, hl]
      exact ih (by omega)
    · by_cases hr : t.kind = .rightBrace
      · rw [braceDepth, openBraces, hr]
        exact ih (by omega)
      · have hcount : braceDepth d (t :: ts) = braceDepth d ts := by
          rw [braceDepth]
          split <;> first | rfl | contradiction
        have hopen : openBraces n (t :: ts) = openBraces n ts := by
          rw [openBraces]
          split <;> first | rfl | contradiction
        rw [hcount, hopen]
        exact ih h

/-- A word that does not end the statement only changes the count. -/
theorem exists_count (depth : Int) (t : Token) :
    ∃ d, (∀ ts, braceDepth depth (t :: ts) = braceDepth d ts) ∧
      (¬ (t.kind = .semicolon ∧ depth ≤ 0) →
        ∀ ts, fromSemicolon depth (t :: ts) = fromSemicolon d ts) := by
  by_cases hl : t.kind = .leftBrace
  · exact ⟨depth + 1, fun ts => by rw [braceDepth, hl], fun _ ts => by rw [fromSemicolon, hl]⟩
  · by_cases hr : t.kind = .rightBrace
    · exact ⟨depth - 1, fun ts => by rw [braceDepth, hr], fun _ ts => by rw [fromSemicolon, hr]⟩
    · refine ⟨depth, fun ts => ?_, fun hs ts => ?_⟩
      · rw [braceDepth]
        split <;> first | rfl | contradiction
      · rw [fromSemicolon]
        split
        · next hk => exact if_neg fun hd => hs ⟨hk, hd⟩
        all_goals first | rfl | contradiction

theorem braceDepth_append (d : Int) (us vs : List Token) :
    braceDepth d (us ++ vs) = braceDepth (braceDepth d us) vs := by
  induction us generalizing d with
  | nil => rfl
  | cons t us ih =>
    obtain ⟨e, he, -⟩ := exists_count d t
    rw [List.cons_append, he, he, ih]

/-! ## Ends of broken statements -/

def SemicolonAt (ts : List Token) (i : Nat) : Prop := ts[i]?.map Token.kind = some .semicolon

/-- A broken statement that starts `ts` should end here, if it does not end before: with the text,
or at a semicolon outside of the braces that it opened. -/
def StatementEnd (ts : List Token) (i : Nat) : Prop :=
  i = ts.length ∨ SemicolonAt ts i ∧ openBraces 0 (ts.take i) = 0

/-- Recovery ends a statement here, if not before, `depth` being the count in front of `ts`. -/
def CountedEnd (depth : Int) (ts : List Token) (i : Nat) : Prop :=
  i = ts.length ∨ SemicolonAt ts i ∧ braceDepth depth (ts.take i) ≤ 0

instance (ts : List Token) (i : Nat) : Decidable (SemicolonAt ts i) :=
  inferInstanceAs (Decidable (_ = _))

instance (ts : List Token) (i : Nat) : Decidable (StatementEnd ts i) :=
  inferInstanceAs (Decidable (_ ∨ _))

section
variable {ts : List Token} {p i : Nat}

theorem SemicolonAt.exists_getElem? (h : SemicolonAt ts i) :
    ∃ t, ts[i]? = some t ∧ t.kind = .semicolon := Option.map_eq_some_iff.1 h

theorem SemicolonAt.lt (h : SemicolonAt ts i) : i < ts.length := by
  obtain ⟨t, ht, -⟩ := h.exists_getElem?
  exact (List.getElem?_eq_some_iff.1 ht).1

theorem CountedEnd.le {depth : Int} (h : CountedEnd depth ts i) : i ≤ ts.length := by
  rcases h with h | ⟨h, -⟩
  · exact h.le
  · exact h.lt.le

theorem StatementEnd.counted (h : StatementEnd ts i) : CountedEnd 0 ts i := by
  refine h.imp_right fun ⟨hsemi, hopen⟩ => ⟨hsemi, ?_⟩
  have hle := braceDepth_le_openBraces (Int.le_refl 0) (ts.take i)
  rwa [hopen] at hle

/-- From any index in the text on there is a first one where the statement should end. -/
theorem exists_statementEnd (hp : p ≤ ts.length) :
    ∃ j, IsLeast {i | p ≤ i ∧ StatementEnd ts i} j := by
  classical
  have hex : ∃ i, p ≤ i ∧ StatementEnd ts i := ⟨ts.length, hp, .inl rfl⟩
  exact ⟨Nat.find hex, Nat.find_spec hex, fun i hi => Nat.find_min' hex hi⟩

end

/-- Recovery stops where its count says. -/
theorem fromSemicolon_eq_drop (depth : Int) (ts : List Token) :
    ∃ k, fromSemicolon depth ts = ts.drop k ∧ IsLeast {i | CountedEnd depth ts i} k := by
  induction ts generalizing depth with
  | nil => exact ⟨0, rfl, .inl rfl, fun i _ => Nat.zero_le i⟩
  | cons t ts ih =>
    by_cases hstop : t.kind = .semicolon ∧ depth ≤ 0
    · refine ⟨0, ?_, .inr ⟨congrArg some hstop.1, hstop.2⟩, fun i _ => Nat.zero_le i⟩
      rw [fromSemicolon, hstop.1]
      exact if_pos hstop.2
    · obtain ⟨d, hdepth, hfrom⟩ := exists_count depth t
      obtain ⟨k, hk, hend, hleast⟩ := ih d
      -- indices are those in the words after `t`, one further
      have hsucc : ∀ i, CountedEnd depth (t :: ts) (i + 1) ↔ CountedEnd d ts i := by
        intro i
        unfold CountedEnd
        rw [List.length_cons, Nat.add_right_cancel_iff, List.take_succ_cons, hdepth]
        rfl
      refine ⟨k + 1, (hfrom hstop ts).trans hk, (hsucc k).2 hend, fun i hi => ?_⟩
      cases i with
      | zero =>
        rcases hi with h | ⟨hsemi, hd⟩
        · cases h
        · exact absurd ⟨Option.some.inj hsemi, hd⟩ hstop
      | succ i => exact Nat.succ_le_succ (hleast ((hsucc i).1 hi))

/-! ## Recovery -/

section
variable {ts : List Token} {p : Nat}

/-- Well placed semicolons stand inside braces, by the count as well. -/
theorem braceDepth_pos_of_depthAfter? {us : List Token} {e i : Nat}
    (h : depthAfter? 0 us = some e) (hi : SemicolonAt us i) : 0 < braceDepth 0 (us.take i) := by
  obtain ⟨t, ht, hk⟩ := hi.exists_getElem?
  have hus : us = us.take i ++ t :: us.drop (i + 1) := by
    obtain ⟨hlt, rfl⟩ := List.getElem?_eq_some_iff.1 ht
    rw [← List.drop_eq_getElem_cons hlt, List.take_append_drop]
  rw [hus, depthAfter?_append, Option.bind_eq_some_iff] at h
  obtain ⟨d, hd, h⟩ := h
  have hcount : braceDepth 0 (us.take i) = d := braceDepth_of_depthAfter? hd
  rw [depthAfter?, hk, Option.bind_eq_some_iff] at h
  obtain ⟨c, hc, -⟩ := h
  rw [hcount]
  obtain ⟨h, -⟩ | ⟨h, -⟩ | ⟨-, hpos, -⟩ | ⟨-, -, h, -⟩ := Token.Kind.depthAfter?_cases hc
  · cases h
  · cases h
  · exact Int.natCast_pos.2 hpos
  · exact absurd rfl h

/-- Behind well placed words recovery stops at the first end that its count allows, wherever in
those words it is looked for. -/
theorem recover_eq_drop {us : List Token} {e : Nat} (ahead : List Token)
    (h : depthAfter? 0 us = some e) (hp : p ≤ us.length) :
    ∃ j, recover (us ++ ahead) ahead.length = (us ++ ahead).drop j ∧
      IsLeast {i | p ≤ i ∧ CountedEnd 0 (us ++ ahead) i} j := by
  obtain ⟨k, hk, hend, hleast⟩ := fromSemicolon_eq_drop (braceDepth 0 us) ahead
  have hshift : ∀ i, CountedEnd 0 (us ++ ahead) (us.length + i) ↔
      CountedEnd (braceDepth 0 us) ahead i := by
    intro i
    unfold CountedEnd SemicolonAt
    rw [List.length_append, Nat.add_left_cancel_iff, List.take_length_add_append,
      braceDepth_append, List.getElem?_append_right (Nat.le_add_right _ _), Nat.add_sub_cancel_left]
  refine ⟨us.length + k, ?_, ⟨by omega, (hshift k).2 hend⟩, fun i ⟨_, hi⟩ => ?_⟩
  · rw [recover, List.length_append, Nat.add_sub_cancel, List.splitAt_eq, List.take_left,
      List.drop_left, List.drop_length_add_append]
    exact hk
  · by_cases hlt : i < us.length
    · -- a semicolon among the words before stands inside braces
      rcases hi with hi | ⟨hsemi, hcount⟩
      · rw [List.length_append] at hi
        omega
      · rw [SemicolonAt, List.getElem?_append_left hlt] at hsemi
        rw [List.take_append_of_le_length hlt.le] at hcount
        have hpos := braceDepth_pos_of_depthAfter? h hsemi
        omega
    · obtain ⟨n, rfl⟩ := Nat.exists_eq_add_of_le (Nat.le_of_not_lt hlt)
      exact Nat.add_le_add_left (hleast ((hshift n).1 hi)) _

/-- Wherever a broken statement fails, recovery stops at the first end that its count allows, which
is never behind the end of the statement. It is that end exactly if every semicolon on the way to
it, all of which stand inside braces, has more braces opened than closed in front of it. -/
theorem recover_statementEnd_iff {f : Failure}
    (h : Rule.statement (Rule.expr nestingLimit) ts = .error f)
    (hp : p + f.rest.length ≤ ts.length) :
    ∃ j k, recover ts f.rest.length = ts.drop j ∧
      IsLeast {i | p ≤ i ∧ CountedEnd 0 ts i} j ∧
      IsLeast {i | p ≤ i ∧ StatementEnd ts i} k ∧ j ≤ k ∧
      (j = k ↔ ∀ i, p ≤ i → i < k → SemicolonAt ts i → 0 < braceDepth 0 (ts.take i)) := by
  obtain ⟨us, e, hts, hus, -⟩ :=
    (Rule.statement_eq_error_iff.1 h).stuck (isSteady_expr nestingLimit)
  have hle : p ≤ us.length := by
    rw [hts, List.length_append] at hp
    omega
  obtain ⟨j, hdrop, hj⟩ := recover_eq_drop f.rest hus hle
  rw [← hts] at hdrop hj
  obtain ⟨k, hk⟩ := exists_statementEnd (p := p) (Nat.le_of_add_right_le hp)
  have hjk : j ≤ k := hj.2 ⟨hk.1.1, hk.1.2.counted⟩
  refine ⟨j, k, hdrop, hj, hk, hjk, ?_, fun hcount => ?_⟩
  · rintro rfl i hpi hij hsemi
    by_contra hle
    have hji : j ≤ i := hj.2 ⟨hpi, .inr ⟨hsemi, Int.not_lt.1 hle⟩⟩
    omega
  · by_contra hne
    have hlt : j < k := by omega
    have hlen : k ≤ ts.length := hk.1.2.counted.le
    rcases hj.1.2 with hend | ⟨hsemi, hle⟩
    · omega
    · have hpos := hcount j hj.1.1 hlt hsemi
      omega

end

namespace Program

/-- `fn() { ; };` fails at the first semicolon, and recovery goes on to the second one. -/
theorem recover_semicolonInBraces :
    ∃ f, Rule.statement (Rule.expr nestingLimit) semicolonInBraces = .error f ∧
      4 + f.rest.length ≤ semicolonInBraces.length ∧
      recover semicolonInBraces f.rest.length = semicolonInBraces.drop 6 ∧
      IsLeast {i | 4 ≤ i ∧ StatementEnd semicolonInBraces i} 6 := by
  have hfails : (match Rule.statement (Rule.expr nestingLimit) semicolonInBraces with
      | .error f => decide (4 + f.rest.length ≤ semicolonInBraces.length)
      | .ok _ => false) = true := by decide +kernel
  split at hfails
  · next f hf =>
    have hp := of_decide_eq_true hfails
    have hsix : IsLeast {i | 4 ≤ i ∧ StatementEnd semicolonInBraces i} 6 := by
      refine ⟨by decide, fun i hi => by_contra fun hlt => ?_⟩
      have hno : ∀ i < 6, ¬ (4 ≤ i ∧ StatementEnd semicolonInBraces i) := by decide
      exact hno i (Nat.lt_of_not_le hlt) hi
    obtain ⟨j, k, hdrop, -, hk, -, hiff⟩ := recover_statementEnd_iff hf hp
    obtain rfl := hk.unique hsix
    have hj : j = 6 := hiff.2 (by decide)
    rw [hj] at hdrop
    exact ⟨f, hf, hp, hdrop, hsix⟩
  · cases hfails

/-- The words of `} fn() { a; b }`. -/
def strayBrace : List Token :=
  [⟨.rightBrace, "\x7d", ⟨1, 1⟩⟩, ⟨.fnWord, "fn", ⟨1, 3⟩⟩, ⟨.leftParen, "(", ⟨1, 5⟩⟩,
    ⟨.rightParen, ")", ⟨1, 6⟩⟩, ⟨.leftBrace, "\x7b", ⟨1, 8⟩⟩, ⟨.name, "a", ⟨1, 10⟩⟩,
    ⟨.semicolon, ";", ⟨1, 11⟩⟩, ⟨.name, "b", ⟨1, 13⟩⟩, ⟨.rightBrace, "\x7d", ⟨1, 15⟩⟩]

/-- A closing brace that closes nothing hides the next opening one: recovery stops at a semicolon
inside of it, and what is left of the statement is read as others. -/
theorem recover_strayBrace :
    Rule.statement (Rule.expr nestingLimit) strayBrace =
        .error ⟨.noOperand .rightBrace, strayBrace⟩ ∧
      recover strayBrace strayBrace.length = strayBrace.drop 6 ∧
      openBraces 0 (strayBrace.take 6) = 1 ∧
      IsLeast {i | 0 ≤ i ∧ StatementEnd strayBrace i} 9 ∧
      Program.parse "\x7d fn() \x7b a; b \x7d" =
        .error [⟨.noOperand .rightBrace, ⟨1, 1⟩⟩, ⟨.noOperand .rightBrace, ⟨1, 15⟩⟩] := by
  refine ⟨rfl, rfl, rfl, ?_, by decide +kernel⟩
  refine ⟨by decide, fun i hi => by_contra fun hlt => ?_⟩
  have hno : ∀ i < 9, ¬ StatementEnd strayBrace i := by decide
  exact hno i (Nat.lt_of_not_le hlt) hi.2

end Program

end LetFn
