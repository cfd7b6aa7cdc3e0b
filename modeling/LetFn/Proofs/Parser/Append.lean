import LetFn.Proofs.Lexer.Append
import LetFn.Proofs.Parser.Places
import LetFn.Proofs.Parser.Sentences

/-!
# One text after another

A text that ends in a semicolon comes to the same statements in front of any other text.

* `Reading.Row.in_front`: statements up to a last semicolon are read in front of any words.
* `EndsInSemicolon`: the texts whose last token is a semicolon.
* `Program.parse_append`: two texts in a row come to the statements of both.
-/

namespace LetFn

/-! ## Words that end in a semicolon -/

section
variable {semi : Token} (hsemi : semi.kind = .semicolon)
include hsemi

/-- A semicolon does not end words whose braces match, unless more is open before it. -/
theorem depthAfter?_concat_ne (us : List Token) : depthAfter? 0 (us ++ [semi]) ≠ some 0 := by
  intro h
  rw [depthAfter?_append, Option.bind_eq_some_iff] at h
  obtain ⟨d, -, h⟩ := h
  rw [depthAfter?, Option.bind_eq_some_iff] at h
  obtain ⟨e, he, h⟩ := h
  obtain rfl := Option.some.inj h
  rw [hsemi] at he
  obtain ⟨hk, -⟩ | ⟨hk, -⟩ | ⟨-, hd, rfl⟩ | ⟨-, -, hk, -⟩ := Token.Kind.depthAfter?_cases he
  · cases hk
  · cases hk
  · exact absurd hd (Nat.lt_irrefl 0)
  · exact hk rfl

/-- Well placed words stand before a semicolon at the end. -/
theorem exists_of_append_semi {us ws after : List Token} (h : us ++ [semi] = ws ++ after)
    (hws : depthAfter? 0 ws = some 0) : ∃ xs, us = ws ++ xs ∧ after = xs ++ [semi] := by
  obtain ⟨xs, rfl, hxs⟩ | ⟨xs, rfl, rfl⟩ := List.append_eq_append_iff.1 h
  · cases xs with
    | nil => exact ⟨[], by rw [List.append_nil, List.append_nil], hxs.symm⟩
    | cons x xs =>
      obtain ⟨rfl, hnil⟩ := List.cons.inj hxs
      rw [(List.append_eq_nil_iff.1 hnil.symm).1] at hws
      exact absurd hws (depthAfter?_concat_ne hsemi us)
  · exact ⟨xs, rfl, rfl⟩

end

/-! ## Rows -/

namespace Reading.Row
variable {sub : Nat → Rule Expr} {ts mid rest : List Token} {ss rs : LetFn.Block}

theorem append (h : Row sub ts ss mid) (h' : Row sub mid rs rest) :
    Row sub ts (ss ++ rs) rest := by
  induction h with
  | nil => exact h'
  | cons hs _ ih => exact .cons hs (ih h')

theorem eq_nil_of_nil (h : Row sub [] ss rest) : ss = [] := by
  cases h with
  | nil => rfl
  | cons hs =>
    obtain ⟨t, us, ht⟩ := hs.exists_cons
    cases ht

/-- What is read of words that end in a semicolon is read in front of any others, too. -/
theorem in_front {semi : Token} (hsemi : semi.kind = .semicolon) {us : List Token}
    (h : Row (Rule.expr nestingLimit) (us ++ [semi]) ss []) (more : List Token) :
    Row (Rule.expr nestingLimit) (us ++ semi :: more) ss more := by
  generalize hts : us ++ [semi] = ts at h
  generalize hrest : [] = rest at h
  induction h generalizing us with
  | nil =>
    rw [← hrest] at hts
    exact absurd hts (List.append_ne_nil_of_right_ne_nil us (List.cons_ne_nil _ _))
  | @cons ts mid rest s ss hs hss ih =>
    subst hrest
    obtain ⟨after, rfl, ws, rfl, hdepth, hreads⟩ := hs.steady (isSteady_expr nestingLimit)
    -- the words of the first statement are well placed, so the last semicolon is none of them
    obtain ⟨xs, rfl, rfl⟩ := exists_of_append_semi hsemi hts hdepth
    obtain ⟨t, ht, hmore⟩ := exists_head?_append_semi xs semi
    obtain ⟨vs, hvs⟩ := hmore more
    have hfirst : Reading.Statement (Rule.expr nestingLimit) (ws ++ xs ++ semi :: more) s
        (dropSemicolon (xs ++ semi :: more)) := by
      rw [List.append_assoc, hvs]
      exact hreads t ht vs
    refine .cons hfirst ?_
    cases xs with
    | nil =>
      rw [List.nil_append, dropSemicolon, if_pos hsemi] at hss ⊢
      rw [hss.eq_nil_of_nil]
      exact .nil
    | cons x xs =>
      rw [List.cons_append, dropSemicolon] at ih ⊢
      split
      · next hx =>
        rw [if_pos hx] at ih
        exact ih rfl rfl
      · next hx =>
        rw [if_neg hx] at ih
        exact ih (List.cons_append ..) rfl

end Reading.Row

/-! ## Texts -/

/-- The last token of a text is a semicolon. -/
def EndsInSemicolon (text : String) : Prop :=
  ∃ t ∈ (Lexer.ofText text).tokens.dropLast.getLast?, t.kind = .semicolon

instance (text : String) : Decidable (EndsInSemicolon text) :=
  inferInstanceAs (Decidable (∃ t ∈ (Lexer.ofText text).tokens.dropLast.getLast?, _))

/-- The tokens of two texts in a row are those of the first one and words of the second one. -/
theorem EndsInSemicolon.sameWords {text : String} (h : EndsInSemicolon text) (text' : String) :
    SameWords
      ((Lexer.ofText text).tokens.dropLast ++ (Lexer.ofText text').tokens.dropLast)
      (Lexer.ofText (text ++ text')).tokens.dropLast := by
  obtain ⟨t, ht, hk⟩ := h
  have hlast : ∀ w ∈ ((Lexer.ofText text).tokens.dropLast.map Token.word).getLast?,
      w.1 = .semicolon := by
    intro w hw
    rw [List.getLast?_map, Option.mem_def.1 ht] at hw
    cases hw
    exact hk
  have hwords := Lexer.words_append (Lexer.words_toList text) hlast text'.toList
  rw [← String.toList_append, Lexer.words_toList, Lexer.words_toList, ← List.append_assoc,
    List.append_cancel_right_eq] at hwords
  rw [sameWords_iff, List.map_append, hwords]

/-- Two texts in a row come to the statements of the first and then those of the second, if the
first ends in a semicolon. -/
theorem Program.parse_append {text text' : String} {p q : Program} (h : parse text = .ok p)
    (hsemi : EndsInSemicolon text) (h' : parse text' = .ok q) :
    parse (text ++ text') = .ok ⟨p.statements ++ q.statements⟩ := by
  have hwords := hsemi.sameWords text'
  obtain ⟨t, ht, hk⟩ := hsemi
  obtain ⟨us, hus⟩ := List.getLast?_eq_some_iff.1 ht
  rw [parse, ofWords_eq_ok_iff] at h h'
  rw [hus] at h hwords
  have hfirst := h.in_front hk (Lexer.ofText text').tokens.dropLast
  rw [List.append_assoc] at hwords
  exact ofWords_of_row ((hfirst.append h').sameWords hwords)

end LetFn
