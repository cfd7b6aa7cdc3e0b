import LetFn.Proofs.Lexer.Words

/-!
# Words across a seam

A text whose last word is a semicolon has the same words in front of any other text.

* `Lexeme.scan_append_right`: a lexeme that ends before its text does is the same in a longer text,
  as is a semicolon.
* `Lexer.words_append`: the words of two texts, one after the other.
-/

namespace LetFn
open Token (Kind)

namespace Lexeme

theorem takeWhile_append_of_dropWhile {p : Char → Bool} {cs : List Char}
    (h : cs.dropWhile p ≠ []) (ds : List Char) : (cs ++ ds).takeWhile p = cs.takeWhile p := by
  rw [List.takeWhile_append, if_neg]
  intro hlen
  have hsplit := congrArg List.length (List.takeWhile_append_dropWhile (p := p) (l := cs))
  rw [List.length_append, hlen, Nat.add_eq_left, List.length_eq_zero_iff] at hsplit
  exact h hsplit

theorem dropWhile_append_of_dropWhile {p : Char → Bool} {cs : List Char}
    (h : cs.dropWhile p ≠ []) (ds : List Char) :
    (cs ++ ds).dropWhile p = cs.dropWhile p ++ ds := by
  rw [List.dropWhile_append, if_neg (by rwa [List.isEmpty_iff])]

theorem wordKind_ne_semicolon (word : List Char) : wordKind word ≠ .semicolon := by
  unfold wordKind
  repeat' split
  all_goals decide

theorem eq_of_signKind {c : Char} (h : signKind c = .semicolon) : c = ';' := by
  unfold signKind at h
  split at h <;> simp_all

theorem quoted_append {cs : List Char} (h : (quoted cs).2 ≠ [] ∨ (quoted cs).1.kind = .semicolon)
    (ds : List Char) : quoted (cs ++ ds) = ((quoted cs).1, (quoted cs).2 ++ ds) := by
  cases hd : cs.dropWhile (· ≠ '"') with
  | nil =>
    simp only [quoted, hd] at h
    exact absurd h (by decide)
  | cons q rest =>
    have hne : cs.dropWhile (· ≠ '"') ≠ [] := by
      rw [hd]
      exact List.cons_ne_nil q rest
    simp only [quoted, dropWhile_append_of_dropWhile hne, takeWhile_append_of_dropWhile hne, hd,
      List.cons_append]

theorem sign_cons (c d : Char) (cs : List Char) :
    sign c (d :: cs) =
      if c = '=' ∧ d = '=' then (⟨.equal, ['=', '=']⟩, cs)
      else if c = '!' ∧ d = '=' then (⟨.notEqual, ['!', '=']⟩, cs)
      else (⟨signKind c, [c]⟩, d :: cs) := by
  unfold sign
  split
  · next hd =>
    obtain ⟨rfl, rfl⟩ := List.cons.inj hd
    rfl
  · next hd =>
    obtain ⟨rfl, rfl⟩ := List.cons.inj hd
    rfl
  · next hequal hnot =>
    rw [if_neg fun h => hequal cs h.1 (by rw [h.2]), if_neg fun h => hnot cs h.1 (by rw [h.2])]

theorem sign_append {c : Char} {cs : List Char}
    (h : (sign c cs).2 ≠ [] ∨ (sign c cs).1.kind = .semicolon) (ds : List Char) :
    sign c (cs ++ ds) = ((sign c cs).1, (sign c cs).2 ++ ds) := by
  cases cs with
  | nil =>
    have hs : sign c [] = (⟨signKind c, [c]⟩, []) := by simp [sign]
    rw [hs] at h
    obtain rfl := eq_of_signKind (h.resolve_left fun hne => hne rfl)
    rfl
  | cons d cs =>
    rw [List.cons_append, sign_cons, sign_cons]
    split
    · rfl
    split
    · rfl
    · rfl

/-- A lexeme that ends before its text does is the same in a longer text, as is a semicolon. -/
theorem scan_append_right {c : Char} {cs : List Char}
    (h : (scan c cs).2 ≠ [] ∨ (scan c cs).1.kind = .semicolon) (ds : List Char) :
    scan c (cs ++ ds) = ((scan c cs).1, (scan c cs).2 ++ ds) := by
  unfold scan at h ⊢
  split
  · next hc =>
    rw [if_pos hc] at h
    have hne := h.resolve_right (wordKind_ne_semicolon _)
    simp only [takeWhile_append_of_dropWhile hne, dropWhile_append_of_dropWhile hne]
  split
  · next hn hc =>
    rw [if_neg hn, if_pos hc] at h
    have hne := h.resolve_right nofun
    simp only [takeWhile_append_of_dropWhile hne, dropWhile_append_of_dropWhile hne]
  split
  · next hn hd hc =>
    rw [if_neg hn, if_neg hd, if_pos hc] at h
    exact quoted_append h ds
  · next hn hd hc =>
    rw [if_neg hn, if_neg hd, if_neg hc] at h
    exact sign_append h ds

end Lexeme

namespace Lexer

theorem words_ne_nil (cs : List Char) : words cs ≠ [] := by
  rw [words, Ne, List.map_eq_nil_iff]
  exact tokens_ne_nil rfl

/-- The end of a text is its last word. -/
theorem exists_words (cs : List Char) : ∃ ws, words cs = ws ++ [(.eof, "")] := by
  refine tokens_induction (motive := fun _ _ ts => ∃ ws, ts.map Token.word = ws ++ [(.eof, "")])
    ?_ ?_ (stands_ofText (String.ofList cs))
  · exact fun before gap _ => ⟨[], rfl⟩
  · rintro before gap c cs ts - - ⟨ws, hws⟩
    refine ⟨((Lexeme.scan c cs).1.kind, (Lexeme.scan c cs).1.literal) :: ws, ?_⟩
    rw [List.map_cons, hws]
    rfl

/-- The tokens that a text is read from are those of its words, the end apart. -/
theorem words_toList (text : String) :
    words text.toList = (ofText text).tokens.dropLast.map Token.word ++ [(.eof, "")] := by
  obtain ⟨ws, hws⟩ := exists_words text.toList
  have htokens : (ofText text).tokens.map Token.word = ws ++ [(.eof, "")] := by
    rw [tokens_map_word, hws]
  rw [List.map_dropLast, htokens, List.dropLast_concat, hws]

/-- A text keeps its words in front of another if its last one, if any, is a semicolon. -/
theorem words_append {cs : List Char} {ws : List Word} (h : words cs = ws ++ [(.eof, "")])
    (hlast : ∀ w ∈ ws.getLast?, w.1 = .semicolon) (ds : List Char) :
    words (cs ++ ds) = ws ++ words ds := by
  -- on the length of the text: blanks go, then the lexeme at its head
  induction hn : cs.length using Nat.strongRecOn generalizing cs ws with
  | ind n ih =>
    cases cs with
    | nil =>
      rw [words_nil] at h
      cases ws with
      | nil => rfl
      | cons w ws => simp at h
    | cons c cs =>
      rw [List.length_cons] at hn
      by_cases hc : isBlank c = true
      · rw [words_blank hc] at h
        rw [List.cons_append, words_blank hc]
        exact ih cs.length (by omega) h hlast rfl
      · rw [Bool.not_eq_true] at hc
        rw [words_cons hc] at h
        cases ws with
        | nil => exact absurd (List.cons.inj h).2 (words_ne_nil _)
        | cons w ws =>
          obtain ⟨rfl, hrest⟩ := List.cons.inj h
          have hended : (Lexeme.scan c cs).2 ≠ [] ∨ (Lexeme.scan c cs).1.kind = .semicolon := by
            by_cases hnil : (Lexeme.scan c cs).2 = []
            · rw [hnil, words_nil] at hrest
              cases ws with
              | nil => exact .inr (hlast _ rfl)
              | cons w ws => simp at hrest
            · exact .inl hnil
          have hlt := Lexeme.scan_length_le c cs
          rw [List.cons_append, words_cons hc, Lexeme.scan_append_right hended ds,
            ih _ (by omega) hrest ?_ rfl, List.cons_append]
          intro w hw
          refine hlast w ?_
          rw [List.getLast?_cons, hw]
          rfl

end Lexer

end LetFn
