import LetFn.Proofs.Lexer.Append
import LetFn.Proofs.Lexer.Positions

/-!
# Other blanks, the same words

The words of a text stay the same if its tokens are laid out with other blanks, as long as some
blank is left between any two of them. A string that is not closed has to be left out: it takes in
whatever comes after it.

* `Token.IsUnclosed`: a string that is not closed.
* `Lexeme.scan_alone`: any other lexeme ends in front of a blank or of the end of the text, and is
  the same whatever else the text goes on with.
* `Token.StandsAlone`: so a token that a lexer gives is the first word wherever it is laid out
  behind blanks and in front of one.
* `Lexer.words_layout`: the words of the layout of a text's tokens are those of the text.
-/

namespace LetFn
open Token (Kind)

theorem isNameChar_eq_false_of_isBlank {c : Char} (h : isBlank c = true) :
    isNameChar c = false := by
  rw [isNameChar, Bool.or_eq_false_iff]
  constructor
  · by_contra hc
    rw [isBlank_eq_false_of_isNameStart (eq_true_of_ne_false hc)] at h
    cases h
  · by_contra hc
    rw [isBlank_eq_false_of_isDecimalDigit (eq_true_of_ne_false hc)] at h
    cases h

/-! ## Lexemes in front of a blank -/

namespace Lexeme
variable {c : Char} {cs ds : List Char}

theorem sign_alone (hds : ∀ d ∈ ds.head?, isBlank d = true) :
    ∃ es, (sign c cs).1.chars = c :: es ∧ sign c (es ++ ds) = ((sign c cs).1, ds) := by
  -- no blank joins a sign in front of it
  have hone : sign c ds = (⟨signKind c, [c]⟩, ds) := by
    cases ds with
    | nil => simp [sign]
    | cons d ds =>
      have hd : d ≠ '=' := by
        rintro rfl
        exact absurd (hds '=' rfl) (by decide)
      rw [sign_cons, if_neg fun h => hd h.2, if_neg fun h => hd h.2]
  cases cs with
  | nil =>
    have hnil : sign c [] = (⟨signKind c, [c]⟩, []) := by simp [sign]
    rw [hnil]
    exact ⟨[], rfl, hone⟩
  | cons d cs =>
    rw [sign_cons]
    split
    · next h =>
      refine ⟨['='], by rw [h.1], ?_⟩
      rw [List.singleton_append, sign_cons, if_pos ⟨h.1, rfl⟩]
    split
    · next h =>
      refine ⟨['='], by rw [h.1], ?_⟩
      rw [List.singleton_append, sign_cons, if_neg (by rw [h.1]; decide), if_pos ⟨h.1, rfl⟩]
    · exact ⟨[], rfl, hone⟩

/-- A lexeme ends in front of a blank or of the end, unless it is a string that is not closed. -/
theorem scan_alone (h : ¬ (c = '"' ∧ (scan c cs).1.kind = .illegal))
    (hds : ∀ d ∈ ds.head?, isBlank d = true) :
    ∃ es, (scan c cs).1.chars = c :: es ∧ scan c (es ++ ds) = ((scan c cs).1, ds) := by
  have hname : ∀ d ∈ ds.head?, isNameChar d = false :=
    fun d hd => isNameChar_eq_false_of_isBlank (hds d hd)
  have hdigit : ∀ d ∈ ds.head?, isDecimalDigit d = false :=
    fun d hd => (Bool.or_eq_false_iff.1 (hname d hd)).2
  unfold scan at h ⊢
  split
  · refine ⟨cs.takeWhile isNameChar, rfl, ?_⟩
    simp only [Lexer.takeWhile_append_of_stop isNameChar_of_mem_takeWhile hname,
      Lexer.dropWhile_append_of_stop isNameChar_of_mem_takeWhile hname]
  split
  · have hall : ∀ d ∈ cs.takeWhile isDecimalDigit, isDecimalDigit d = true :=
      fun d hd => List.all_eq_true.1 List.all_takeWhile d hd
    refine ⟨cs.takeWhile isDecimalDigit, rfl, ?_⟩
    simp only [Lexer.takeWhile_append_of_stop hall hdigit,
      Lexer.dropWhile_append_of_stop hall hdigit]
  split
  · next hn hd hq =>
    rw [if_neg hn, if_neg hd, if_pos hq] at h
    by_cases hclosed : '"' ∈ cs
    · obtain ⟨ds', rest, rfl, hds'⟩ := List.eq_append_cons_of_mem hclosed
      rw [quoted_closed hds', hq]
      refine ⟨ds' ++ ['"'], rfl, ?_⟩
      rw [List.append_assoc, List.singleton_append, quoted_closed hds']
    · rw [quoted_unclosed hclosed] at h
      exact absurd ⟨hq, rfl⟩ h
  · exact sign_alone hds

end Lexeme

/-! ## Tokens -/

namespace Token

/-- A string that is not closed: a quote, with all that comes after it. -/
def IsUnclosed (t : Token) : Prop := t.kind = .illegal ∧ t.text.toList.head? = some '"'

instance (t : Token) : Decidable t.IsUnclosed := inferInstanceAs (Decidable (_ ∧ _))

/-- A token is the first word of what it stands in front of, if that is nothing or starts with a
blank. -/
def StandsAlone (t : Token) : Prop :=
  ∀ rest : List Char, (∀ c ∈ rest.head?, isBlank c = true) →
    Lexer.words (t.spelling ++ rest) = t.word :: Lexer.words rest

theorem standsAlone_scan {c : Char} (hc : isBlank c = false) (cs : List Char) (p : Position)
    (h : ¬ IsUnclosed ⟨(Lexeme.scan c cs).1.kind, (Lexeme.scan c cs).1.literal, p⟩) :
    StandsAlone ⟨(Lexeme.scan c cs).1.kind, (Lexeme.scan c cs).1.literal, p⟩ := by
  intro rest hrest
  have hclosed : ¬ (c = '"' ∧ (Lexeme.scan c cs).1.kind = .illegal) := by
    rintro ⟨rfl, hk⟩
    refine h ⟨hk, ?_⟩
    have hhead : (Lexeme.scan '"' cs).1.chars.head? = some '"' := by
      rw [← List.head?_append_of_ne_nil _ (Lexeme.scan_chars_ne_nil '"' cs), Lexeme.scan_append]
      rfl
    rw [Lexeme.literal, if_neg (by rw [hk]; decide), String.toList_ofList, hhead]
  obtain ⟨es, hes, hscan⟩ := Lexeme.scan_alone hclosed hrest
  rw [Lexeme.spelling_scan, hes, List.cons_append, Lexer.words_cons hc, hscan]
  rfl

end Token

namespace Lexer

/-- All tokens of a text stand alone, but for the end and a string that is not closed. -/
theorem exists_standsAlone (text : String) :
    ∃ ts stop, (ofText text).tokens = ts ++ [stop] ∧ stop.word = (.eof, "") ∧
      ∀ t ∈ ts, ¬ t.IsUnclosed → t.StandsAlone := by
  refine tokens_induction (motive := fun _ _ us => ∃ ts stop, us = ts ++ [stop] ∧
    stop.word = (.eof, "") ∧ ∀ t ∈ ts, ¬ t.IsUnclosed → t.StandsAlone) ?_ ?_ (stands_ofText text)
  · exact fun before gap _ => ⟨[], _, rfl, rfl, nofun⟩
  · rintro before gap c cs _ - hc ⟨ts, stop, rfl, hstop, hts⟩
    refine ⟨_ :: ts, stop, rfl, hstop, List.forall_mem_cons.2 ⟨?_, hts⟩⟩
    exact Token.standsAlone_scan hc cs _

/-! ## Layouts -/

theorem layout_cons (x : Spaced) (xs : List Spaced) :
    layout (x :: xs) = x.gap ++ (x.token.spelling ++ layout xs) := by
  rw [layout, List.flatMap_cons, Spaced.chars, List.append_assoc]
  rfl

/-- Tokens that stand alone are the words of their layout, if some blank comes before each of them
but the first. -/
theorem words_layout_append {xs : List Spaced} (hblank : ∀ x ∈ xs, ∀ c ∈ x.gap, isBlank c = true)
    (hapart : ∀ x ∈ xs.tail, x.gap ≠ []) (halone : ∀ x ∈ xs, x.token.StandsAlone)
    {gap : List Char} (hgap : ∀ c ∈ gap, isBlank c = true) :
    words (layout xs ++ gap) = xs.map (·.token.word) ++ [(.eof, "")] := by
  induction xs with
  | nil => exact words_of_gap hgap
  | cons x xs ih =>
    rw [List.forall_mem_cons] at hblank halone
    have hnext : ∀ c ∈ (layout xs ++ gap).head?, isBlank c = true := by
      intro c hc
      cases xs with
      | nil => exact hgap c (List.mem_of_mem_head? hc)
      | cons y ys =>
        have hy : y.gap ≠ [] := hapart y List.mem_cons_self
        rw [layout_cons, List.append_assoc, List.head?_append_of_ne_nil _ hy] at hc
        exact hblank.2 y List.mem_cons_self c (List.mem_of_mem_head? hc)
    have hrest := ih hblank.2 (fun y hy => hapart y (List.mem_of_mem_tail hy)) halone.2
    rw [layout_cons, List.append_assoc, List.append_assoc, words_gap hblank.1, halone.1 _ hnext,
      hrest]
    rfl

/-- The tokens of a text laid out anew have the words of the text, if there is some blank between
any two of them and no string is left open. -/
theorem words_layout {text : String} (hclosed : ∀ t ∈ (ofText text).tokens, ¬ t.IsUnclosed)
    {xs : List Spaced} (htokens : xs.map Spaced.token = (ofText text).tokens)
    (hblank : ∀ x ∈ xs, ∀ c ∈ x.gap, isBlank c = true)
    (hapart : ∀ x ∈ xs.tail.dropLast, x.gap ≠ []) :
    words (layout xs) = words text.toList := by
  obtain ⟨ts, stop, hts, hstop, halone⟩ := exists_standsAlone text
  rw [hts] at htokens hclosed
  obtain ⟨ys, zs, rfl, rfl, hzs⟩ := List.map_eq_append_iff.1 htokens
  obtain ⟨z, rfl, rfl⟩ := List.map_eq_singleton_iff.1 hzs
  -- the end is spelled as nothing, so the text ends in the blanks in front of it
  have hend : layout (ys ++ [z]) = layout ys ++ z.gap := by
    obtain ⟨hkind, htext⟩ := Prod.mk.inj hstop
    rw [layout, List.flatMap_append, List.flatMap_singleton, Spaced.chars, Token.spelling,
      if_neg (by rw [hkind]; decide), htext, String.toList_empty, List.append_nil]
    rfl
  have hys : ∀ y ∈ ys, y.token.StandsAlone := fun y hy =>
    have hmem : y.token ∈ ys.map Spaced.token := List.mem_map_of_mem hy
    halone _ hmem (hclosed _ (List.mem_append_left _ hmem))
  have htail : ∀ y ∈ ys.tail, y.gap ≠ [] := by
    intro y hy
    refine hapart y ?_
    cases ys with
    | nil => cases hy
    | cons x xs => rwa [List.cons_append, List.tail_cons, List.dropLast_concat]
  rw [hend, words_layout_append (fun y hy => hblank y (List.mem_append_left _ hy)) htail hys
    (hblank z (List.mem_append_right _ List.mem_cons_self)), ← tokens_map_word, hts,
    List.map_append, List.map_singleton, hstop, List.map_map]
  rfl

end Lexer

end LetFn
