import LetFn.Proofs.Lexer.Words

/-!
# Where the tokens of a text stand

A lexer goes on counting from token to token. The place of a token is what the text before it says:
how many lines end there, and how far the last one has come.

* `Position.lt_after_append`: places come one after the other.
* `Spaced`, `layout`: tokens with the blanks in front of them, and the text that they make up.
* `Lexer.exists_layout_position`: a text is the layout of its tokens, and each of them has the place
  behind what is laid out before it.
-/

namespace LetFn
open Token (Kind)

namespace Position

/-! ## Order -/

/-- Places come line by line, and in a line from left to right. -/
instance : LT Position := ⟨fun p q => p.line < q.line ∨ p.line = q.line ∧ p.column < q.column⟩

theorem lt_iff {p q : Position} :
    p < q ↔ p.line < q.line ∨ p.line = q.line ∧ p.column < q.column := Iff.rfl

instance (p q : Position) : Decidable (p < q) := decidable_of_iff _ lt_iff.symm

theorem lt_trans {p q r : Position} (h : p < q) (h' : q < r) : p < r := by
  rw [lt_iff] at h h' ⊢
  omega

theorem lt_after_concat (cs : List Char) (c : Char) : after cs < after (cs ++ [c]) := by
  rw [lt_iff, after, after, List.count_append]
  by_cases hc : c = '\n'
  · left
    simp [hc]
  · right
    rw [List.rtakeWhile_concat_pos _ _ _ (by simpa using hc)]
    simp [hc]

/-- Every stretch of text leads on. -/
theorem lt_after_append (cs : List Char) {ds : List Char} (h : ds ≠ []) :
    after cs < after (cs ++ ds) := by
  induction ds using List.reverseRecOn with
  | nil => exact absurd rfl h
  | append_singleton ds c ih =>
    rw [← List.append_assoc]
    by_cases hds : ds = []
    · rw [hds, List.append_nil]
      exact lt_after_concat cs c
    · exact lt_trans (ih hds) (lt_after_concat _ c)

end Position

/-! ## Layouts -/

/-- A token with the blanks in front of it. -/
structure Spaced where
  gap : List Char
  token : Token

/-- The text of a token and the blanks in front of it. -/
def Spaced.chars (x : Spaced) : List Char := x.gap ++ x.token.spelling

/-- The text of some tokens, each behind its blanks. -/
def layout (xs : List Spaced) : List Char := xs.flatMap Spaced.chars

/-- The tokens lie in the text `cs` with blanks between them, and each has the place of its first
character, `before` being the text in front of `cs`. -/
structure LaidOut (before cs : List Char) (xs : List Spaced) : Prop where
  layout_eq : layout xs = cs
  blank : ∀ x ∈ xs, ∀ c ∈ x.gap, isBlank c = true
  position : ∀ front x behind, xs = front ++ x :: behind →
    x.token.position = .after (before ++ layout front ++ x.gap)

namespace LaidOut

theorem nil (before : List Char) : LaidOut before [] [] := ⟨rfl, nofun, by simp⟩

variable {before cs : List Char} {x : Spaced} {xs : List Spaced}

/-- A token behind some blanks comes in front of tokens that lie in the text after it. -/
theorem cons (hblank : ∀ c ∈ x.gap, isBlank c = true)
    (hplace : x.token.position = .after (before ++ x.gap))
    (h : LaidOut (before ++ x.chars) cs xs) : LaidOut before (x.chars ++ cs) (x :: xs) where
  layout_eq := congrArg (x.chars ++ ·) h.layout_eq
  blank := List.forall_mem_cons.2 ⟨hblank, h.blank⟩
  position := by
    intro front y behind heq
    cases front with
    | nil =>
      obtain ⟨rfl, -⟩ := List.cons.inj heq
      rw [layout, List.flatMap_nil, List.append_nil]
      exact hplace
    | cons z front =>
      obtain ⟨rfl, htail⟩ := List.cons.inj heq
      rw [h.position front y behind htail, List.append_assoc before]
      rfl

end LaidOut

/-! ## Places of tokens -/

namespace Lexer

/-- A lexer gives tokens that lie in its text, with the places that they have there. -/
theorem exists_laidOut (text : String) :
    ∃ xs : List Spaced, xs.map Spaced.token = (ofText text).tokens ∧
      LaidOut [] text.toList xs := by
  refine tokens_induction (motive := fun before cs ts =>
    ∃ xs, xs.map Spaced.token = ts ∧ LaidOut before cs xs) ?_ ?_ (stands_ofText text)
  · intro before gap hgap
    have h := LaidOut.cons (x := ⟨gap, .eof, "", .after (before ++ gap)⟩) hgap rfl (.nil _)
    simp only [Spaced.chars, Token.spelling, reduceCtorEq, if_false, String.toList_empty,
      List.append_nil] at h
    exact ⟨_, rfl, h⟩
  · rintro before gap c cs _ hgap - ⟨xs, rfl, hxs⟩
    have hchars : Spaced.chars ⟨gap, (Lexeme.scan c cs).1.kind, (Lexeme.scan c cs).1.literal,
        .after (before ++ gap)⟩ = gap ++ (Lexeme.scan c cs).1.chars :=
      congrArg (gap ++ ·) (Lexeme.spelling_scan c cs _)
    rw [List.append_assoc, ← hchars] at hxs
    have h := hxs.cons hgap rfl
    rw [hchars, List.append_assoc, Lexeme.scan_append] at h
    exact ⟨_, rfl, h⟩

/-- The tokens of a text stand one after the other. -/
theorem pairwise_position (text : String) :
    ((ofText text).tokens.map Token.position).Pairwise (· < ·) := by
  -- none of them stands in the text that was read before
  suffices h : (∀ t ∈ (ofText text).tokens, ∃ ds, t.position = .after ([] ++ ds)) ∧
      ((ofText text).tokens.map Token.position).Pairwise (· < ·) from h.2
  refine tokens_induction (motive := fun before _ ts =>
    (∀ t ∈ ts, ∃ ds, t.position = .after (before ++ ds)) ∧
      (ts.map Token.position).Pairwise (· < ·)) ?_ ?_ (stands_ofText text)
  · exact fun before gap _ =>
      ⟨List.forall_mem_singleton.2 ⟨gap, rfl⟩, List.pairwise_singleton _ _⟩
  · rintro before gap c cs ts - - ⟨hfrom, hts⟩
    refine ⟨List.forall_mem_cons.2 ⟨⟨gap, rfl⟩, fun t ht => ?_⟩, List.pairwise_cons.2 ⟨?_, hts⟩⟩
    · obtain ⟨ds, hds⟩ := hfrom t ht
      rw [List.append_assoc, List.append_assoc] at hds
      exact ⟨_, hds⟩
    · rw [List.forall_mem_map]
      intro t ht
      obtain ⟨ds, hds⟩ := hfrom t ht
      have hne : (Lexeme.scan c cs).1.chars ++ ds ≠ [] :=
        List.append_ne_nil_of_left_ne_nil (Lexeme.scan_chars_ne_nil c cs) ds
      rw [hds, List.append_assoc]
      exact Position.lt_after_append _ hne

/-- A text is made up of its tokens and of blanks between them. The place of each token counts the
line feeds in front of its first character and the characters since the last of them; so the places
grow from token to token. -/
theorem exists_layout_position (text : String) :
    ∃ xs : List Spaced, xs.map Spaced.token = (ofText text).tokens ∧ layout xs = text.toList ∧
      (∀ x ∈ xs, ∀ c ∈ x.gap, isBlank c = true) ∧
      (∀ before x behind, xs = before ++ x :: behind →
        x.token.position = Position.after (layout before ++ x.gap)) ∧
      ((ofText text).tokens.map Token.position).Pairwise (· < ·) := by
  obtain ⟨xs, htokens, hxs⟩ := exists_laidOut text
  exact ⟨xs, htokens, hxs.layout_eq, hxs.blank, hxs.position, pairwise_position text⟩

example : (ofText "\"é\nb\" @\r\nx").tokens.map Token.position =
    [⟨1, 1⟩, ⟨2, 4⟩, ⟨3, 1⟩, ⟨3, 2⟩] := by decide +kernel

end Lexer

end LetFn
