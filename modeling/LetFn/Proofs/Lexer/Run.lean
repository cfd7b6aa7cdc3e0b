import LetFn.Proofs.Lexer.Lines
import Mathlib.Data.List.TakeWhile

/-!
# How a lexer runs through a text

* `Lexer.takeWhile_append_of_stop`, `Lexer.dropWhile_append_of_stop`: a stretch of characters up to
  the first one of another kind.
* `Lexer.Stands`: the lexer stands behind a part of its text, and has counted the lines of it or of
  less. `Lexer.Stands.next?_lexeme` says what its next token is and that it stands behind that.
* `Lexer.tokens_induction`: what the rest of a text hands on to the text holds of all its tokens.
* `Lexer.tokens_skip`, `Lexer.next?_skip_eq_none_iff`: what a lexer still gives once some tokens
  were taken.
-/

namespace LetFn
open Token (Kind)

namespace Lexer

/-! ## Stretches of characters -/

theorem takeWhile_append_of_stop {p : Char → Bool} {cs k : List Char} (hcs : ∀ c ∈ cs, p c = true)
    (hk : ∀ c ∈ k.head?, p c = false) : (cs ++ k).takeWhile p = cs := by
  rw [List.takeWhile_append_of_pos hcs]
  cases k with
  | nil => rw [List.takeWhile_nil, List.append_nil]
  | cons c k =>
    rw [List.takeWhile_cons_of_neg (by rw [hk c rfl]; exact Bool.false_ne_true), List.append_nil]

theorem dropWhile_append_of_stop {p : Char → Bool} {cs k : List Char} (hcs : ∀ c ∈ cs, p c = true)
    (hk : ∀ c ∈ k.head?, p c = false) : (cs ++ k).dropWhile p = k := by
  rw [List.dropWhile_append_of_pos hcs]
  cases k with
  | nil => rfl
  | cons c k => rw [List.dropWhile_cons_of_neg (by rw [hk c rfl]; exact Bool.false_ne_true)]

/-- A text is a stretch of blanks, and behind it nothing or a character that is not blank. -/
theorem exists_gap (cs : List Char) :
    ∃ gap rest, cs = gap ++ rest ∧ (∀ c ∈ gap, isBlank c = true) ∧
      (rest = [] ∨ ∃ c ds, rest = c :: ds ∧ isBlank c = false) := by
  refine ⟨cs.takeWhile isBlank, cs.dropWhile isBlank, List.takeWhile_append_dropWhile.symm,
    fun c hc => List.all_eq_true.1 List.all_takeWhile c hc, ?_⟩
  cases hd : cs.dropWhile isBlank with
  | nil => exact .inl rfl
  | cons c ds =>
    have hc := List.head_dropWhile_not isBlank (l := cs) (by simp [hd])
    exact .inr ⟨c, ds, rfl, by simpa [hd] using hc⟩

theorem takeWhile_gap {gap : List Char} (hgap : ∀ c ∈ gap, isBlank c = true) {c : Char}
    (hc : isBlank c = false) (cs : List Char) : (gap ++ c :: cs).takeWhile isBlank = gap :=
  takeWhile_append_of_stop hgap (by simpa using hc)

theorem dropWhile_gap {gap : List Char} (hgap : ∀ c ∈ gap, isBlank c = true) {c : Char}
    (hc : isBlank c = false) (cs : List Char) : (gap ++ c :: cs).dropWhile isBlank = c :: cs :=
  dropWhile_append_of_stop hgap (by simpa using hc)

/-! ## From token to token -/

/-- The lexer has come through `before` and stands in front of what is left of its text. The lines
are counted up to the end of `before` or of a part of it. The end token is still to come. -/
structure Stands (l : Lexer) (before : List Char) : Prop where
  source : l.source = String.ofList (before ++ l.rest)
  offset : l.offset = byteLength before
  lines : ∃ seen unseen, before = seen ++ unseen ∧ l.lines = .behind seen
  running : l.finished = false

theorem stands_ofText (text : String) : (ofText text).Stands [] where
  source := (String.ofList_toList).symm
  offset := byteLength_nil.symm
  lines := ⟨[], [], rfl, Lines.behind_nil.symm⟩
  running := rfl

namespace Stands
variable {l : Lexer} {before : List Char}

/-- Wherever the lines were counted up to, they are counted on to an offset ahead. -/
theorem upTo (h : l.Stands before) {cs ds : List Char} (hrest : l.rest = cs ++ ds) :
    l.lines.upTo l.source (byteLength (before ++ cs)) = .behind (before ++ cs) := by
  obtain ⟨seen, unseen, rfl, hlines⟩ := h.lines
  rw [hlines, h.source, hrest, ← List.append_assoc, List.append_assoc seen]
  exact Lines.behind_upTo seen (unseen ++ cs) ds

theorem position (h : l.Stands before) {cs ds : List Char} (hrest : l.rest = cs ++ ds) :
    (Lines.behind (before ++ cs)).position l.source = .after (before ++ cs) := by
  rw [h.source, hrest, ← List.append_assoc]
  exact Lines.behind_position (before ++ cs) ds

/-- Behind blanks only the end is left. -/
theorem tokens_gap (h : l.Stands before) (hgap : ∀ c ∈ l.rest, isBlank c = true) :
    l.tokens = [⟨.eof, "", .after (before ++ l.rest)⟩] := by
  have hrest : l.rest = l.rest ++ [] := (List.append_nil _).symm
  have hsize : l.source.utf8ByteSize = byteLength (before ++ l.rest) := by rw [h.source, byteLength]
  have hnext : l.next? = some (⟨.eof, "", .after (before ++ l.rest)⟩,
      { l with rest := [], lines := .behind (before ++ l.rest), finished := true }) := by
    simp only [next?, h.running, Bool.false_eq_true, if_false, List.dropWhile_eq_nil_iff.2 hgap,
      hsize, h.upTo hrest, h.position hrest]
  rw [tokens_of_next?_some hnext, tokens_of_next?_none]
  rfl

/-- The next lexeme is the next token, and the lexer goes on behind it. -/
theorem next?_lexeme (h : l.Stands before) {gap : List Char} {c : Char} {cs : List Char}
    (hrest : l.rest = gap ++ c :: cs) (hgap : ∀ c ∈ gap, isBlank c = true)
    (hc : isBlank c = false) :
    ∃ l', l.next? = some
        (⟨(Lexeme.scan c cs).1.kind, (Lexeme.scan c cs).1.literal, .after (before ++ gap)⟩, l') ∧
      l'.Stands (before ++ gap ++ (Lexeme.scan c cs).1.chars) ∧ l'.rest = (Lexeme.scan c cs).2 := by
  have hstart : l.offset + byteLength gap = byteLength (before ++ gap) := by
    rw [h.offset, byteLength_append]
  have hnext : l.next? = some
      (⟨(Lexeme.scan c cs).1.kind, (Lexeme.scan c cs).1.literal, .after (before ++ gap)⟩,
        { l with
          rest := (Lexeme.scan c cs).2
          offset := byteLength (before ++ gap) + byteLength (Lexeme.scan c cs).1.chars
          lines := .behind (before ++ gap) }) := by
    simp only [next?, h.running, Bool.false_eq_true, if_false, hrest, takeWhile_gap hgap hc,
      dropWhile_gap hgap hc, hstart, h.upTo hrest, h.position hrest]
  refine ⟨_, hnext, ⟨?_, ?_, ⟨before ++ gap, _, rfl, rfl⟩, h.running⟩, rfl⟩
  · rw [h.source, hrest, List.append_assoc, Lexeme.scan_append, List.append_assoc]
  · exact (byteLength_append _ _).symm

end Stands

/-- Induction along a run: only blanks are left, or a lexeme stands behind some. -/
theorem tokens_induction {motive : List Char → List Char → List Token → Prop}
    (stop : ∀ before gap : List Char, (∀ c ∈ gap, isBlank c = true) →
      motive before gap [⟨.eof, "", .after (before ++ gap)⟩])
    (lexeme : ∀ (before gap : List Char) (c : Char) (cs : List Char) (ts : List Token),
      (∀ c ∈ gap, isBlank c = true) → isBlank c = false →
      motive (before ++ gap ++ (Lexeme.scan c cs).1.chars) (Lexeme.scan c cs).2 ts →
      motive before (gap ++ c :: cs)
        (⟨(Lexeme.scan c cs).1.kind, (Lexeme.scan c cs).1.literal, .after (before ++ gap)⟩ :: ts))
    {l : Lexer} {before : List Char} (h : l.Stands before) : motive before l.rest l.tokens := by
  induction hn : l.rest.length using Nat.strongRecOn generalizing l before with
  | ind n ih =>
    obtain ⟨gap, rest, hrest, hgap, rfl | ⟨c, cs, rfl, hc⟩⟩ := exists_gap l.rest
    · rw [List.append_nil] at hrest
      subst hrest
      rw [h.tokens_gap hgap]
      exact stop before l.rest hgap
    · obtain ⟨l', hnext, hl', hrest'⟩ := h.next?_lexeme hrest hgap hc
      have hscan := Lexeme.scan_length_le c cs
      rw [hrest, List.length_append, List.length_cons] at hn
      rw [tokens_of_next?_some hnext, hrest]
      refine lexeme before gap c cs _ hgap hc ?_
      rw [← hrest']
      exact ih _ (by rw [hrest']; omega) hl' rfl

/-! ## Tokens already taken -/

theorem tokens_eq_nil_iff {l : Lexer} : l.tokens = [] ↔ l.next? = none := by
  constructor
  · intro h
    cases hn : l.next? with
    | none => rfl
    | some q => simp [tokens_of_next?_some hn] at h
  · exact tokens_of_next?_none

/-- A lexer that some tokens were taken from gives those behind them. -/
theorem tokens_skip (n : Nat) (l : Lexer) : (l.skip n).tokens = l.tokens.drop n := by
  induction n generalizing l with
  | zero => rfl
  | succ n ih =>
    cases hn : l.next? with
    | none => simp [skip, hn, tokens_of_next?_none hn]
    | some q => simp [skip, hn, tokens_of_next?_some hn, ih]

/-- A lexer is exhausted exactly when all its tokens were taken. -/
theorem next?_skip_eq_none_iff {n : Nat} {l : Lexer} :
    (l.skip n).next? = none ↔ l.tokens.length ≤ n := by
  rw [← tokens_eq_nil_iff, tokens_skip, List.drop_eq_nil_iff]

end Lexer

end LetFn
