import LetFn.Proofs.Lexer.Words

/-!
# Longest match

A text is split into blanks and lexemes. Each lexeme is the longest word that the rest of the text
starts with; where no word stands, a single character, or an unclosed string, is left over.

* `Token.Kind.Matches`: the words of each class. For every kind of first character there is a lemma
  that says which words start with it (`Token.Kind.matches_cons_of_isNameStart` and its like).
* `Lexeme.Starts`: the lexeme that a text starts with, by longest match; `Lexeme.Starts.unique` says
  that there is at most one, `Lexeme.starts_scan` that scanning finds it.
* `Lexer.Splits`: a text cut into the tokens that it starts with, one after the other.
* `Lexer.tokens_splits`: a lexer gives the one splitting of its text, then the end, then nothing.
-/

namespace LetFn
open Token (Kind)

/-! ## Words -/

/-- The word of a class that has only one. -/
def Token.Kind.only? : Kind → Option (List Char)
  | .letWord => some ['l', 'e', 't']
  | .fnWord => some ['f', 'n']
  | .ifWord => some ['i', 'f']
  | .elseWord => some ['e', 'l', 's', 'e']
  | .returnWord => some ['r', 'e', 't', 'u', 'r', 'n']
  | .trueWord => some ['t', 'r', 'u', 'e']
  | .falseWord => some ['f', 'a', 'l', 's', 'e']
  | .assign => some ['=']
  | .plus => some ['+']
  | .minus => some ['-']
  | .bang => some ['!']
  | .star => some ['*']
  | .slash => some ['/']
  | .less => some ['<']
  | .greater => some ['>']
  | .equal => some ['=', '=']
  | .notEqual => some ['!', '=']
  | .comma => some [',']
  | .semicolon => some [';']
  | .leftParen => some ['(']
  | .rightParen => some [')']
  | .leftBrace => some ['{']
  | .rightBrace => some ['}']
  | .name | .int | .string | .illegal | .eof => none

/-- The words of each class. Keywords are words of the class of names as well. -/
inductive Token.Kind.Matches : Kind → List Char → Prop
  | only {k : Kind} {l : List Char} : k.only? = some l → Matches k l
  | name {c : Char} {cs : List Char} :
      isNameStart c = true → (∀ d ∈ cs, isNameChar d = true) → Matches .name (c :: cs)
  | int {c : Char} {cs : List Char} :
      isDecimalDigit c = true → (∀ d ∈ cs, isDecimalDigit d = true) → Matches .int (c :: cs)
  | string {cs : List Char} : '"' ∉ cs → Matches .string ('"' :: (cs ++ ['"']))

namespace Token.Kind
variable {k : Kind} {c : Char} {l cs : List Char}

/-- The words of a class with only one are keywords or signs. -/
theorem only?_cases (h : k.only? = some (c :: cs)) :
    (isNameStart c = true ∧ (∀ d ∈ cs, isNameChar d = true) ∧ k = Lexeme.wordKind (c :: cs)) ∨
      (Lexeme.signKind c ≠ .illegal ∧
        (cs = [] ∧ k = Lexeme.signKind c ∨ c = '=' ∧ cs = ['='] ∧ k = .equal ∨
          c = '!' ∧ cs = ['='] ∧ k = .notEqual)) := by
  cases k <;> simp only [only?, Option.some.injEq, List.cons.injEq, reduceCtorEq] at h
  all_goals
    obtain ⟨rfl, rfl⟩ := h
    -- the first character says whether it is a keyword or a sign
    first
    | exact .inl ⟨by decide, List.all_eq_true.1 (by decide), by decide⟩
    | exact .inr ⟨by decide, by decide⟩

/-- Signs start with no character of the other words, and with no blank. -/
theorem of_signKind_ne (h : Lexeme.signKind c ≠ .illegal) :
    isNameStart c = false ∧ isDecimalDigit c = false ∧ c ≠ '"' ∧ isBlank c = false := by
  unfold Lexeme.signKind at h
  split at h
  all_goals first | decide | exact absurd rfl h

namespace Matches

theorem exists_cons (h : k.Matches l) : ∃ c cs, l = c :: cs := by
  cases h with
  | only h =>
    cases l with
    | nil => cases k <;> simp [only?] at h
    | cons c cs => exact ⟨c, cs, rfl⟩
  | name | int | string => exact ⟨_, _, rfl⟩

theorem isBlank_eq_false (h : k.Matches (c :: cs)) : isBlank c = false := by
  cases h with
  | only h =>
    obtain ⟨hc, -⟩ | ⟨hc, -⟩ := only?_cases h
    · exact isBlank_eq_false_of_isNameStart hc
    · exact (of_signKind_ne hc).2.2.2
  | name hc => exact isBlank_eq_false_of_isNameStart hc
  | int hc => exact isBlank_eq_false_of_isDecimalDigit hc
  | string => rfl

end Matches

/-! ### Words by their first character -/

theorem matches_cons_of_isNameStart (hc : isNameStart c = true) :
    k.Matches (c :: cs) ↔
      (∀ d ∈ cs, isNameChar d = true) ∧ (k = Lexeme.wordKind (c :: cs) ∨ k = .name) := by
  constructor
  · intro h
    cases h with
    | only h =>
      obtain ⟨-, hcs, hk⟩ | ⟨hsign, -⟩ := only?_cases h
      · exact ⟨hcs, .inl hk⟩
      · exact absurd hc (by rw [(of_signKind_ne hsign).1]; exact Bool.false_ne_true)
    | name _ hcs => exact ⟨hcs, .inr rfl⟩
    | int hd => exact absurd hc (by rw [isNameStart_eq_false_of_isDecimalDigit hd]; exact nofun)
    | string => exact absurd hc (by decide)
  · rintro ⟨hcs, rfl | rfl⟩
    · unfold Lexeme.wordKind
      split_ifs with h₁ h₂ h₃ h₄ h₅ h₆ h₇
      · exact h₁ ▸ .only rfl
      · exact h₂ ▸ .only rfl
      · exact h₃ ▸ .only rfl
      · exact h₄ ▸ .only rfl
      · exact h₅ ▸ .only rfl
      · exact h₆ ▸ .only rfl
      · exact h₇ ▸ .only rfl
      · exact .name hc hcs
    · exact .name hc hcs

theorem matches_cons_of_isDecimalDigit (hc : isDecimalDigit c = true) :
    k.Matches (c :: cs) ↔ (∀ d ∈ cs, isDecimalDigit d = true) ∧ k = .int := by
  have hstart := isNameStart_eq_false_of_isDecimalDigit hc
  constructor
  · intro h
    cases h with
    | only h =>
      obtain ⟨hn, -⟩ | ⟨hsign, -⟩ := only?_cases h
      · exact absurd hn (by rw [hstart]; exact nofun)
      · exact absurd hc (by rw [(of_signKind_ne hsign).2.1]; exact nofun)
    | name hn => exact absurd hn (by rw [hstart]; exact nofun)
    | int _ hcs => exact ⟨hcs, rfl⟩
    | string => exact absurd hc (by decide)
  · rintro ⟨hcs, rfl⟩
    exact .int hc hcs

theorem matches_quote : k.Matches ('"' :: cs) ↔ (∃ ds, cs = ds ++ ['"'] ∧ '"' ∉ ds) ∧ k = .string := by
  constructor
  · intro h
    cases h with
    | only h =>
      obtain ⟨hn, -⟩ | ⟨hsign, -⟩ := only?_cases h
      · exact absurd hn (by decide)
      · exact absurd rfl (of_signKind_ne hsign).2.2.1
    | name hn => exact absurd hn (by decide)
    | int hd => exact absurd hd (by decide)
    | string hds => exact ⟨⟨_, rfl, hds⟩, rfl⟩
  · rintro ⟨⟨ds, rfl, hds⟩, rfl⟩
    exact .string hds

/-- The words that start neither a name nor an integer nor a string are signs. -/
theorem matches_cons_of_sign (hn : isNameStart c = false) (hd : isDecimalDigit c = false)
    (hq : c ≠ '"') :
    k.Matches (c :: cs) ↔
      k ≠ .illegal ∧ (cs = [] ∧ k = Lexeme.signKind c ∨ c = '=' ∧ cs = ['='] ∧ k = .equal ∨
        c = '!' ∧ cs = ['='] ∧ k = .notEqual) := by
  constructor
  · intro h
    cases h with
    | only h =>
      obtain ⟨hname, -⟩ | ⟨hsign, hcs⟩ := only?_cases h
      · exact absurd hname (by rw [hn]; exact nofun)
      · refine ⟨?_, hcs⟩
        rintro rfl
        cases h
    | name hname => exact absurd hname (by rw [hn]; exact nofun)
    | int hdigit => exact absurd hdigit (by rw [hd]; exact nofun)
    | string => exact absurd rfl hq
  · rintro ⟨hk, ⟨rfl, rfl⟩ | ⟨rfl, rfl, rfl⟩ | ⟨rfl, rfl, rfl⟩⟩
    · refine .only ?_
      unfold Lexeme.signKind at hk ⊢
      split at hk
      all_goals first | rfl | exact absurd rfl hk
    · exact .only rfl
    · exact .only rfl

end Token.Kind

/-! ## The lexeme at the head of a text -/

/-- No word of any class stands at the head of the text. -/
def NoWord (text : List Char) : Prop := ∀ k l, Token.Kind.Matches k l → ¬ l <+: text

namespace Lexeme

/-- The longest word that stands at the head of the text. Where a keyword and a name are equally
long it is a keyword. -/
structure IsLongest (text : List Char) (x : Lexeme) : Prop where
  atHead : x.chars <+: text
  isWord : x.kind.Matches x.chars
  longest : ∀ k l, Token.Kind.Matches k l → l <+: text → l.length ≤ x.chars.length
  own : ∀ k, Token.Kind.Matches k x.chars → k = x.kind ∨ k = .name

/-- The lexeme that a text starts with: its longest word, or what is left over where no word stands,
a character that is not blank, or all of the text behind a quote that is not closed. -/
inductive Starts : List Char → Lexeme → Prop
  | word {text : List Char} {x : Lexeme} : IsLongest text x → Starts text x
  | stray {c : Char} {cs : List Char} :
      isBlank c = false → c ≠ '"' → NoWord (c :: cs) → Starts (c :: cs) ⟨.illegal, [c]⟩
  | unclosed {cs : List Char} :
      NoWord ('"' :: cs) → Starts ('"' :: cs) ⟨.illegal, '"' :: cs⟩

theorem IsLongest.unique {text : List Char} {x y : Lexeme} (hx : IsLongest text x)
    (hy : IsLongest text y) : x = y := by
  have hlen : x.chars.length = y.chars.length :=
    Nat.le_antisymm (hy.longest _ _ hx.isWord hx.atHead) (hx.longest _ _ hy.isWord hy.atHead)
  have hchars : x.chars = y.chars :=
    (List.prefix_of_prefix_length_le hx.atHead hy.atHead hlen.le).eq_of_length hlen
  have hkind : x.kind = y.kind := by
    rcases hx.own y.kind (hchars ▸ hy.isWord) with h | h
    · exact h.symm
    · rcases hy.own x.kind (hchars ▸ hx.isWord) with h' | h'
      · exact h'
      · exact h'.trans h.symm
  cases x
  cases y
  exact congrArg₂ _ hkind hchars

theorem IsLongest.not_noWord {text : List Char} {x : Lexeme} (h : IsLongest text x) :
    ¬ NoWord text := fun hno => hno _ _ h.isWord h.atHead

/-- A text starts with one lexeme at most. -/
theorem Starts.unique {text : List Char} {x y : Lexeme} (hx : Starts text x) (hy : Starts text y) :
    x = y := by
  cases hx with
  | word hx =>
    cases hy with
    | word hy => exact hx.unique hy
    | stray _ _ hno => exact absurd hno hx.not_noWord
    | unclosed hno => exact absurd hno hx.not_noWord
  | stray _ hq hno =>
    cases hy with
    | word hy => exact absurd hno hy.not_noWord
    | stray => rfl
    | unclosed => exact absurd rfl hq
  | unclosed hno =>
    cases hy with
    | word hy => exact absurd hno hy.not_noWord
    | stray _ hq => exact absurd rfl hq
    | unclosed => rfl

/-- No lexeme starts with a blank. -/
theorem Starts.exists_cons {text : List Char} {x : Lexeme} (h : Starts text x) :
    ∃ c cs, text = c :: cs ∧ isBlank c = false := by
  cases h with
  | word h =>
    obtain ⟨c, cs, hchars⟩ := h.isWord.exists_cons
    obtain ⟨rest, rfl⟩ := h.atHead
    refine ⟨c, cs ++ rest, by rw [hchars, List.cons_append], ?_⟩
    exact (hchars ▸ h.isWord).isBlank_eq_false
  | stray hc => exact ⟨_, _, rfl, hc⟩
  | unclosed => exact ⟨_, _, rfl, rfl⟩

/-! ### Scanning -/

theorem length_le_takeWhile {p : Char → Bool} {ds cs : List Char} (h : ds <+: cs)
    (hds : ∀ d ∈ ds, p d = true) : ds.length ≤ (cs.takeWhile p).length := by
  obtain ⟨rest, rfl⟩ := h
  rw [List.takeWhile_append_of_pos hds, List.length_append]
  exact Nat.le_add_right _ _

section
variable {c : Char} (cs : List Char)

theorem isLongest_name (hc : isNameStart c = true) :
    IsLongest (c :: cs)
      ⟨wordKind (c :: cs.takeWhile isNameChar), c :: cs.takeWhile isNameChar⟩ where
  atHead := List.cons_prefix_cons.2 ⟨rfl, List.takeWhile_prefix _⟩
  isWord := (Token.Kind.matches_cons_of_isNameStart hc).2 ⟨isNameChar_of_mem_takeWhile, .inl rfl⟩
  longest := by
    intro k l hl hpre
    obtain ⟨d, ds, rfl⟩ := hl.exists_cons
    obtain ⟨rfl, hds⟩ := List.cons_prefix_cons.1 hpre
    have hall := ((Token.Kind.matches_cons_of_isNameStart hc).1 hl).1
    exact Nat.succ_le_succ (length_le_takeWhile hds hall)
  own := fun _ hk => ((Token.Kind.matches_cons_of_isNameStart hc).1 hk).2

theorem isLongest_int (hc : isDecimalDigit c = true) :
    IsLongest (c :: cs) ⟨.int, c :: cs.takeWhile isDecimalDigit⟩ where
  atHead := List.cons_prefix_cons.2 ⟨rfl, List.takeWhile_prefix _⟩
  isWord := .int hc fun d hd => List.all_eq_true.1 List.all_takeWhile d hd
  longest := by
    intro k l hl hpre
    obtain ⟨d, ds, rfl⟩ := hl.exists_cons
    obtain ⟨rfl, hds⟩ := List.cons_prefix_cons.1 hpre
    have hall := ((Token.Kind.matches_cons_of_isDecimalDigit hc).1 hl).1
    exact Nat.succ_le_succ (length_le_takeWhile hds hall)
  own := fun _ hk => .inl ((Token.Kind.matches_cons_of_isDecimalDigit hc).1 hk).2

theorem isLongest_string {ds : List Char} (hds : '"' ∉ ds) :
    IsLongest ('"' :: (ds ++ '"' :: cs)) ⟨.string, '"' :: (ds ++ ['"'])⟩ where
  atHead := ⟨cs, by simp⟩
  isWord := .string hds
  longest := by
    intro k l hl hpre
    obtain ⟨d, es, rfl⟩ := hl.exists_cons
    obtain ⟨rfl, hes⟩ := List.cons_prefix_cons.1 hpre
    obtain ⟨⟨fs, rfl, hfs⟩, -⟩ := Token.Kind.matches_quote.1 hl
    -- the other string ends at the same quote
    have hle := length_le_takeWhile ((List.prefix_append fs _).trans hes) (forall_ne_quote hfs)
    rw [takeWhile_ne_quote hds] at hle
    simp only [List.length_cons, List.length_append]
    omega
  own := fun _ hk => .inl (Token.Kind.matches_quote.1 hk).2

/-- Behind a quote stands a string up to the next one, or an unclosed one. -/
theorem starts_quoted : Starts ('"' :: cs) (quoted cs).1 := by
  by_cases hq : '"' ∈ cs
  · obtain ⟨ds, rest, rfl, hds⟩ := List.eq_append_cons_of_mem hq
    rw [quoted_closed hds]
    exact .word (isLongest_string rest hds)
  · rw [quoted_unclosed hq]
    refine .unclosed fun k l hl hpre => hq ?_
    obtain ⟨d, ds, rfl⟩ := hl.exists_cons
    obtain ⟨rfl, hds⟩ := List.cons_prefix_cons.1 hpre
    obtain ⟨⟨es, rfl, -⟩, -⟩ := Token.Kind.matches_quote.1 hl
    exact hds.subset (List.mem_append_right es List.mem_cons_self)

section
variable (hn : isNameStart c = false) (hd : isDecimalDigit c = false) (hq : c ≠ '"')
include hn hd hq

/-- The words that a text with such a character at its head starts with are that character, or it
with an equals sign behind it. -/
theorem sign_or_double {k : Kind} {l : List Char} (hl : k.Matches l) (hpre : l <+: c :: cs) :
    l = [c] ∧ k = signKind c ∧ k ≠ .illegal ∨
      ∃ rest, cs = '=' :: rest ∧ l = [c, '='] ∧ (c = '=' ∧ k = .equal ∨ c = '!' ∧ k = .notEqual) := by
  obtain ⟨d, ds, rfl⟩ := hl.exists_cons
  obtain ⟨rfl, rest, rfl⟩ := List.cons_prefix_cons.1 hpre
  obtain ⟨hk, ⟨rfl, hsign⟩ | ⟨hc, rfl, hk'⟩ | ⟨hc, rfl, hk'⟩⟩ :=
    (Token.Kind.matches_cons_of_sign hn hd hq).1 hl
  · exact .inl ⟨rfl, hsign, hk⟩
  · exact .inr ⟨rest, rfl, rfl, .inl ⟨hc, hk'⟩⟩
  · exact .inr ⟨rest, rfl, rfl, .inr ⟨hc, hk'⟩⟩

theorem isLongest_double {k : Kind} (hk : c = '=' ∧ k = .equal ∨ c = '!' ∧ k = .notEqual) :
    IsLongest (c :: '=' :: cs) ⟨k, [c, '=']⟩ where
  atHead := ⟨cs, rfl⟩
  isWord := by
    rcases hk with ⟨rfl, rfl⟩ | ⟨rfl, rfl⟩
    · exact .only rfl
    · exact .only rfl
  longest := by
    intro k' l hl hpre
    obtain ⟨rfl, -⟩ | ⟨_, -, rfl, -⟩ := sign_or_double _ hn hd hq hl hpre
    · exact Nat.le_succ 1
    · exact Nat.le_refl 2
  own := by
    intro k' hl
    obtain ⟨h, -⟩ | ⟨_, -, -, ⟨hc, hk'⟩ | ⟨hc, hk'⟩⟩ :=
      sign_or_double ['='] hn hd hq hl List.prefix_rfl
    · cases h
    · obtain ⟨-, rfl⟩ := hk.resolve_right fun h => absurd (hc.symm.trans h.1) (by decide)
      exact .inl hk'
    · obtain ⟨-, rfl⟩ := hk.resolve_left fun h => absurd (hc.symm.trans h.1) (by decide)
      exact .inl hk'

/-- Elsewhere stands a sign, of two characters if it can be, or a stray character. -/
theorem starts_sign (hb : isBlank c = false) : Starts (c :: cs) (sign c cs).1 := by
  unfold sign
  split
  · exact .word (isLongest_double _ hn hd hq (.inl ⟨rfl, rfl⟩))
  · exact .word (isLongest_double _ hn hd hq (.inr ⟨rfl, rfl⟩))
  · next hequal hnot =>
    -- no equals sign joins the character
    have hone : ∀ k l, Token.Kind.Matches k l → l <+: c :: cs →
        l = [c] ∧ k = signKind c ∧ k ≠ .illegal := by
      intro k l hl hpre
      obtain h | ⟨rest, hcs, -, ⟨hc, -⟩ | ⟨hc, -⟩⟩ := sign_or_double cs hn hd hq hl hpre
      · exact h
      · exact absurd hcs (hequal rest hc)
      · exact absurd hcs (hnot rest hc)
    by_cases hk : signKind c = .illegal
    · rw [hk]
      refine .stray hb hq fun k l hl hpre => ?_
      obtain ⟨-, hsign, hne⟩ := hone k l hl hpre
      exact hne (hsign.trans hk)
    · have hword := (Token.Kind.matches_cons_of_sign hn hd hq).2 ⟨hk, .inl ⟨rfl, rfl⟩⟩
      refine .word ⟨⟨cs, rfl⟩, hword, fun k l hl hpre => ?_, fun k hl => ?_⟩
      · rw [(hone k l hl hpre).1]
      · exact .inl (hone k _ hl ⟨cs, rfl⟩).2.1

end

/-- Scanning finds the lexeme that a text starts with. -/
theorem starts_scan (hc : isBlank c = false) : Starts (c :: cs) (scan c cs).1 := by
  unfold scan
  split
  · next hn => exact .word (isLongest_name cs hn)
  split
  · next hd => exact .word (isLongest_int cs hd)
  split
  · next hq =>
    subst hq
    exact starts_quoted cs
  · next hn hd hq => exact starts_sign cs (eq_false_of_ne_true hn) (eq_false_of_ne_true hd) hq hc

end

end Lexeme

/-! ## Splitting a text -/

namespace Lexer

/-- The text is made up of the tokens and of blanks between them, and what is left of it starts with
each of them in turn. Where the tokens stand is left open. -/
inductive Splits : List Char → List Token → Prop
  | last {gap : List Char} : (∀ c ∈ gap, isBlank c = true) → Splits gap []
  | next {gap rest : List Char} {t : Token} {ts : List Token} :
      (∀ c ∈ gap, isBlank c = true) →
      Lexeme.Starts (t.spelling ++ rest) ⟨t.kind, t.spelling⟩ → Splits rest ts →
      Splits (gap ++ (t.spelling ++ rest)) (t :: ts)

/-- The tokens of a lexer split its text, the end token apart. -/
theorem exists_splits (text : String) :
    ∃ ts stop, (ofText text).tokens = ts ++ [stop] ∧ stop.word = (.eof, "") ∧
      Splits text.toList ts := by
  refine tokens_induction (motive := fun _ cs us => ∃ ts stop, us = ts ++ [stop] ∧
    stop.word = (.eof, "") ∧ Splits cs ts) ?_ ?_ (stands_ofText text)
  · exact fun before gap hgap => ⟨[], _, rfl, rfl, .last hgap⟩
  · rintro before gap c cs _ hgap hc ⟨ts, stop, rfl, hstop, hts⟩
    let t : Token :=
      ⟨(Lexeme.scan c cs).1.kind, (Lexeme.scan c cs).1.literal, .after (before ++ gap)⟩
    have hspelling : t.spelling = (Lexeme.scan c cs).1.chars := Lexeme.spelling_scan c cs _
    have hcs : t.spelling ++ (Lexeme.scan c cs).2 = c :: cs := by
      rw [hspelling, Lexeme.scan_append]
    refine ⟨t :: ts, stop, rfl, hstop, ?_⟩
    rw [← hcs]
    refine .next hgap ?_ hts
    rw [hcs, hspelling]
    exact Lexeme.starts_scan cs hc

/-- Whatever splits a text has its words. -/
theorem Splits.words_eq {cs : List Char} {ts : List Token} (h : Splits cs ts) :
    words cs = ts.map Token.word ++ [(.eof, "")] := by
  induction h with
  | last hgap => exact words_of_gap hgap
  | @next gap rest t ts hgap hstart _ ih =>
    obtain ⟨c, cs, hcs, hc⟩ := hstart.exists_cons
    rw [hcs] at hstart
    have hscan := hstart.unique (Lexeme.starts_scan cs hc)
    have hrest := Lexeme.scan_append c cs
    rw [← hscan, ← hcs, List.append_cancel_left_eq] at hrest
    rw [hcs, words_gap hgap, words_cons hc, hrest, ih, ← hscan, Lexeme.literal_spelling]
    rfl

/-- The tokens of a text split it by longest match, and nothing else does. Behind them comes one end
token, and then nothing. -/
theorem tokens_splits (text : String) :
    ∃ ts stop, (ofText text).tokens = ts ++ [stop] ∧ stop.word = (.eof, "") ∧
      Splits text.toList ts ∧
      (∀ us, Splits text.toList us → us.map Token.word = ts.map Token.word) ∧
      ∀ n, ((ofText text).skip n).next? = none ↔ ts.length < n := by
  obtain ⟨ts, stop, htokens, hstop, hsplits⟩ := exists_splits text
  refine ⟨ts, stop, htokens, hstop, hsplits, fun us hus => ?_, fun n => ?_⟩
  · have h := hus.words_eq.symm.trans hsplits.words_eq
    rwa [List.append_cancel_right_eq] at h
  · rw [next?_skip_eq_none_iff, htokens, List.length_append, List.length_singleton]
    exact Nat.succ_le_iff

example : (ofText "letter let===\"x").tokens.map Token.word =
    [(.name, "letter"), (.letWord, "let"), (.equal, "=="), (.assign, "="), (.illegal, "\"x"),
      (.eof, "")] := by decide +kernel

end Lexer

end LetFn
