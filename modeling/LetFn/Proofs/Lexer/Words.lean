import LetFn.Proofs.Lexer.Run

/-!
# The words of a text

A token without its place, and how the words of a text come from its head.

* `Lexer.words`: the words of a text; `Lexer.Stands.tokens_map_word` says that what stands before
  a text does not decide them.
* `Lexer.words_blank`, `Lexer.words_cons`: a blank is left out, a lexeme comes first.
* `Lexer.words_word`, `Lexer.words_digits`, `Lexer.words_quoted`: the words that the characters
  after them have to end.
* `Token.IsProper`: what the text of a name or of a string can be; `Lexer.isProper_of_mem_tokens`
  says that every token a lexer gives is of that kind.
* `Token.spelling`: the stretch of a text that a token stands for, the quotes of a string included;
  `Lexeme.spelling_scan` says that it is the lexeme that the token comes from.
-/

namespace LetFn
open Token (Kind)

/-- A class with a text. -/
abbrev Word := Kind × String

/-- A token without its place. -/
def Token.word (t : Token) : Word := (t.kind, t.text)

/-! ## Names and strings -/

/-- The names that no keyword takes. -/
def isIdentifier (x : String) : Bool :=
  match x.toList with
  | [] => false
  | c :: cs => isNameStart c && cs.all isNameChar && (Lexeme.wordKind (c :: cs) = .name)

theorem isIdentifier_ofList {c : Char} {cs : List Char} :
    isIdentifier (String.ofList (c :: cs)) = true ↔
      isNameStart c = true ∧ (∀ d ∈ cs, isNameChar d = true) ∧
        Lexeme.wordKind (c :: cs) = .name := by
  rw [isIdentifier, String.toList_ofList]
  simp only [Bool.and_eq_true, List.all_eq_true, decide_eq_true_eq, and_assoc]

theorem exists_of_isIdentifier {x : String} (h : isIdentifier x = true) :
    ∃ c cs, x = String.ofList (c :: cs) ∧ isNameStart c = true ∧ (∀ d ∈ cs, isNameChar d = true) ∧
      Lexeme.wordKind (c :: cs) = .name := by
  cases hx : x.toList with
  | nil => rw [isIdentifier, hx] at h; cases h
  | cons c cs =>
    have hx' : x = String.ofList (c :: cs) := by rw [← hx, String.ofList_toList]
    rw [hx', isIdentifier_ofList] at h
    exact ⟨c, cs, hx', h⟩

/-- A string holds no quote, and the text of a name is one. -/
def Token.IsProper (t : Token) : Prop :=
  (t.kind = .name → isIdentifier t.text = true) ∧ (t.kind = .string → '"' ∉ t.text.toList)

theorem Token.isProper_of_kind_not_mem {t : Token} (h : t.kind ∉ [Kind.name, .string]) :
    t.IsProper :=
  ⟨fun hk => absurd (hk ▸ List.mem_cons_self) h,
    fun hk => absurd (hk ▸ List.mem_cons_of_mem _ List.mem_cons_self) h⟩

theorem isBlank_eq_false_of_isNameStart {c : Char} (h : isNameStart c = true) :
    isBlank c = false := by
  rw [Bool.eq_false_iff]
  intro hb
  simp only [isBlank, Bool.or_eq_true, decide_eq_true_eq] at hb
  rcases hb with (((rfl | rfl) | rfl) | rfl) | rfl <;> exact absurd h (by decide)

theorem isBlank_eq_false_of_isDecimalDigit {c : Char} (h : isDecimalDigit c = true) :
    isBlank c = false := by
  rw [Bool.eq_false_iff]
  intro hb
  simp only [isBlank, Bool.or_eq_true, decide_eq_true_eq] at hb
  rcases hb with (((rfl | rfl) | rfl) | rfl) | rfl <;> exact absurd h (by decide)

theorem isNameStart_eq_false_of_isDecimalDigit {c : Char} (h : isDecimalDigit c = true) :
    isNameStart c = false := by
  simp only [isDecimalDigit, Bool.and_eq_true, decide_eq_true_eq, Char.le_def,
    UInt32.le_iff_toNat_le] at h
  rw [Bool.eq_false_iff]
  intro hn
  simp only [isNameStart, Bool.or_eq_true, Bool.and_eq_true, decide_eq_true_eq, Char.le_def,
    UInt32.le_iff_toNat_le] at hn
  rcases hn with (hn | hn) | rfl
  · have : ('a' : Char).val.toNat = 97 := rfl
    have : ('9' : Char).val.toNat = 57 := rfl
    omega
  · have : ('A' : Char).val.toNat = 65 := rfl
    have : ('9' : Char).val.toNat = 57 := rfl
    omega
  · exact absurd h.2 (by decide)

namespace Lexeme

theorem wordKind_ne_string (word : List Char) : wordKind word ≠ .string := by
  unfold wordKind
  repeat' split
  all_goals decide

theorem signKind_not_mem (c : Char) : signKind c ∉ [Kind.name, .string] := by
  unfold signKind
  split <;> decide

theorem isNameChar_of_mem_takeWhile {cs : List Char} :
    ∀ d ∈ cs.takeWhile isNameChar, isNameChar d = true := fun d hd => by
  have h := List.all_takeWhile (p := isNameChar) (l := cs)
  exact List.all_eq_true.1 h d hd

theorem forall_ne_quote {cs : List Char} (h : '"' ∉ cs) : ∀ c ∈ cs, decide (c ≠ '"') = true := by
  intro c hc
  rw [decide_eq_true_eq]
  rintro rfl
  exact h hc

theorem takeWhile_ne_quote {ds : List Char} (hds : '"' ∉ ds) (rest : List Char) :
    (ds ++ '"' :: rest).takeWhile (· ≠ '"') = ds :=
  Lexer.takeWhile_append_of_stop (forall_ne_quote hds) (by simp)

theorem dropWhile_ne_quote {ds : List Char} (hds : '"' ∉ ds) (rest : List Char) :
    (ds ++ '"' :: rest).dropWhile (· ≠ '"') = '"' :: rest :=
  Lexer.dropWhile_append_of_stop (forall_ne_quote hds) (by simp)

/-- A string ends at the next quote. -/
theorem quoted_closed {ds : List Char} (hds : '"' ∉ ds) (rest : List Char) :
    quoted (ds ++ '"' :: rest) = (⟨.string, '"' :: (ds ++ ['"'])⟩, rest) := by
  rw [quoted, dropWhile_ne_quote hds, takeWhile_ne_quote hds]
  rfl

/-- A string that is not closed takes the rest of the text with it. -/
theorem quoted_unclosed {cs : List Char} (h : '"' ∉ cs) :
    quoted cs = (⟨.illegal, '"' :: cs⟩, []) := by
  have hd : cs.dropWhile (· ≠ '"') = [] := List.dropWhile_eq_nil_iff.2 (forall_ne_quote h)
  rw [quoted, hd]

/-- The lexeme at the head of a text has a literal fit for its class. -/
theorem isProper_scan (c : Char) (cs : List Char) (p : Position) :
    Token.IsProper ⟨(scan c cs).1.kind, (scan c cs).1.literal, p⟩ := by
  unfold scan
  split
  · next hc =>
    refine ⟨fun hk => ?_, fun hk => absurd hk (wordKind_ne_string _)⟩
    have hl : literal ⟨wordKind (c :: cs.takeWhile isNameChar), c :: cs.takeWhile isNameChar⟩ =
        String.ofList (c :: cs.takeWhile isNameChar) := by
      rw [literal, if_neg (wordKind_ne_string _)]
    rw [hl, isIdentifier_ofList]
    exact ⟨hc, isNameChar_of_mem_takeWhile, hk⟩
  split
  · exact Token.isProper_of_kind_not_mem (by simp)
  split
  · by_cases hq : '"' ∈ cs
    · obtain ⟨ds, rest, rfl, hds⟩ := List.eq_append_cons_of_mem hq
      rw [quoted_closed hds]
      exact ⟨nofun, fun _ => by simpa [literal] using hds⟩
    · rw [quoted_unclosed hq]
      exact Token.isProper_of_kind_not_mem (by simp)
  · unfold sign
    split
    · exact Token.isProper_of_kind_not_mem (by simp)
    · exact Token.isProper_of_kind_not_mem (by simp)
    · exact Token.isProper_of_kind_not_mem (signKind_not_mem c)

/-! ## Spelling -/

theorem exists_of_scan_string {c : Char} {cs : List Char} (h : (scan c cs).1.kind = .string) :
    ∃ ds, (scan c cs).1.chars = '"' :: (ds ++ ['"']) := by
  unfold scan at h ⊢
  split at h
  · exact absurd h (wordKind_ne_string _)
  split at h
  · cases h
  split at h
  · next hn hd hc =>
    rw [if_neg hn, if_neg hd, if_pos hc]
    by_cases hq : '"' ∈ cs
    · obtain ⟨ds, rest, rfl, hds⟩ := List.eq_append_cons_of_mem hq
      exact ⟨ds, by rw [quoted_closed hds]⟩
    · rw [quoted_unclosed hq] at h
      cases h
  · unfold sign at h
    split at h
    · cases h
    · cases h
    · exact absurd (h ▸ signKind_not_mem c) (by simp)

end Lexeme

/-- The stretch of a text that a token stands for. -/
def Token.spelling (t : Token) : List Char :=
  if t.kind = .string then '"' :: (t.text.toList ++ ['"']) else t.text.toList

/-- A token is spelled as the lexeme that it comes from. -/
theorem Lexeme.spelling_scan (c : Char) (cs : List Char) (p : Position) :
    Token.spelling ⟨(scan c cs).1.kind, (scan c cs).1.literal, p⟩ = (scan c cs).1.chars := by
  unfold Token.spelling literal
  split
  · next h =>
    obtain ⟨ds, hds⟩ := exists_of_scan_string h
    simp [hds]
  · exact String.toList_ofList

/-- A token keeps the literal of what it is spelled as. -/
theorem Lexeme.literal_spelling (t : Token) : literal ⟨t.kind, t.spelling⟩ = t.text := by
  unfold literal Token.spelling
  split <;> simp_all

namespace Lexer

/-- Every token that a lexer gives has a text fit for its class. -/
theorem isProper_of_mem_tokens {text : String} {t : Token} (h : t ∈ (ofText text).tokens) :
    t.IsProper := by
  suffices hall : ∀ t ∈ (ofText text).tokens, t.IsProper from hall t h
  refine tokens_induction (motive := fun _ _ ts => ∀ t ∈ ts, t.IsProper) ?_ ?_ (stands_ofText text)
  · intro before gap _ t ht
    rw [List.mem_singleton.1 ht]
    exact Token.isProper_of_kind_not_mem (by simp)
  · intro before gap c cs ts _ _ hts
    exact List.forall_mem_cons.2 ⟨Lexeme.isProper_scan c cs _, hts⟩

/-! ## Words -/

/-- The words of a text, its end included. -/
def words (cs : List Char) : List Word := (ofText (String.ofList cs)).tokens.map Token.word

theorem tokens_map_word (text : String) :
    (ofText text).tokens.map Token.word = words text.toList := by
  rw [words, String.ofList_toList]

/-- What stands before a text does not decide its words. -/
theorem Stands.tokens_map_word {l : Lexer} {before : List Char} (h : l.Stands before) :
    l.tokens.map Token.word = words l.rest := by
  suffices hall : ∀ {l' : Lexer} {before' : List Char}, l'.Stands before' → l'.rest = l.rest →
      l.tokens.map Token.word = l'.tokens.map Token.word from
    hall (stands_ofText _) (String.toList_ofList)
  refine tokens_induction (motive := fun _ cs ts => ∀ {l' : Lexer} {before' : List Char},
    l'.Stands before' → l'.rest = cs → ts.map Token.word = l'.tokens.map Token.word) ?_ ?_ h
  · rintro before gap hgap l' before' hl' rfl
    rw [hl'.tokens_gap hgap]
    rfl
  · intro before gap c cs ts hgap hc ih l' before' hl' hrest
    obtain ⟨l'', hnext, hl'', hrest'⟩ := hl'.next?_lexeme hrest hgap hc
    rw [tokens_of_next?_some hnext, List.map_cons, List.map_cons, ih hl'' hrest']
    rfl

theorem words_of_gap {gap : List Char} (hgap : ∀ c ∈ gap, isBlank c = true) :
    words gap = [(.eof, "")] := by
  have hrest : (ofText (String.ofList gap)).rest = gap := String.toList_ofList
  rw [words, (stands_ofText _).tokens_gap (by rwa [hrest])]
  rfl

theorem words_nil : words [] = [(.eof, "")] := words_of_gap nofun

/-- The lexeme behind some blanks is the first word. -/
theorem words_gap_cons {gap : List Char} (hgap : ∀ c ∈ gap, isBlank c = true) {c : Char}
    (hc : isBlank c = false) (cs : List Char) :
    words (gap ++ c :: cs) =
      ((Lexeme.scan c cs).1.kind, (Lexeme.scan c cs).1.literal) :: words (Lexeme.scan c cs).2 := by
  obtain ⟨l', hnext, hl', hrest⟩ :=
    (stands_ofText (String.ofList (gap ++ c :: cs))).next?_lexeme String.toList_ofList hgap hc
  rw [words, tokens_of_next?_some hnext, List.map_cons, hl'.tokens_map_word, hrest]
  rfl

theorem words_gap {gap : List Char} (hgap : ∀ c ∈ gap, isBlank c = true) (cs : List Char) :
    words (gap ++ cs) = words cs := by
  obtain ⟨gap', rest, rfl, hgap', rfl | ⟨c, ds, rfl, hc⟩⟩ := exists_gap cs
  · rw [List.append_nil, words_of_gap hgap', words_of_gap]
    simpa using fun c hc => hc.elim (hgap c) (hgap' c)
  · rw [words_gap_cons hgap' hc, ← List.append_assoc, words_gap_cons _ hc]
    simpa using fun c hc => hc.elim (hgap c) (hgap' c)

theorem words_blank {c : Char} (hc : isBlank c = true) (cs : List Char) :
    words (c :: cs) = words cs := by
  have hgap : ∀ d ∈ [c], isBlank d = true := by simpa using hc
  exact words_gap hgap cs

/-- The lexeme at the head of a text is its first word. -/
theorem words_cons {c : Char} (hc : isBlank c = false) (cs : List Char) :
    words (c :: cs) =
      ((Lexeme.scan c cs).1.kind, (Lexeme.scan c cs).1.literal) :: words (Lexeme.scan c cs).2 := by
  have hgap : ∀ d ∈ ([] : List Char), isBlank d = true := nofun
  exact words_gap_cons hgap hc cs

theorem words_space (cs : List Char) : words (' ' :: cs) = words cs := words_blank rfl cs

/-! ## Words that end before the next character -/

theorem words_word (c : Char) (cs : List Char) {k : List Char} (hc : isNameStart c = true)
    (hcs : cs.all isNameChar = true) (hk : ∀ d ∈ k.head?, isNameChar d = false) :
    words (c :: (cs ++ k)) =
      (Lexeme.wordKind (c :: cs), String.ofList (c :: cs)) :: words k := by
  have hcs' : ∀ d ∈ cs, isNameChar d = true := List.all_eq_true.1 hcs
  have hs : Lexeme.scan c (cs ++ k) = (⟨Lexeme.wordKind (c :: cs), c :: cs⟩, k) := by
    rw [Lexeme.scan, if_pos hc]
    simp only [takeWhile_append_of_stop hcs' hk, dropWhile_append_of_stop hcs' hk]
  rw [words_cons (isBlank_eq_false_of_isNameStart hc), hs, Lexeme.literal,
    if_neg (Lexeme.wordKind_ne_string _)]

theorem words_identifier {x : String} {k : List Char} (hx : isIdentifier x = true)
    (hk : ∀ d ∈ k.head?, isNameChar d = false) :
    words (x.toList ++ k) = (.name, x) :: words k := by
  obtain ⟨c, cs, rfl, hc, hcs, hname⟩ := exists_of_isIdentifier hx
  rw [String.toList_ofList, List.cons_append, words_word c cs hc (List.all_eq_true.2 hcs) hk, hname]

theorem words_digits {cs k : List Char} (hne : cs ≠ []) (hcs : ∀ d ∈ cs, isDecimalDigit d = true)
    (hk : ∀ d ∈ k.head?, isDecimalDigit d = false) :
    words (cs ++ k) = (.int, String.ofList cs) :: words k := by
  cases cs with
  | nil => exact absurd rfl hne
  | cons c cs =>
    have hc : isDecimalDigit c = true := hcs c List.mem_cons_self
    have hcs' : ∀ d ∈ cs, isDecimalDigit d = true := fun d hd => hcs d (List.mem_cons_of_mem _ hd)
    have hs : Lexeme.scan c (cs ++ k) = (⟨.int, c :: cs⟩, k) := by
      rw [Lexeme.scan, isNameStart_eq_false_of_isDecimalDigit hc, if_neg Bool.false_ne_true,
        if_pos hc, takeWhile_append_of_stop hcs' hk, dropWhile_append_of_stop hcs' hk]
    rw [List.cons_append, words_cons (isBlank_eq_false_of_isDecimalDigit hc), hs]
    rfl

theorem words_quoted {s : String} (hs : '"' ∉ s.toList) (k : List Char) :
    words ('"' :: (s.toList ++ '"' :: k)) = (.string, s) :: words k := by
  have hq : Lexeme.scan '"' (s.toList ++ '"' :: k) =
      (⟨.string, '"' :: (s.toList ++ ['"'])⟩, k) := by
    rw [Lexeme.scan, if_neg (by decide), if_neg (by decide), if_pos rfl, Lexeme.quoted_closed hs]
  rw [words_cons rfl, hq, Lexeme.literal, if_pos rfl, List.tail_cons, List.dropLast_concat,
    String.ofList_toList]

end Lexer

end LetFn
