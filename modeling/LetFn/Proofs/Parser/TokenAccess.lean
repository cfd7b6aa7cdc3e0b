import LetFn.Proofs.Lexer.Run
import LetFn.Proofs.Parser.ErrorOrder

/-!
# Reading tokens by index

The rules take words from the front of what is left. Seen from all tokens of a lexer, they stand at
an index and read the token there and the one behind it, the last token standing for all that would
come after it. So nothing is read from outside, unless there are no tokens at all: a lexer that has
given its end token leaves none.

* `tokenAt?`: the token read at an index; `tokenAt?_concat` says that it is the one the rules see.
* `Reached`: what is left when a statement begins; by `Reached.suffix` it is the end of the words.
* `Token.InBounds`: all that is read of some tokens lies among them; `Token.EndsOnce.inBounds` says
  that words with an end token are read in this way.
* `Program.ofTokens?_skip`: a lexer that tokens were taken from is parsed exactly if some are left.
-/

namespace LetFn
open Token (Kind)

/-! ## Tokens by index -/

/-- The token that is read at an index: from the last one on it is the last one. -/
def tokenAt? (toks : List Token) (i : Nat) : Option Token := toks[min i (toks.length - 1)]?

/-- Only where there are no tokens, none is read. -/
theorem tokenAt?_eq_none_iff {toks : List Token} {i : Nat} : tokenAt? toks i = none ↔ toks = [] := by
  rw [tokenAt?, List.getElem?_eq_none_iff, ← List.length_eq_zero_iff]
  omega

/-- The token at an index is of the class that the rules see at the head of what is left. -/
theorem tokenAt?_concat {ts : List Token} {stop : Token} (hstop : stop.kind = .eof) (i : Nat) :
    ∃ t, tokenAt? (ts ++ [stop]) i = some t ∧ t.kind = nextKind (ts.drop i) := by
  rw [tokenAt?, List.length_append, List.length_singleton, Nat.add_sub_cancel]
  by_cases hi : i < ts.length
  · rw [Nat.min_eq_left hi.le, List.getElem?_append_left hi, List.drop_eq_getElem_cons hi]
    exact ⟨ts[i], List.getElem?_eq_getElem hi, rfl⟩
  · rw [Nat.not_lt] at hi
    rw [Nat.min_eq_right hi, List.drop_eq_nil_of_le hi]
    exact ⟨stop, List.getElem?_concat_length, hstop⟩

/-- What is left of words behind an index stands at a later one. -/
theorem exists_drop_of_suffix {ts rest : List Token} {i : Nat} (hi : i ≤ ts.length)
    (h : rest <:+ ts.drop i) : ∃ j, i ≤ j ∧ j ≤ ts.length ∧ rest = ts.drop j := by
  obtain ⟨us, hus⟩ := h
  have hlen := congrArg List.length hus
  rw [List.length_append, List.length_drop] at hlen
  refine ⟨i + us.length, Nat.le_add_right _ _, by omega, ?_⟩
  rw [← List.drop_drop, ← hus, List.drop_left]

/-! ## Where statements begin -/

/-- What is left of some words when a statement begins. -/
inductive Reached (ts : List Token) : List Token → Prop
  | start : Reached ts ts
  | read {us rest : List Token} {s : Stmt} :
      Reached ts us → Reads (Rule.statement (Rule.expr nestingLimit) us) s rest → Reached ts rest
  | broken {us : List Token} {f : Failure} :
      Reached ts us → Rule.statement (Rule.expr nestingLimit) us = .error f →
      Reached ts (recover us f.rest.length).tail

theorem Reached.suffix {ts us : List Token} (h : Reached ts us) : us <:+ ts := by
  induction h with
  | start => exact List.suffix_rfl
  | read _ hs ih => exact hs.rest_suffix.trans ih
  | broken _ hf ih =>
    have hrest := Failure.rest_suffix hf
    exact (recover_tail_suffix hrest).trans ((List.tail_suffix _).trans (hrest.trans ih))

/-! ## Reading in bounds -/

/-- All that is read of some tokens by index lies among them. -/
structure Token.InBounds (toks : List Token) : Prop where
  /-- There is an end token, the last one, and no other. -/
  endsOnce : Token.EndsOnce toks
  /-- Wherever the parser stands, the token that it reads is there. -/
  read : ∀ i, ∃ t, tokenAt? toks i = some t ∧ t.kind = nextKind (toks.dropLast.drop i)
  /-- A statement begins at the index of a token. -/
  begins : ∀ us, Reached toks.dropLast us → ∃ i < toks.length, us = toks.dropLast.drop i
  /-- A broken statement fails at the index of a token, and recovery counts the slice of the tokens
  from where it began. -/
  broken : ∀ us f, Reached toks.dropLast us →
    Rule.statement (Rule.expr nestingLimit) us = .error f →
    ∃ i j, i ≤ j ∧ j < toks.length ∧ us = toks.dropLast.drop i ∧ f.rest = toks.dropLast.drop j ∧
      ((toks.drop i).take (j - i)).length = j - i ∧
      recover us f.rest.length = fromSemicolon (braceDepth 0 ((toks.drop i).take (j - i))) f.rest
  /-- An expression that begins at the index of a token ends at one, or fails at one. -/
  inside : ∀ levels floor i, i < toks.length →
    (∀ e rest, Reads (Rule.expr levels floor (toks.dropLast.drop i)) e rest →
      ∃ j, i ≤ j ∧ j < toks.length ∧ rest = toks.dropLast.drop j) ∧
    ∀ f, Rule.expr levels floor (toks.dropLast.drop i) = .error f →
      ∃ j, i ≤ j ∧ j < toks.length ∧ f.rest = toks.dropLast.drop j

/-- Words with an end token are read in bounds. -/
theorem Token.EndsOnce.inBounds {toks : List Token} (h : Token.EndsOnce toks) :
    Token.InBounds toks := by
  obtain ⟨ts, stop, rfl, hstop, -⟩ := id h
  have hlt : ∀ j, j < (ts ++ [stop]).length ↔ j ≤ ts.length := fun j => by
    rw [List.length_append, List.length_singleton, Nat.lt_succ_iff]
  have hbegins : ∀ us, Reached ts us → ∃ i ≤ ts.length, us = ts.drop i := fun us hus =>
    have ⟨i, _, hi, heq⟩ := exists_drop_of_suffix (Nat.zero_le _) hus.suffix
    ⟨i, hi, heq⟩
  refine ⟨h, ?_, ?_, ?_, ?_⟩ <;> simp only [List.dropLast_concat, hlt]
  · exact tokenAt?_concat hstop
  · exact hbegins
  · intro us f hus hf
    obtain ⟨i, hi, rfl⟩ := hbegins us hus
    obtain ⟨j, hij, hj, hrest⟩ := exists_drop_of_suffix hi (Failure.rest_suffix hf)
    have hslice : ((ts ++ [stop]).drop i).take (j - i) = (ts.drop i).take (j - i) := by
      rw [List.drop_append_of_le_length hi, List.take_append_of_le_length]
      rw [List.length_drop]
      omega
    refine ⟨i, j, hij, hj, rfl, hrest, ?_, ?_⟩
    · rw [hslice, List.length_take, List.length_drop]
      omega
    · have hleft : (ts.drop i).length - f.rest.length = j - i := by
        rw [hrest, List.length_drop, List.length_drop]
        omega
      have hahead : (ts.drop i).drop (j - i) = f.rest := by
        rw [List.drop_drop, Nat.add_sub_cancel' hij, hrest]
      rw [hslice, recover, hleft, List.splitAt_eq, hahead]
  · intro levels floor i hi
    constructor
    · intro e rest he
      obtain ⟨us, hus, -⟩ := (isSteady_expr levels).reads he
      rw [List.dropLast_concat] at hus
      exact exists_drop_of_suffix hi ⟨us, hus.symm⟩
    · intro f hf
      obtain ⟨us, _, hus, -⟩ := (isSteady_expr levels).fails hf
      rw [List.dropLast_concat] at hus
      exact exists_drop_of_suffix hi ⟨us, hus.symm⟩

theorem Token.EndsOnce.drop {toks : List Token} (h : Token.EndsOnce toks) {n : Nat}
    (hn : n < toks.length) : Token.EndsOnce (toks.drop n) := by
  obtain ⟨ts, stop, rfl, hstop, hwords⟩ := h
  rw [List.length_append, List.length_singleton, Nat.lt_succ_iff] at hn
  refine ⟨ts.drop n, stop, List.drop_append_of_le_length hn, hstop, fun t ht => ?_⟩
  exact hwords t (List.mem_of_mem_drop ht)

/-! ## Parsing what a lexer has left -/

namespace Program

theorem ofTokens?_eq_none_iff {toks : List Token} : ofTokens? toks = none ↔ toks = [] := by
  rw [ofTokens?, Option.map_eq_none_iff, List.getLast?_eq_none_iff]

/-- A text that is rejected is rejected for some error. -/
theorem ofWords_ne_error_nil (ts : List Token) (stop : Position) : ofWords ts stop ≠ .error [] := by
  by_cases h : errorsOf (outcomes stop ts) = []
  · rw [ofWords_eq_ok h]
    exact nofun
  · rw [ofWords_eq_error h]
    exact fun heq => h (Except.error.inj heq)

/-- A lexer that some tokens were taken from is parsed, to a program or to some errors and with all
reads in bounds, exactly if it has not given its end token. Else no parse gets to a result. -/
theorem ofTokens?_skip (text : String) (n : Nat) :
    (n < (Lexer.ofText text).tokens.length ↔
      Token.InBounds ((Lexer.ofText text).skip n).tokens ∧
        ∃ r, ofTokens? ((Lexer.ofText text).skip n).tokens = some r ∧ r ≠ .error []) ∧
    ((Lexer.ofText text).tokens.length ≤ n ↔
      ofTokens? ((Lexer.ofText text).skip n).tokens = none) := by
  have hnone : (Lexer.ofText text).tokens.length ≤ n ↔
      ofTokens? ((Lexer.ofText text).skip n).tokens = none := by
    rw [ofTokens?_eq_none_iff, Lexer.tokens_skip, List.drop_eq_nil_iff]
  refine ⟨⟨fun hn => ?_, fun ⟨_, r, hr, _⟩ => ?_⟩, hnone⟩
  · have hends := (Lexer.endsOnce_tokens text).drop hn
    rw [← Lexer.tokens_skip] at hends
    obtain ⟨ts, stop, hts, -⟩ := id hends
    refine ⟨hends.inBounds, ofWords ts stop.position, ?_, ofWords_ne_error_nil _ _⟩
    rw [hts, ofTokens?_concat]
  · by_contra hn
    rw [hnone.1 (Nat.le_of_not_lt hn)] at hr
    cases hr

/-- The empty text has one token. A parser on its lexer behind that token has none to read. -/
theorem ofTokens?_exhausted :
    ((Lexer.ofText "").skip 1).tokens = [] ∧
      (∀ i, tokenAt? ((Lexer.ofText "").skip 1).tokens i = none) ∧
      ofTokens? ((Lexer.ofText "").skip 1).tokens = none := by
  have htokens : ((Lexer.ofText "").skip 1).tokens = [] := by decide +kernel
  exact ⟨htokens, fun i => tokenAt?_eq_none_iff.2 htokens, ofTokens?_eq_none_iff.2 htokens⟩

end Program

end LetFn
