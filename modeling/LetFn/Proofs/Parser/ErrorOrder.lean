import LetFn.Proofs.Lexer.Positions
import LetFn.Proofs.Parser.FirstFailure
import LetFn.Proofs.Parser.Recovery

/-!
# Errors come in order

Every text is read to its end. Reading a statement takes words from the front, and so does skipping
a broken one: what is left begins behind the offending word. So the errors of a text stand at some
of its tokens, one behind the other.

* `Reads.rest_suffix`, `Failure.rest_suffix`, `recover_tail_suffix`: a statement, a failure and the
  recovery from it leave the end of the words.
* `errors_sublist`: the places of the errors are among those of the words and of the end, in order.
* `Program.parse_ends`: a text comes to a program or to errors that stand one behind the other.
-/

namespace LetFn
open Token (Kind)

/-! ## What is left of the words -/

theorem dropSemicolon_suffix (ts : List Token) : dropSemicolon ts <:+ ts := by
  unfold dropSemicolon
  split
  · exact List.suffix_rfl
  · split
    · exact List.suffix_cons _ _
    · exact List.suffix_rfl

/-- A statement leaves the end of the words. -/
theorem Reads.rest_suffix {ts rest : List Token} {s : Stmt}
    (h : Reads (Rule.statement (Rule.expr nestingLimit) ts) s rest) : rest <:+ ts := by
  obtain ⟨after, rfl, us, rfl, -⟩ :=
    (Rule.reads_statement_iff.1 h).steady (isSteady_expr nestingLimit)
  exact (dropSemicolon_suffix after).trans (List.suffix_append us after)

/-- A broken statement fails at the end of the words from some word on. -/
theorem Failure.rest_suffix {ts : List Token} {f : Failure}
    (h : Rule.statement (Rule.expr nestingLimit) ts = .error f) : f.rest <:+ ts := by
  obtain ⟨us, -, rfl, -⟩ := (Rule.statement_eq_error_iff.1 h).stuck (isSteady_expr nestingLimit)
  exact List.suffix_append us f.rest

/-- Recovery goes on from the offending word, and the next statement begins behind it. -/
theorem recover_tail_suffix {ts rest : List Token} (h : rest <:+ ts) :
    (recover ts rest.length).tail <:+ rest.tail := by
  obtain ⟨us, rfl⟩ := h
  obtain ⟨k, hk, -⟩ := fromSemicolon_eq_drop (braceDepth 0 us) rest
  have hrecover : recover (us ++ rest) rest.length = rest.drop k := by
    rw [recover, List.length_append, Nat.add_sub_cancel, List.splitAt_eq, List.take_left,
      List.drop_left]
    exact hk
  rw [hrecover, List.tail_drop, Nat.add_comm, ← List.drop_drop, List.drop_one]
  exact List.drop_suffix k rest.tail

/-! ## Errors one behind the other -/

/-- The places of some words and of the end behind them. -/
def placesTo (stop : Position) (ts : List Token) : List Position := ts.map Token.position ++ [stop]

theorem placesTo_sublist {stop : Position} {ts us : List Token} (h : us <:+ ts) :
    (placesTo stop us).Sublist (placesTo stop ts) := (h.sublist.map _).append_right _

/-- The places of the errors are some of those of the words and of the end, in the same order. -/
theorem errors_sublist (stop : Position) (ts : List Token) :
    ((errorsOf (outcomes stop ts)).map ParseError.position).Sublist (placesTo stop ts) := by
  refine outcomes_induction (motive := fun ts read =>
    ((errorsOf read).map ParseError.position).Sublist (placesTo stop ts)) ?_ ?_ ?_ ts
  · exact List.nil_sublist _
  · intro ts s rest hreads ih
    exact ih.trans (placesTo_sublist hreads.rest_suffix)
  · intro t ts f hf behind ih
    have hrest := Failure.rest_suffix hf
    have hbehind : behind <:+ f.rest.tail := recover_tail_suffix hrest
    refine List.Sublist.trans ?_ (placesTo_sublist hrest)
    cases hcases : f.rest with
    | nil =>
      -- the text broke off, so this error is the last one
      rw [hcases, List.tail_nil, List.suffix_nil] at hbehind
      rw [hbehind, outcomes_nil, Failure.error, hcases]
      exact List.Sublist.refl _
    | cons w ws =>
      rw [hcases, List.tail_cons] at hbehind
      have hplace : (f.error stop).position = w.position := by rw [Failure.error, hcases]
      change (((f.error stop).position :: _) : List Position).Sublist _
      rw [hplace]
      exact (ih.trans (placesTo_sublist hbehind)).cons_cons _

namespace Program

/-- Every text comes to a program, or to errors. There is at least one then, each stands at a token
of the text, its end included, and they stand one behind the other, so that no token is reported
twice. -/
theorem parse_ends (text : String) :
    (∃ p, parse text = .ok p) ∨
      ∃ es, parse text = .error es ∧ es ≠ [] ∧
        (∀ e ∈ es, ∃ t ∈ (Lexer.ofText text).tokens, e.position = t.position) ∧
        (es.map ParseError.position).Pairwise (· < ·) ∧
        es.length ≤ (Lexer.ofText text).tokens.length := by
  have hne := Lexer.tokens_ofText_ne_nil text
  have hplaces : placesTo ((Lexer.ofText text).tokens.getLast hne).position
      (Lexer.ofText text).tokens.dropLast = (Lexer.ofText text).tokens.map Token.position := by
    rw [placesTo, ← List.map_singleton, ← List.map_append, List.dropLast_append_getLast]
  have hsub := errors_sublist ((Lexer.ofText text).tokens.getLast hne).position
    (Lexer.ofText text).tokens.dropLast
  rw [hplaces] at hsub
  by_cases he : errorsOf (outcomes ((Lexer.ofText text).tokens.getLast hne).position
      (Lexer.ofText text).tokens.dropLast) = []
  · exact .inl ⟨_, ofWords_eq_ok he⟩
  · refine .inr ⟨_, ofWords_eq_error he, he, fun e hmem => ?_, ?_, ?_⟩
    · have hposition := hsub.subset (List.mem_map_of_mem hmem)
      obtain ⟨t, ht, heq⟩ := List.mem_map.1 hposition
      exact ⟨t, ht, heq.symm⟩
    · exact (Lexer.pairwise_position text).sublist hsub
    · simpa only [List.length_map] using hsub.length_le

end Program

end LetFn
