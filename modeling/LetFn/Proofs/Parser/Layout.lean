import LetFn.Proofs.Lexer.Layout
import LetFn.Proofs.Parser.Places

/-!
# Layout does not matter

What a text is read as depends on its words alone, so its tokens can be laid out with any blanks.

* `Program.mapError_parse_of_words`: texts of the same words come to the same program or faults.
* `Program.parse_layout`: so does a text whose tokens are laid out anew.
-/

namespace LetFn

namespace Program

/-- Texts of the same words come to the same program, or to the same faults in the same order. -/
theorem mapError_parse_of_words {text text' : String}
    (h : Lexer.words text.toList = Lexer.words text'.toList) :
    (parse text).mapError (List.map ParseError.fault) =
      (parse text').mapError (List.map ParseError.fault) := by
  rw [Lexer.words_toList, Lexer.words_toList, List.append_cancel_right_eq, eq_comm,
    ← sameWords_iff] at h
  exact mapError_ofWords h _ _

/-- A text whose strings are closed can be laid out anew, with any blanks in front of its first
token and behind its last one and with at least one between any two. It has the same words then, and
comes to the same program, or to errors of the same causes in the same order. -/
theorem parse_layout {text : String}
    (hclosed : ∀ t ∈ (Lexer.ofText text).tokens, ¬ t.IsUnclosed) {xs : List Spaced}
    (htokens : xs.map Spaced.token = (Lexer.ofText text).tokens)
    (hblank : ∀ x ∈ xs, ∀ c ∈ x.gap, isBlank c = true)
    (hapart : ∀ x ∈ xs.tail.dropLast, x.gap ≠ []) :
    let anew := String.ofList (layout xs)
    (Lexer.ofText anew).tokens.map Token.word = (Lexer.ofText text).tokens.map Token.word ∧
      (parse anew).mapError (List.map ParseError.fault) =
        (parse text).mapError (List.map ParseError.fault) := by
  intro anew
  have hwords : Lexer.words anew.toList = Lexer.words text.toList := by
    rw [String.toList_ofList]
    exact Lexer.words_layout hclosed htokens hblank hapart
  refine ⟨?_, mapError_parse_of_words hwords⟩
  rw [Lexer.tokens_map_word, Lexer.tokens_map_word, hwords]

/-- The tokens of `f("a b")!=@;!`, each on a line of its own. -/
def onLines : List Spaced :=
  (Lexer.ofText "f(\"a b\")!=@;!").tokens.map fun t => ⟨['\n', '\t'], t⟩

/-- They are read as before: no expression starts with the stray sign, nor with the end. -/
theorem parse_layout_onLines :
    (∀ t ∈ (Lexer.ofText "f(\"a b\")!=@;!").tokens, ¬ t.IsUnclosed) ∧
      onLines.map Spaced.token = (Lexer.ofText "f(\"a b\")!=@;!").tokens ∧
      (∀ x ∈ onLines, ∀ c ∈ x.gap, isBlank c = true) ∧
      (∀ x ∈ onLines.tail.dropLast, x.gap ≠ []) ∧
      String.ofList (layout onLines) = "\n\tf\n\t(\n\t\"a b\"\n\t)\n\t!=\n\t@\n\t;\n\t!\n\t" ∧
      (parse "\n\tf\n\t(\n\t\"a b\"\n\t)\n\t!=\n\t@\n\t;\n\t!\n\t").mapError
          (List.map ParseError.fault) =
        .error [.noOperand .illegal, .noOperand .eof] := by
  have hclosed : ∀ t ∈ (Lexer.ofText "f(\"a b\")!=@;!").tokens, ¬ t.IsUnclosed := by
    decide +kernel
  have htokens : onLines.map Spaced.token = (Lexer.ofText "f(\"a b\")!=@;!").tokens := by
    rw [onLines, List.map_map]
    exact List.map_id _
  have hblank : ∀ x ∈ onLines, ∀ c ∈ x.gap, isBlank c = true := by
    intro x hx
    obtain ⟨t, -, rfl⟩ := List.mem_map.1 hx
    exact List.forall_mem_cons.2 ⟨by decide, List.forall_mem_singleton.2 (by decide)⟩
  have hapart : ∀ x ∈ onLines.tail.dropLast, x.gap ≠ [] := by decide +kernel
  have htext : String.ofList (layout onLines) =
      "\n\tf\n\t(\n\t\"a b\"\n\t)\n\t!=\n\t@\n\t;\n\t!\n\t" := by
    decide +kernel
  have hsame := (parse_layout hclosed htokens hblank hapart).2
  rw [htext] at hsame
  refine ⟨hclosed, htokens, hblank, hapart, htext, hsame.trans ?_⟩
  decide +kernel

end Program

end LetFn
