import LetFn.Proofs.Grammar.Complete
import LetFn.Proofs.Parser.Outcomes

/-!
# The parser accepts exactly the grammar

Reading and deriving come to the same, for expressions, for rows of statements and for whole texts.

* `reads_expr_iff_expression`: an expression is read if the words taken derive it and nothing
  tighter than the floor comes next.
* `row_iff_statements`: the same for all the statements of a text.
* `Program.ofTokens?_eq_ok_iff_derives`: a text comes to a program if its words derive that program
  within the limit of nesting.
-/

namespace LetFn
open Token (Kind)
open Grammar

theorem reads_expr_iff_expression {n floor : Nat} {us rest : List Token} {e : Expr}
    (hfloor : floor ≤ 5) (hrest : Ends floor rest) :
    Reads (Rule.expr n floor (us ++ rest)) e rest ↔ Expression n (tiers.drop floor) us e := by
  constructor
  · intro h
    obtain ⟨-, vs, hvs, hd, -⟩ := sound_expr n h
    rwa [List.append_cancel_right hvs]
  · intro h
    exact complete_expr n hfloor h hrest

theorem row_iff_statements {n : Nat} {ts : List Token} {b : Block} :
    Reading.Row (Rule.expr n) ts b [] ↔ Statements (Expression n) ts b := by
  constructor
  · intro h
    obtain ⟨us, hts, hd, -⟩ := h.sound (sound_expr n)
    rw [List.append_nil] at hts
    rwa [hts]
  · intro h
    have hrow := h.reads (sound_expr n) (complete_expr n) (ends_nil 0) (by decide)
    rwa [List.append_nil] at hrow

/-- A text comes to a program exactly if its words, the end token apart, derive that program
nested no deeper than the limit. -/
theorem Program.ofTokens?_eq_ok_iff_derives (ts : List Token) (stop : Token) (p : Program) :
    Program.ofTokens? (ts ++ [stop]) = some (.ok p) ↔ Derives nestingLimit ts p := by
  rw [Program.ofTokens?, List.getLast?_concat, Option.map_some, List.dropLast_concat,
    Option.some.injEq, Program.ofWords_eq_ok_iff, row_iff_statements, Derives]

end LetFn
