import LetFn.Proofs.Lexer.Words
import LetFn.Proofs.Parser.Sentences

/-!
# The first failure of a text

The first error of a text is what its first broken statement fails at. It is noticed at a token, and
no text that is the same up to that token is a program.

* `Token.EndsOnce`: the tokens of a text, with an end token after its words;
  `Lexer.endsOnce_tokens` says that a lexer gives such.
* `Failing.Row`: what the first broken statement of some words fails at, after statements that are
  read; `Failing.Row.errorsOf_eq` says that its error is the first one.
* `Failing.Row.stuck`: only the words up to the offending one decide on it.
* `Failing.Row.ofTokens?_ne_ok`: so no tokens that agree up to the offending one are a program.
-/

namespace LetFn
open Token (Kind)

/-! ## Tokens of a text -/

/-- Words and then the end token, which stands nowhere else. -/
def Token.EndsOnce (toks : List Token) : Prop :=
  ∃ ts stop, toks = ts ++ [stop] ∧ stop.kind = .eof ∧ ∀ t ∈ ts, t.kind ≠ .eof

theorem Lexeme.wordKind_ne_eof (word : List Char) : wordKind word ≠ .eof := by
  unfold wordKind
  repeat' split
  all_goals exact nofun

theorem Lexeme.signKind_ne_eof (c : Char) : signKind c ≠ .eof := by
  unfold signKind
  split <;> exact nofun

theorem Lexeme.kind_scan_ne_eof (c : Char) (cs : List Char) : (scan c cs).1.kind ≠ .eof := by
  intro h
  unfold scan at h
  split at h
  · exact wordKind_ne_eof _ h
  split at h
  · cases h
  split at h
  · unfold quoted at h
    split at h <;> cases h
  · unfold sign at h
    split at h
    · cases h
    · cases h
    · exact signKind_ne_eof c h

/-- A lexer gives the tokens of a text. -/
theorem Lexer.endsOnce_tokens (text : String) : Token.EndsOnce (ofText text).tokens := by
  refine tokens_induction (motive := fun _ _ ts => Token.EndsOnce ts) ?_ ?_ (stands_ofText text)
  · exact fun before gap _ => ⟨[], _, rfl, rfl, nofun⟩
  · rintro before gap c cs _ - - ⟨ts, stop, rfl, hstop, hwords⟩
    refine ⟨_ :: ts, stop, rfl, hstop, ?_⟩
    exact List.forall_mem_cons.2 ⟨Lexeme.kind_scan_ne_eof c cs, hwords⟩

/-! ## The first broken statement -/

namespace Failing
variable {sub : Nat → Rule Expr} {ts : List Token} {f : Failure}

/-- What the first broken statement of some words fails at, after statements that are read. -/
inductive Row (sub : Nat → Rule Expr) : List Token → Failure → Prop
  | first {t : Token} {ts : List Token} {f : Failure} :
      Statement sub (t :: ts) f → Row sub (t :: ts) f
  | step {ts mid : List Token} {s : Stmt} {f : Failure} :
      Reading.Statement sub ts s mid → Row sub mid f → Row sub ts f

/-- Statements do not come to a closing brace because the words end, or because one is broken. -/
theorem Statements.row (h : Statements sub ts f) :
    (f = missing .rightBrace [] ∧ ∃ b, Reading.Row sub ts b []) ∨ Row sub ts f := by
  induction h with
  | stop => exact .inl ⟨rfl, [], .nil⟩
  | first _ hf => exact .inr (.first hf)
  | step _ hs _ ih =>
    rcases ih with ⟨rfl, b, hrow⟩ | hrow
    · exact .inl ⟨rfl, _, .cons hs hrow⟩
    · exact .inr (.step hs hrow)

/-- Only the words up to the offending one decide on the first failure. -/
theorem Row.stuck (hsub : IsSteady sub) (h : Row sub ts f) : Stuck 1 (Row sub) ts f := by
  induction h with
  | first hf =>
    refine (hf.stuck hsub).succ.imp ?_
    rintro ts' _ hne - hf
    obtain ⟨_, _, rfl⟩ := List.exists_cons_of_ne_nil hne
    exact .first hf
  | step hs _ ih =>
    refine ((hs.steady_inside hsub).thenStuck ih).imp ?_
    rintro _ _ - - ⟨_, hs, hf⟩
    exact .step hs hf

/-- The error of the first broken statement is the first of the text. -/
theorem Row.errorsOf_eq (h : Row (Rule.expr nestingLimit) ts f) (stop : Position) :
    ∃ es, errorsOf (outcomes stop ts) = f.error stop :: es := by
  induction h with
  | first hf =>
    rw [outcomes_of_error (Rule.statement_eq_error_iff.2 hf)]
    exact ⟨_, rfl⟩
  | step hs _ ih =>
    rw [outcomes_of_reads (Rule.reads_statement_iff.2 hs)]
    exact ih

/-- Words with an error have a first broken statement. -/
theorem exists_row_of_errorsOf {stop : Position} {ts : List Token} :
    errorsOf (outcomes stop ts) ≠ [] → ∃ f, Row (Rule.expr nestingLimit) ts f := by
  refine outcomes_induction (motive := fun ts read =>
    errorsOf read ≠ [] → ∃ f, Row (Rule.expr nestingLimit) ts f) ?_ ?_ ?_ ts
  · exact fun h => absurd rfl h
  · intro ts s rest hs ih h
    obtain ⟨f, hrow⟩ := ih h
    exact ⟨f, .step (Rule.reads_statement_iff.1 hs) hrow⟩
  · intro t ts f hf _ _ _
    exact ⟨f, .first (Rule.statement_eq_error_iff.1 hf)⟩

end Failing

/-! ## Earliest errors -/

namespace Program

/-- The words of a rejected text have a first failure, whose error is the first that is reported. -/
theorem exists_row_of_ofWords {ts : List Token} {stop : Position} {es : List ParseError}
    (h : ofWords ts stop = .error es) :
    ∃ f, Failing.Row (Rule.expr nestingLimit) ts f ∧ es.head? = some (f.error stop) := by
  have hne : errorsOf (outcomes stop ts) ≠ [] := by
    intro hnil
    rw [ofWords_eq_ok hnil] at h
    cases h
  obtain ⟨f, hrow⟩ := Failing.exists_row_of_errorsOf hne
  refine ⟨f, hrow, ?_⟩
  rw [ofWords_eq_error hne, Except.error.injEq] at h
  obtain ⟨fs, hfs⟩ := hrow.errorsOf_eq stop
  rw [← h, hfs]
  rfl

theorem ofWords_ne_ok_of_row {ts : List Token} {f : Failure}
    (h : Failing.Row (Rule.expr nestingLimit) ts f) (stop : Position) (p : Program) :
    ofWords ts stop ≠ .ok p := by
  obtain ⟨es, hes⟩ := h.errorsOf_eq stop
  rw [ofWords_eq_error (by rw [hes]; exact List.cons_ne_nil _ _)]
  exact nofun

end Program

/-- Tokens that agree with a rejected text up to the offending token are rejected. -/
theorem Failing.Row.ofTokens?_ne_ok {us toks : List Token} {stop t : Token} {f : Failure}
    (h : Row (Rule.expr nestingLimit) (us ++ f.rest) f) (hstop : stop.kind = .eof)
    (hwords : ∀ w ∈ us ++ f.rest, w.kind ≠ .eof) (ht : us ++ [t] <+: us ++ f.rest ++ [stop])
    (htoks : Token.EndsOnce toks) (hagree : us ++ [t] <+: toks) (p : Program) :
    Program.ofTokens? toks ≠ some (.ok p) := by
  obtain ⟨ts, last, rfl, hlast, hts⟩ := htoks
  rw [Program.ofTokens?_concat, Ne, Option.some.injEq]
  rw [List.append_assoc, List.prefix_append_right_inj] at ht
  cases hrest : f.rest with
  | nil =>
    -- the text broke off: the other tokens end there as well
    rw [hrest] at ht
    obtain rfl : t = stop := List.cons_prefix_cons.1 ht |>.1
    rcases List.prefix_concat_iff.1 hagree with heq | hpre
    · obtain ⟨rfl, -⟩ := List.append_inj' heq rfl
      rw [hrest, List.append_nil] at h
      exact Program.ofWords_ne_ok_of_row h _ p
    · exact absurd hstop (hts t (hpre.subset (List.mem_append_right us List.mem_cons_self)))
  | cons w ws =>
    rw [hrest] at ht
    obtain rfl : t = w := List.cons_prefix_cons.1 ht |>.1
    rcases List.prefix_concat_iff.1 hagree with heq | ⟨vs, rfl⟩
    · obtain ⟨-, heq⟩ := List.append_inj' heq rfl
      obtain rfl := List.head_eq_of_cons_eq heq
      exact absurd hlast (hwords t (by simp [hrest]))
    · obtain ⟨us', e, heq, -, hfails⟩ := h.stuck (isSteady_expr nestingLimit)
      obtain rfl := List.append_cancel_right heq
      have hrow := hfails t (by rw [hrest]; rfl) vs
      rw [List.append_assoc]
      exact Program.ofWords_ne_ok_of_row hrow _ p

end LetFn
