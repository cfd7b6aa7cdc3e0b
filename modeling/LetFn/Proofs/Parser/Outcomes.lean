import LetFn.Program.Recovery
import LetFn.Proofs.Parser.Reads

/-!
# What the statements of a text come to

`outcomes` statement by statement, and the texts that come to a program.

* `outcomes_of_reads`, `outcomes_of_error`: the outcome of the first statement, and those of the
  words after it.
* `outcomes_induction`: what the words after each statement hand on holds of all the words.
* `Program.ofWords_eq_ok_iff`: words come to a program if they are its statements in a row.
* `Program.ofWords_eq_error`: else the errors of the statements are all reported, in order.
-/

namespace LetFn

/-! ## Outcomes one by one -/

theorem outcomesAfter_eq (stop : Position) (done : List (Except ParseError Stmt))
    (ts : List Token) : outcomesAfter stop done ts = done.reverse ++ outcomes stop ts := by
  have key : ∀ n (ts : List Token), ts.length ≤ n → ∀ done more,
      outcomesAfter stop (done ++ more) ts = more.reverse ++ outcomesAfter stop done ts := by
    intro n
    induction n with
    | zero =>
      intro ts hts done more
      rw [List.length_eq_zero_iff.1 (Nat.le_zero.1 hts), outcomesAfter, outcomesAfter,
        List.reverse_append]
    | succ n ih =>
      intro ts hts done more
      cases ts with
      | nil => rw [outcomesAfter, outcomesAfter, List.reverse_append]
      | cons t rest =>
        conv => lhs; rw [outcomesAfter.eq_def]
        conv => rhs; rw [outcomesAfter.eq_def]
        dsimp only
        split
        · next s after hlt _ =>
          rw [List.length_cons] at hts hlt
          exact ih after (by omega) (.ok s :: done) more
        · next f _ =>
          have hle := recover_length_le (t :: rest) f.rest.length
          rw [List.length_cons] at hts hle
          refine ih _ ?_ (.error (f.error stop) :: done) more
          rw [List.length_tail]
          omega
  have h := key ts.length ts (Nat.le_refl _) [] done
  rwa [List.nil_append] at h

theorem outcomes_nil (stop : Position) : outcomes stop [] = [] := by
  rw [outcomes, outcomesAfter]
  rfl

/-- A statement that is read comes first, the words after it are read next. -/
theorem outcomes_of_reads {stop : Position} {ts rest : List Token} {s : Stmt}
    (h : Reads (Rule.statement (Rule.expr nestingLimit) ts) s rest) :
    outcomes stop ts = .ok s :: outcomes stop rest := by
  obtain ⟨hlt, h⟩ := h
  cases ts with
  | nil => exact absurd hlt (Nat.not_lt_zero _)
  | cons t ts =>
    rw [outcomes, outcomesAfter]
    split
    · next s' rest' hlt' h' =>
      rw [h, Except.ok.injEq, Parsed.mk.injEq] at h'
      rw [← h'.1, ← h'.2, outcomesAfter_eq]
      rfl
    · next f h' => rw [h] at h'; cases h'

/-- A statement that fails is reported, the words after the end of it are read next. -/
theorem outcomes_of_error {stop : Position} {t : Token} {ts : List Token} {f : Failure}
    (h : Rule.statement (Rule.expr nestingLimit) (t :: ts) = .error f) :
    outcomes stop (t :: ts) =
      .error (f.error stop) :: outcomes stop (recover (t :: ts) f.rest.length).tail := by
  rw [outcomes, outcomesAfter]
  split
  · next h' => rw [h] at h'; cases h'
  · next f' h' =>
    rw [h, Except.error.injEq] at h'
    rw [← h', outcomesAfter_eq]
    rfl

/-- A row of statements comes to those statements, and then to what the words after it do. -/
theorem outcomes_of_row {stop : Position} {ts rest : List Token} {ss : Block}
    (h : Reading.Row (Rule.expr nestingLimit) ts ss rest) :
    outcomes stop ts = ss.map .ok ++ outcomes stop rest := by
  induction h with
  | nil => rfl
  | cons hs _ ih => rw [outcomes_of_reads (Rule.reads_statement_iff.2 hs), ih, List.map_cons,
      List.cons_append]

/-- Induction along the statements of some words, those that are read and those that fail. -/
theorem outcomes_induction {stop : Position}
    {motive : List Token → List (Except ParseError Stmt) → Prop} (nil : motive [] [])
    (read : ∀ ts s rest, Reads (Rule.statement (Rule.expr nestingLimit) ts) s rest →
      motive rest (outcomes stop rest) → motive ts (.ok s :: outcomes stop rest))
    (broken : ∀ t ts f, Rule.statement (Rule.expr nestingLimit) (t :: ts) = .error f →
      let behind := (recover (t :: ts) f.rest.length).tail
      motive behind (outcomes stop behind) →
        motive (t :: ts) (.error (f.error stop) :: outcomes stop behind))
    (ts : List Token) : motive ts (outcomes stop ts) := by
  induction hn : ts.length using Nat.strongRecOn generalizing ts with
  | ind n ih =>
    cases ts with
    | nil =>
      rw [outcomes_nil]
      exact nil
    | cons t ts =>
      cases hs : Rule.statement (Rule.expr nestingLimit) (t :: ts) with
      | ok p =>
        have hreads : Reads (Rule.statement (Rule.expr nestingLimit) (t :: ts)) p.value p.rest :=
          ⟨p.rest_lt, hs⟩
        rw [outcomes_of_reads hreads]
        exact read _ _ _ hreads (ih _ (hn ▸ hreads.length_lt) _ rfl)
      | error f =>
        have hle := recover_length_le (t :: ts) f.rest.length
        rw [List.length_cons] at hn hle
        rw [outcomes_of_error hs]
        exact broken _ _ _ hs (ih _ (by rw [List.length_tail]; omega) _ rfl)

/-! ## Programs and errors -/

/-- The errors among some outcomes. -/
def errorsOf (read : List (Except ParseError Stmt)) : List ParseError :=
  read.filterMap fun | .error e => some e | .ok _ => none

theorem errorsOf_ok_append (ss : Block) (read : List (Except ParseError Stmt)) :
    errorsOf (ss.map .ok ++ read) = errorsOf read := by
  induction ss with
  | nil => rfl
  | cons s ss ih => exact ih

/-- Words without an error are a row of statements. -/
theorem row_of_errorsOf_eq_nil {stop : Position} {ts : List Token} :
    errorsOf (outcomes stop ts) = [] → ∃ ss, Reading.Row (Rule.expr nestingLimit) ts ss [] := by
  refine outcomes_induction (motive := fun ts read =>
    errorsOf read = [] → ∃ ss, Reading.Row (Rule.expr nestingLimit) ts ss []) ?_ ?_ ?_ ts
  · exact fun _ => ⟨[], .nil⟩
  · intro ts s rest hs ih h
    obtain ⟨ss, hrow⟩ := ih h
    exact ⟨s :: ss, .cons (Rule.reads_statement_iff.1 hs) hrow⟩
  · intro t ts f _ behind _ h
    cases h

namespace Program

theorem ofWords_eq_ok {ts : List Token} {stop : Position} (h : errorsOf (outcomes stop ts) = []) :
    ofWords ts stop = .ok ⟨(outcomes stop ts).filterMap Except.toOption⟩ := by
  unfold errorsOf at h
  rw [ofWords]
  split
  · rfl
  · next hne => exact absurd h hne

theorem ofWords_eq_error {ts : List Token} {stop : Position}
    (h : errorsOf (outcomes stop ts) ≠ []) :
    ofWords ts stop = .error (errorsOf (outcomes stop ts)) := by
  unfold errorsOf at h
  rw [ofWords]
  split
  · next he => exact absurd he h
  · rfl

theorem ofWords_of_row {ts : List Token} {stop : Position} {ss : Block}
    (h : Reading.Row (Rule.expr nestingLimit) ts ss []) : ofWords ts stop = .ok ⟨ss⟩ := by
  have ho : outcomes stop ts = ss.map .ok := by
    rw [outcomes_of_row h, outcomes_nil, List.append_nil]
  have he : errorsOf (outcomes stop ts) = [] := by
    rw [outcomes_of_row h, errorsOf_ok_append, outcomes_nil]
    rfl
  rw [ofWords_eq_ok he, ho, List.filterMap_map]
  exact congrArg _ (congrArg _ List.filterMap_some)

/-- Words come to the program whose statements they are, one after the other. -/
theorem ofWords_eq_ok_iff {ts : List Token} {stop : Position} {p : Program} :
    ofWords ts stop = .ok p ↔ Reading.Row (Rule.expr nestingLimit) ts p.statements [] := by
  constructor
  · intro h
    have he : errorsOf (outcomes stop ts) = [] := Classical.byContradiction fun hne => by
      rw [ofWords_eq_error hne] at h
      cases h
    obtain ⟨ss, hrow⟩ := row_of_errorsOf_eq_nil he
    rw [ofWords_of_row hrow, Except.ok.injEq] at h
    rwa [← h]
  · exact ofWords_of_row

end Program

end LetFn
