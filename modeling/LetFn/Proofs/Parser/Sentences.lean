import LetFn.Proofs.Parser.Lookahead
import LetFn.Proofs.Parser.Outcomes
import Mathlib.Data.List.Forall2

/-!
# Sentences are read on their own

A sentence is a piece of text that a semicolon ends, the only one outside of braces. Whatever it
comes to, reading goes on after that semicolon, and nothing of it is left behind.

* `IsSentence`: the words of a sentence.
* `recover_of_depthAfter?`: from any failure inside a sentence, recovery comes to its end.
* `exists_outcomes`: a sentence comes to the same outcomes in front of any words, one of them at
  most an error.
* `Program.inTurn`: what several texts come to, one after the other; `Program.ofTokens?_flatten`
  says that sentences in a row come to it.
-/

namespace LetFn
open Token (Kind)

/-- Words whose braces match and that a semicolon ends, the only one outside of braces. -/
def IsSentence (ts : List Token) : Prop :=
  ∃ us semi, ts = us ++ [semi] ∧ semi.kind = .semicolon ∧ depthAfter? 0 us = some 0

/-! ## Words inside a sentence -/

section
variable {us ws rest more : List Token} {semi : Token} {d e : Nat}

/-- Well placed words of a text stand before the end of its first sentence. -/
theorem exists_of_depthAfter? (hsemi : semi.kind = .semicolon) (hus : depthAfter? 0 us = some 0)
    (hws : depthAfter? 0 ws = some e) (h : us ++ semi :: more = ws ++ rest) :
    ∃ xs, us = ws ++ xs ∧ rest = xs ++ semi :: more ∧ depthAfter? e xs = some 0 := by
  obtain ⟨xs, rfl, hrest⟩ | ⟨xs, rfl, rfl⟩ := List.append_eq_append_iff.1 h
  · cases xs with
    | nil =>
      rw [List.append_nil, hus, Option.some.injEq] at hws
      exact ⟨[], by rw [List.append_nil, List.append_nil], hrest.symm, by rw [← hws]; rfl⟩
    | cons x xs =>
      obtain ⟨rfl, -⟩ := List.cons.inj hrest
      rw [depthAfter?_append, hus, Option.bind_some, depthAfter?, hsemi] at hws
      cases hws
  · rw [depthAfter?_append, hws] at hus
    exact ⟨xs, rfl, rfl, hus⟩

theorem braceDepth_of_depthAfter? (h : depthAfter? d us = some e) : braceDepth d us = e := by
  induction us generalizing d with
  | nil => exact congrArg _ (Option.some.inj h)
  | cons t us ih =>
    rw [depthAfter?, Option.bind_eq_some_iff] at h
    obtain ⟨c, hc, h⟩ := h
    rw [braceDepth, ← ih h]
    obtain ⟨hk, rfl⟩ | ⟨hk, rfl⟩ | ⟨hk, -, rfl⟩ | ⟨hl, hr, -, rfl⟩ :=
      Token.Kind.depthAfter?_cases hc
    · simp only [hk, Int.natCast_add, Int.cast_ofNat_Int]
    · simp only [hk, Int.natCast_add, Int.cast_ofNat_Int, Int.add_sub_cancel]
    · simp only [hk]
    · split <;> first | rfl | contradiction

theorem fromSemicolon_of_depthAfter? (hsemi : semi.kind = .semicolon)
    (h : depthAfter? d us = some 0) :
    fromSemicolon d (us ++ semi :: more) = semi :: more := by
  induction us generalizing d with
  | nil =>
    obtain rfl := Option.some.inj h
    rw [List.nil_append, fromSemicolon, hsemi]
    exact if_pos (Int.le_refl 0)
  | cons t us ih =>
    rw [depthAfter?, Option.bind_eq_some_iff] at h
    obtain ⟨c, hc, h⟩ := h
    refine Eq.trans ?_ (ih h)
    rw [List.cons_append, fromSemicolon]
    obtain ⟨hk, rfl⟩ | ⟨hk, rfl⟩ | ⟨hk, hd, rfl⟩ | ⟨hl, hr, hs, rfl⟩ :=
      Token.Kind.depthAfter?_cases hc
    · simp only [hk, Int.natCast_add, Int.cast_ofNat_Int]
    · simp only [hk, Int.natCast_add, Int.cast_ofNat_Int, Int.add_sub_cancel]
    · simp only [hk, Int.natCast_nonpos_iff, Nat.pos_iff_ne_zero.1 hd, if_false]
    · split <;> first | rfl | contradiction

/-- From a failure inside a sentence, recovery comes to its semicolon. -/
theorem recover_of_depthAfter? (hsemi : semi.kind = .semicolon)
    (hus : depthAfter? 0 us = some e) (hws : depthAfter? e ws = some 0) :
    recover (us ++ (ws ++ semi :: more)) (ws ++ semi :: more).length = semi :: more := by
  have hlen : (us ++ (ws ++ semi :: more)).length - (ws ++ semi :: more).length = us.length := by
    rw [List.length_append, Nat.add_sub_cancel]
  rw [recover, hlen, List.splitAt_eq, List.take_left, List.drop_left]
  dsimp only
  rw [← Int.natCast_zero, braceDepth_of_depthAfter? hus, fromSemicolon_of_depthAfter? hsemi hws]

end

/-! ## What a sentence comes to -/

theorem exists_head?_append_semi (xs : List Token) (semi : Token) :
    ∃ t, (xs ++ [semi]).head? = some t ∧ ∀ more, ∃ vs, xs ++ semi :: more = t :: vs := by
  cases xs with
  | nil => exact ⟨semi, rfl, fun more => ⟨more, rfl⟩⟩
  | cons x xs => exact ⟨x, rfl, fun more => ⟨xs ++ semi :: more, rfl⟩⟩

section
variable {semi : Token} (hsemi : semi.kind = .semicolon) {us : List Token}
  (hus : depthAfter? 0 us = some 0)
include hsemi hus

/-- A statement that a sentence starts with ends in the sentence, or with it. -/
theorem exists_of_reads_statement {s : Stmt} {rest : List Token}
    (h : Reads (Rule.statement (Rule.expr nestingLimit) (us ++ [semi])) s rest) :
    (∀ more, Reads (Rule.statement (Rule.expr nestingLimit) (us ++ semi :: more)) s more) ∨
      ∃ xs, xs.length < us.length ∧ depthAfter? 0 xs = some 0 ∧
        ∀ more, Reads (Rule.statement (Rule.expr nestingLimit) (us ++ semi :: more)) s
          (xs ++ semi :: more) := by
  obtain ⟨after, -, ws, hts, hws, hreads⟩ :=
    (Rule.reads_statement_iff.1 h).steady (isSteady_expr nestingLimit)
  -- the words that it takes are well placed, so they end before the semicolon
  obtain ⟨xs, rfl, rfl, hxs⟩ := exists_of_depthAfter? hsemi hus hws hts
  obtain ⟨t, ht, hmore⟩ := exists_head?_append_semi xs semi
  have hall : ∀ more, Reads (Rule.statement (Rule.expr nestingLimit) (ws ++ xs ++ semi :: more)) s
      (dropSemicolon (xs ++ semi :: more)) := by
    intro more
    obtain ⟨vs, hvs⟩ := hmore more
    rw [List.append_assoc, hvs]
    exact Rule.reads_statement_iff.2 (hreads t ht vs)
  cases xs with
  | nil =>
    refine .inl fun more => ?_
    have hr := hall more
    rwa [List.nil_append, dropSemicolon, if_pos hsemi] at hr
  | cons x xs =>
    have hx : ∀ more, nextKind (x :: xs ++ semi :: more) ≠ .semicolon := by
      intro more hx
      change x.kind = .semicolon at hx
      rw [depthAfter?, hx] at hxs
      cases hxs
    refine .inr ⟨x :: xs, ?_, hxs, fun more => ?_⟩
    · have hlt := (hall []).length_lt
      rw [dropSemicolon_of_ne (hx [])] at hlt
      simp only [List.length_append] at hlt ⊢
      omega
    · have hr := hall more
      rwa [dropSemicolon_of_ne (hx more)] at hr

/-- A sentence that fails is reported once, and skipped. -/
theorem exists_of_statement_eq_error {f : Failure}
    (h : Rule.statement (Rule.expr nestingLimit) (us ++ [semi]) = .error f) :
    ∃ e, ∀ stop more, outcomes stop (us ++ semi :: more) = .error e :: outcomes stop more := by
  obtain ⟨ws, d, hts, hws, hfails⟩ :=
    (Rule.statement_eq_error_iff.1 h).stuck (isSteady_expr nestingLimit)
  obtain ⟨xs, rfl, hrest, hxs⟩ := exists_of_depthAfter? hsemi hus hws hts
  obtain ⟨t, ht, hmore⟩ := exists_head?_append_semi xs semi
  refine ⟨⟨f.fault, t.position⟩, fun stop more => ?_⟩
  obtain ⟨vs, hvs⟩ := hmore more
  have hf := Rule.statement_eq_error_iff.2 (hfails t (hrest ▸ ht) vs)
  have hrec : recover (ws ++ (xs ++ semi :: more)) (xs ++ semi :: more).length = semi :: more :=
    recover_of_depthAfter? hsemi hws hxs
  rw [List.append_assoc, hvs]
  rw [hvs] at hrec
  cases ws with
  | nil =>
    rw [List.nil_append] at hf hrec ⊢
    rw [outcomes_of_error hf, hrec]
    rfl
  | cons w ws =>
    rw [List.cons_append] at hf hrec ⊢
    rw [outcomes_of_error hf, hrec]
    rfl

end

/-- A sentence comes to the same outcomes in front of any words, one of them at most an error. -/
theorem exists_outcomes {semi : Token} (hsemi : semi.kind = .semicolon) {us : List Token}
    (hus : depthAfter? 0 us = some 0) :
    ∃ read, (errorsOf read).length ≤ 1 ∧
      ∀ stop more, outcomes stop (us ++ semi :: more) = read ++ outcomes stop more := by
  -- on the words left: a statement that is read takes some, one that fails takes all
  induction hn : us.length using Nat.strongRecOn generalizing us with
  | ind n ih =>
    cases hr : Rule.statement (Rule.expr nestingLimit) (us ++ [semi]) with
    | ok p =>
      have hreads : Reads (Rule.statement (Rule.expr nestingLimit) (us ++ [semi])) p.value p.rest :=
        ⟨p.rest_lt, hr⟩
      obtain hall | ⟨xs, hlt, hxs, hall⟩ := exists_of_reads_statement hsemi hus hreads
      · exact ⟨[.ok p.value], Nat.zero_le 1, fun stop more => outcomes_of_reads (hall more)⟩
      · obtain ⟨read, hone, hread⟩ := ih xs.length (hn ▸ hlt) hxs rfl
        refine ⟨.ok p.value :: read, hone, fun stop more => ?_⟩
        rw [outcomes_of_reads (hall more), hread, List.cons_append]
    | error f =>
      obtain ⟨e, he⟩ := exists_of_statement_eq_error hsemi hus hr
      exact ⟨[.error e], Nat.le_refl 1, he⟩

/-! ## Sentences in a row -/

theorem errorsOf_append (read more : List (Except ParseError Stmt)) :
    errorsOf (read ++ more) = errorsOf read ++ errorsOf more := List.filterMap_append

namespace Program

/-- What texts come to one after the other: all their statements, or else all their errors. -/
def inTurn : List (Except (List ParseError) Program) → Except (List ParseError) Program
  | [] => .ok ⟨[]⟩
  | .ok p :: rs => (inTurn rs).map fun q => ⟨p.statements ++ q.statements⟩
  | .error es :: rs =>
    .error (es ++ match inTurn rs with
      | .error fs => fs
      | .ok _ => [])

theorem ofTokens?_concat (ts : List Token) (last : Token) :
    ofTokens? (ts ++ [last]) = some (ofWords ts last.position) := by
  rw [ofTokens?, List.getLast?_concat, List.dropLast_concat, Option.map_some]

/-- Words that come to the outcomes they have alone, before those of the words after them. -/
theorem ofWords_append {ts more : List Token} {read : List (Except ParseError Stmt)}
    {stop stop' : Position} (hts : outcomes stop' ts = read)
    (hmore : outcomes stop (ts ++ more) = read ++ outcomes stop more)
    {rs : List (Except (List ParseError) Program)} (hrs : ofWords more stop = inTurn rs) :
    ofWords (ts ++ more) stop = inTurn (ofWords ts stop' :: rs) := by
  have herr : errorsOf (outcomes stop (ts ++ more)) =
      errorsOf (outcomes stop' ts) ++ errorsOf (outcomes stop more) := by
    rw [hmore, hts, errorsOf_append]
  by_cases h : errorsOf (outcomes stop' ts) = [] <;>
    by_cases h' : errorsOf (outcomes stop more) = []
  · rw [ofWords_eq_ok h, inTurn, ← hrs, ofWords_eq_ok h', ofWords_eq_ok (by rw [herr, h, h']; rfl),
      hmore, hts, List.filterMap_append]
    rfl
  · rw [h, List.nil_append] at herr
    rw [ofWords_eq_ok h, inTurn, ← hrs, ofWords_eq_error h', ofWords_eq_error (herr ▸ h'), herr]
    rfl
  · rw [h', List.append_nil] at herr
    rw [ofWords_eq_error h, inTurn, ← hrs, ofWords_eq_ok h', ofWords_eq_error (herr ▸ h), herr,
      List.append_nil]
  · rw [ofWords_eq_error h, inTurn, ← hrs, ofWords_eq_error h',
      ofWords_eq_error (herr ▸ List.append_ne_nil_of_left_ne_nil h _), herr]

/-- A sentence comes to a program or to one error, and so it does in front of any words. -/
theorem exists_ofWords {ts : List Token} (h : IsSentence ts) :
    ∃ r, (∀ es, r = .error es → es.length = 1) ∧ (∀ stop, ofWords ts stop = r) ∧
      ∀ more stop rs, ofWords more stop = inTurn rs →
        ofWords (ts ++ more) stop = inTurn (r :: rs) := by
  obtain ⟨us, semi, rfl, hsemi, hus⟩ := h
  obtain ⟨read, hone, hread⟩ := exists_outcomes hsemi hus
  have halone : ∀ stop, outcomes stop (us ++ [semi]) = read := fun stop => by
    rw [hread, outcomes_nil, List.append_nil]
  have hsame : ∀ stop stop', ofWords (us ++ [semi]) stop = ofWords (us ++ [semi]) stop' :=
    fun stop stop' => by rw [ofWords, ofWords, halone, halone]
  refine ⟨ofWords (us ++ [semi]) default, ?_, fun stop => hsame _ _, fun more stop rs hrs => ?_⟩
  · intro es hes
    by_cases he : errorsOf read = []
    · rw [ofWords_eq_ok (by rw [halone, he])] at hes
      cases hes
    · rw [ofWords_eq_error (by rwa [halone]), halone, Except.error.injEq] at hes
      rw [← hes]
      exact Nat.le_antisymm hone (List.length_pos_iff.2 he)
  · refine ofWords_append (halone default) ?_ hrs
    rw [List.append_assoc]
    exact hread stop more

/-- Sentences in a row come to what they come to alone, one after the other. Each comes to a
program or to one error. -/
theorem ofTokens?_flatten {tss : List (List Token)} (h : ∀ ts ∈ tss, IsSentence ts) :
    ∃ rs, List.Forall₂ (fun ts r => ∀ last, ofTokens? (ts ++ [last]) = some r) tss rs ∧
      (∀ es, .error es ∈ rs → es.length = 1) ∧
      ∀ last, ofTokens? (tss.flatten ++ [last]) = some (inTurn rs) := by
  simp only [ofTokens?_concat, Option.some.injEq]
  induction tss with
  | nil => exact ⟨[], .nil, nofun, fun _ => ofWords_of_row .nil⟩
  | cons ts tss ih =>
    rw [List.forall_mem_cons] at h
    obtain ⟨rs, hrs, hone, hall⟩ := ih h.2
    obtain ⟨r, hr, hts, happend⟩ := exists_ofWords h.1
    refine ⟨r :: rs, .cons (fun last => hts _) hrs, ?_, fun last => happend _ _ _ (hall last)⟩
    intro es hes
    obtain rfl | hes := List.mem_cons.1 hes
    · exact hr es rfl
    · exact hone es hes

/-- The words of `fn() { ; };`. -/
def semicolonInBraces : List Token :=
  [⟨.fnWord, "fn", ⟨1, 1⟩⟩, ⟨.leftParen, "(", ⟨1, 3⟩⟩, ⟨.rightParen, ")", ⟨1, 4⟩⟩,
    ⟨.leftBrace, "\x7b", ⟨1, 6⟩⟩, ⟨.semicolon, ";", ⟨1, 8⟩⟩, ⟨.rightBrace, "\x7d", ⟨1, 10⟩⟩,
    ⟨.semicolon, ";", ⟨1, 11⟩⟩]

/-- The words of `x;` on the next line. -/
def nameOnNextLine : List Token := [⟨.name, "x", ⟨2, 1⟩⟩, ⟨.semicolon, ";", ⟨2, 2⟩⟩]

/-- A semicolon inside braces is the one error of its sentence, and the next sentence is sound. -/
theorem ofTokens?_flatten_semicolonInBraces :
    (∀ ts ∈ [semicolonInBraces, nameOnNextLine], IsSentence ts) ∧
      ∀ last, ofTokens? ([semicolonInBraces, nameOnNextLine].flatten ++ [last]) =
        some (.error [⟨.noOperand .semicolon, ⟨1, 8⟩⟩]) := by
  have hbraces : IsSentence semicolonInBraces := ⟨semicolonInBraces.dropLast, _, rfl, rfl, rfl⟩
  have hname : IsSentence nameOnNextLine := ⟨nameOnNextLine.dropLast, _, rfl, rfl, rfl⟩
  have hall : ∀ ts ∈ [semicolonInBraces, nameOnNextLine], IsSentence ts :=
    List.forall_mem_cons.2 ⟨hbraces, List.forall_mem_singleton.2 hname⟩
  refine ⟨hall, fun last => ?_⟩
  have hfails : ofTokens? (semicolonInBraces ++ [default]) =
      some (.error [⟨.noOperand .semicolon, ⟨1, 8⟩⟩]) := by decide +kernel
  have hreads : ofTokens? (nameOnNextLine ++ [default]) =
      some (.ok ⟨[.expr (.name "x")]⟩) := by decide +kernel
  obtain ⟨_, hrs, -, hflat⟩ := ofTokens?_flatten hall
  obtain _ | ⟨hbroken, _ | ⟨hsound, _ | _⟩⟩ := hrs
  rw [hbroken, Option.some.injEq] at hfails
  rw [hsound, Option.some.injEq] at hreads
  rw [hflat, hfails, hreads]
  rfl

end Program

end LetFn
