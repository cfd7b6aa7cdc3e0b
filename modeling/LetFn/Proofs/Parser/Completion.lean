import LetFn.Proofs.Parser.FirstFailure
import LetFn.Proofs.Parser.Truncation

/-!
# Broken texts can be completed

The words in front of the first error of a text can be completed to a program, unless the error is
about nesting or was found at the last level of it.

* `Rule.exprCapped`: the rule for expressions with failures at a few levels only; by
  `Rule.exprCapped_of_le` it is the rule itself if that allows all of its levels.
* `Completable d ts rest`: the words of `ts` in front of `rest` can be completed to words of `d`.
* `Completes sub inside`: where the rule `sub` for the expressions inside fails, what it took can be
  completed; each relation over it has a lemma of its own (`Failing.Operand.completable` and its
  like).
* `completes_exprCapped`: the rule for expressions completes, if it has a level left where it fails.
* `Program.ofTokens?_eq_error_earliest`: the first error of a text is as early as it can be.
-/

namespace LetFn
open Token (Kind)
open Grammar

/-! ## Failures at a few levels -/

namespace Rule

/-- The rule for expressions, where a failure counts as one of nesting if it is found while more
than `calls` expressions are being read, each inside the one before. -/
def exprCapped : (levels calls floor : Nat) → Rule Expr
  | levels, 0, floor, ts =>
    (expr levels floor ts).mapError fun f => ⟨.tooDeep nestingLimit, f.rest⟩
  | 0, _ + 1, _, ts => .error ⟨.tooDeep nestingLimit, ts⟩
  | levels + 1, calls + 1, floor, ts => do
    let ⟨left, rest, h⟩ ← operand (exprCapped levels calls) ts
    linksAfter (exprCapped levels calls) floor left rest h

theorem fault_of_exprCapped_zero {levels floor : Nat} {ts : List Token} {f : Failure}
    (h : exprCapped levels 0 floor ts = .error f) : f.fault = .tooDeep nestingLimit := by
  rw [exprCapped] at h
  cases he : expr levels floor ts with
  | ok p =>
    rw [he] at h
    cases h
  | error g =>
    rw [he] at h
    cases h
    rfl

theorem exprCapped_eq_error_iff {levels calls floor : Nat} {ts : List Token} {f : Failure} :
    exprCapped (levels + 1) (calls + 1) floor ts = .error f ↔
      Failing.Operand (exprCapped levels calls) ts f ∨
        ∃ left mid, Reading.Operand (exprCapped levels calls) ts left mid ∧
          Failing.Links (exprCapped levels calls) floor mid f := by
  simp only [exprCapped, Reads.bind_eq_error_iff, operand_eq_error_iff, reads_operand_iff,
    linksAfter_eq_error_iff, exists_prop]

/-- What is read does not depend on the failures. -/
theorem cutOff_exprCapped (levels calls floor : Nat) (ts : List Token) :
    CutOff (exprCapped levels calls floor ts) (expr levels floor ts) := by
  induction calls generalizing levels floor ts with
  | zero =>
    rw [exprCapped]
    cases expr levels floor ts with
    | ok p => rfl
    | error f => exact .tooDeep
  | succ calls ih =>
    cases levels with
    | zero => rfl
    | succ levels => exact (cutOff_operand (ih levels) ts).bind fun left =>
        cutOff_linksAfter (ih levels) _ _ _

/-- No failure is found at more levels than there are. -/
theorem exprCapped_of_le {levels calls : Nat} (h : levels ≤ calls) :
    exprCapped levels calls = expr levels := by
  induction calls generalizing levels with
  | zero =>
    obtain rfl := Nat.le_zero.1 h
    rfl
  | succ calls ih =>
    cases levels with
    | zero => rfl
    | succ levels =>
      funext floor ts
      rw [exprCapped, expr, ih (Nat.le_of_succ_le_succ h)]

end Rule

theorem sound_exprCapped (levels calls : Nat) :
    Sound (Rule.exprCapped levels calls) (Expression levels) := by
  rintro floor ts rest e ⟨h, heq⟩
  exact sound_expr levels ⟨h, (Rule.cutOff_exprCapped levels calls floor ts).eq_of_ok heq⟩

/-! ## Completions -/

/-! Words to complete others with. -/

def aName : Token := ⟨.name, "x", ⟨1, 1⟩⟩
def anAssign : Token := ⟨.assign, "=", ⟨1, 1⟩⟩
def aLeftParen : Token := ⟨.leftParen, "(", ⟨1, 1⟩⟩
def aRightParen : Token := ⟨.rightParen, ")", ⟨1, 1⟩⟩
def aLeftBrace : Token := ⟨.leftBrace, "\x7b", ⟨1, 1⟩⟩
def aRightBrace : Token := ⟨.rightBrace, "\x7d", ⟨1, 1⟩⟩

/-- The words of `ts` in front of `rest` can be completed to words of which `d` derives something. -/
def Completable {α : Type} (d : List Token → α → Prop) (ts rest : List Token) : Prop :=
  ∃ us more a, ts = us ++ rest ∧ (∀ t ∈ more, t.kind ≠ .eof) ∧ d (us ++ more) a

namespace Completable
variable {α β : Type} {d : List Token → α → Prop} {d' : List Token → β → Prop}
  {ts rest : List Token}

/-- The words taken so far are completed by words of choice. -/
theorem stop (us more : List Token) (a : α) (h : d (us ++ more) a)
    (hmore : ∀ t ∈ more, t.kind ≠ .eof := by decide) : Completable d (us ++ rest) rest :=
  ⟨us, more, a, rfl, hmore, h⟩

/-- What completes a part, with words of choice after it, completes the whole. -/
theorem inside (vs after : List Token) (h : Completable d ts rest)
    (hd : ∀ ws a, d ws a → ∃ b, d' (vs ++ (ws ++ after)) b)
    (hafter : ∀ t ∈ after, t.kind ≠ .eof := by decide) : Completable d' (vs ++ ts) rest := by
  obtain ⟨us, more, a, rfl, hmore, ha⟩ := h
  obtain ⟨b, hb⟩ := hd _ a ha
  refine ⟨vs ++ us, more ++ after, b, (List.append_assoc ..).symm, ?_, ?_⟩
  · exact List.forall_mem_append.2 ⟨hmore, hafter⟩
  · rwa [List.append_assoc, ← List.append_assoc us]

theorem imp (h : Completable d ts rest) (hd : ∀ ws a, d ws a → ∃ b, d' ws b) :
    Completable d' ts rest := by
  obtain ⟨us, more, a, rfl, hmore, ha⟩ := h
  obtain ⟨b, hb⟩ := hd _ a ha
  exact ⟨us, more, b, rfl, hmore, hb⟩

end Completable

/-- A cause that is not the nesting. -/
def ParseFault.IsShallow (f : ParseFault) : Prop := ∀ n, f ≠ .tooDeep n

/-- Where the rule for the expressions inside fails, what it took can be completed. -/
structure Completes (sub : Nat → Rule Expr) (inside : List Tier → List Token → Expr → Prop) :
    Prop where
  sound : Sound sub inside
  name : ∀ floor, inside (tiers.drop floor) [aName] (.name aName.text)
  starts : ∀ {ts e}, inside tiers ts e → nextKind ts ∈ startsExpression
  completable : ∀ {floor ts f}, sub floor ts = .error f → f.fault.IsShallow →
    Completable (inside (tiers.drop floor)) ts f.rest

/-! ### First words of statements -/

section
variable {inside : List Tier → List Token → Expr → Prop}
  (hstarts : ∀ {ts e}, inside tiers ts e → nextKind ts ∈ startsExpression)
include hstarts

theorem Grammar.Statement.nextKind_mem {ts : List Token} {s : Stmt}
    (h : Statement inside ts s) :
    nextKind ts ∈ .letWord :: .returnWord :: startsExpression := by
  cases h with
  | bind hw => simp [nextKind, hw]
  | ret hw => simp [nextKind, hw]
  | expr hi => exact List.mem_cons_of_mem _ (List.mem_cons_of_mem _ (hstarts hi))

theorem Grammar.Statement.nextKind_append_mem {ts : List Token} {s : Stmt}
    (h : Statement inside ts s) (us : List Token) :
    nextKind (ts ++ us) ∈ .letWord :: .returnWord :: startsExpression := by
  have hmem := h.nextKind_mem hstarts
  cases ts with
  | nil => exact absurd hmem (by decide)
  | cons t ts => exact hmem

omit hstarts in
theorem Grammar.Statement.alone {ts : List Token} {s : Stmt} (h : Statement inside ts s) :
    Statements inside ts [s] := by
  have hone : Statements inside (ts ++ []) [s] := .open h (fun _ h => nomatch h) .nil
  rwa [List.append_nil] at hone

theorem Grammar.Statements.nextKind_mem {ts : List Token} {b : Block}
    (h : Statements inside ts b) (hne : ts ≠ []) :
    nextKind ts ∈ .letWord :: .returnWord :: startsExpression := by
  cases h with
  | nil => exact absurd rfl hne
  | closed hs => exact hs.nextKind_append_mem hstarts _
  | «open» hs => exact hs.nextKind_append_mem hstarts _

end

theorem Grammar.InBraces.filler {inside : List Tier → List Token → Expr → Prop} :
    InBraces inside [aLeftBrace, aRightBrace] [] := .mk rfl .nil rfl

namespace Failing

/-! ### Lists of items -/

section
variable {α : Type} {item : List Token → α → List Token → Prop}
  {fails : List Token → Failure → Prop} {derived : List Token → α → Prop} {ts : List Token}
  {f : Failure}
  (hitem : ∀ ts a rest, item ts a rest → ∃ us, ts = us ++ rest ∧ derived us a)
  (hfails : ∀ ts, fails ts f → Completable derived ts f.rest)
include hitem hfails

/-- What comes after a first item can be completed. -/
theorem Items.completable (h : Items item fails ts f) {vs : List Token} {a : α}
    (ha : derived vs a) :
    Completable (fun ws as => Grammar.Separated derived (vs ++ ws) (a :: as)) ts f.rest := by
  induction h generalizing vs a with
  | stop =>
    refine .stop [] [] [] ?_
    rw [List.append_nil, List.append_nil]
    exact .one ha
  | @item t ts f hc hf =>
    exact (hfails ts hf).inside [t] [] fun ws b hb => ⟨[b], by
      rw [List.append_nil]
      exact .cons ha hc (.one hb)⟩
  | @step t ts mid b f hc hb _ ih =>
    obtain ⟨us, rfl, hd⟩ := hitem _ _ _ hb
    exact (ih hfails hd).inside (t :: us) [] fun ws bs hbs => ⟨b :: bs, by
      rw [List.append_nil]
      exact .cons ha hc hbs⟩

theorem Separated.completable (h : Separated item fails ts f) :
    Completable (Grammar.Separated derived) ts f.rest := by
  cases h with
  | first _ hf => exact (hfails ts hf).imp fun ws a ha => ⟨[a], .one ha⟩
  | items _ ha hf =>
    obtain ⟨us, rfl, hd⟩ := hitem _ _ _ ha
    exact (hf.completable hitem hfails hd).inside us [] fun ws as has => ⟨_ :: as, by
      rw [List.append_nil]
      exact has⟩

end

theorem Param.completable {ts : List Token} {f : Failure} (h : Param ts f) :
    Completable Grammar.Param ts f.rest := by
  obtain ⟨-, rfl⟩ := h
  exact .stop [] [aName] aName.text ⟨aName, rfl, rfl, rfl⟩

/-! ### Statements -/

section
variable {sub : Nat → Rule Expr} {inside : List Tier → List Token → Expr → Prop} {ts : List Token}
  {f : Failure} (hsub : Completes sub inside)
include hsub

theorem Statement.completable (h : Statement sub ts f) (hf : f.fault.IsShallow) :
    Completable (Grammar.Statement inside) ts f.rest := by
  cases h with
  | @name w ts hw _ =>
    exact .stop [w] [aName, anAssign, aName] _ (.bind hw rfl rfl (hsub.name 0))
  | @sign w x ts hw hx _ =>
    exact .stop [w, x] [anAssign, aName] _ (.bind hw hx rfl (hsub.name 0))
  | @bind w x s ts f hw hx hs he =>
    exact (hsub.completable he hf).inside [w, x, s] [] fun ws e hi => ⟨.bind x.text e, by
      rw [List.append_nil]
      exact .bind hw hx hs hi⟩
  | @ret w ts f hw he =>
    exact (hsub.completable he hf).inside [w] [] fun ws e hi => ⟨.ret e, by
      rw [List.append_nil]
      exact .ret hw hi⟩
  | expr _ _ he => exact (hsub.completable he hf).imp fun ws e hi => ⟨.expr e, .expr hi⟩

/-- Statements that are read, and a broken one, can be completed. If nothing was taken of the broken
one, it is left out. -/
theorem Row.completable (h : Row sub ts f) (hf : f.fault.IsShallow) :
    Completable (Grammar.Statements inside) ts f.rest := by
  induction h with
  | first hs =>
    exact (hs.completable hsub hf).imp fun ws s hi => ⟨[s], hi.alone⟩
  | @step ts mid s f hs _ ih =>
    obtain ⟨us, more, b, hmid, hmore, hb⟩ := ih hf
    rcases hs.sound hsub.sound with ⟨vs, semi, rfl, hk, hv⟩ | ⟨vs, rfl, hsemi, hstop, hv⟩
    · subst hmid
      refine ⟨vs ++ semi :: us, more, s :: b, by simp, hmore, ?_⟩
      rw [List.append_assoc]
      exact .closed hv hk hb
    · cases us with
      | nil =>
        obtain rfl : mid = f.rest := hmid
        refine .stop vs [] [s] ?_
        rw [List.append_nil]
        exact hv.alone
      | cons u us =>
        subst hmid
        refine ⟨vs ++ u :: us, more, s :: b, by simp, hmore, ?_⟩
        rw [List.append_assoc]
        refine .open hv (fun t ht => ?_) hb
        cases ht
        have hmem := hb.nextKind_mem hsub.starts (List.cons_ne_nil u _)
        exact Reading.not_mem_carriesOn hstop hmem

theorem Statements.completable (h : Statements sub ts f) (hf : f.fault.IsShallow) :
    Completable (Grammar.Statements inside) ts f.rest := by
  rcases h.row with ⟨rfl, b, hrow⟩ | hrow
  · obtain ⟨us, rfl, hb, -⟩ := hrow.sound hsub.sound
    refine .stop us [] b ?_
    rwa [List.append_nil]
  · exact hrow.completable hsub hf

theorem Block.completable (h : Block sub ts f) (hf : f.fault.IsShallow) :
    Completable (InBraces inside) ts f.rest := by
  cases h with
  | brace _ => exact .stop [] [aLeftBrace, aRightBrace] [] InBraces.filler
  | @statements l ts f hl hs =>
    exact (hs.completable hsub hf).inside [l] [aRightBrace] fun ws b hb => ⟨b, .mk hl hb rfl⟩

/-! ### Expressions -/

theorem Arguments.completable (h : Arguments sub ts f) (hf : f.fault.IsShallow) :
    Completable (Grammar.Separated (inside tiers)) ts f.rest := by
  refine Separated.completable (fun ts e rest he => ?_) (fun ts he => ?_) h
  · obtain ⟨-, us, rfl, hi, -⟩ := hsub.sound he
    exact ⟨us, rfl, hi⟩
  · exact hsub.completable he hf

/-- The rest of a loop over operators can be completed, to what adds to the left operand. -/
theorem Links.completable {floor : Nat} (h : Links sub floor ts f) (hf : f.fault.IsShallow)
    {k : Nat} {ls : List Token} {left : Expr} (hk : k ≤ 6) (hfloor : min floor 4 < k)
    (hleft : Strong inside k ls left) (hstop : Reading.Stops k ts) :
    Completable (fun ws e => Chain inside (tiers.drop floor) (ls ++ ws) e) ts f.rest := by
  induction h generalizing k ls left with
  | @right op t ts f hl hlt he =>
    refine (hsub.completable he hf).inside [t] [] fun ws e hi => ⟨.binary op left e, ?_⟩
    rw [List.append_nil]
    exact (hleft.binary hl (hstop _ hl) hi).chain (by omega)
  | @args t ts f hl hlt ha =>
    obtain rfl := Reading.eq_of_stops_call hl hk hstop
    refine (Arguments.completable hsub ha hf).inside [t] [aRightParen] fun ws es hes =>
      ⟨.call left es, ?_⟩
    have hnew := hleft.call hl hes (r := aRightParen) rfl
    rw [List.append_assoc] at hnew
    exact hnew.chain hfloor
  | @binary op right t ts mid f hl hlt hr _ ih =>
    obtain ⟨-, us, rfl, hi, hmid⟩ := hsub.sound hr
    have hnew := hleft.binary hl (hstop _ hl) hi
    have hle : op.strength ≤ k := hstop _ hl
    refine (ih hf (by omega) (by omega) hnew hmid).inside (t :: us) [] fun ws e hc => ⟨e, ?_⟩
    rw [List.append_nil]
    rwa [List.append_assoc] at hc
  | @call as t ts mid f hl hlt ha _ ih =>
    obtain rfl := Reading.eq_of_stops_call hl hk hstop
    obtain ⟨us, r, rfl, hr, has⟩ := Reading.Arguments.sound hsub.sound ha
    have hnew := hleft.call hl has hr
    have hstops : Reading.Stops 6 mid := fun link _ => link.strength_le
    have hmore := ih hf (Nat.le_refl 6) hfloor hnew hstops
    rw [List.append_cons, ← List.cons_append]
    refine hmore.inside (t :: us ++ [r]) [] fun ws e hc => ⟨e, ?_⟩
    rw [List.append_nil]
    simpa using hc

/-- An operand can be completed, to what may stand left of the operators after it. -/
theorem Operand.completable (h : Operand sub ts f) (hf : f.fault.IsShallow) :
    ∃ k, 5 ≤ k ∧ k ≤ 6 ∧ Completable (Strong inside k) ts f.rest := by
  have primary : Completable (Primary inside) ts f.rest →
      ∃ k, 5 ≤ k ∧ k ≤ 6 ∧ Completable (Strong inside k) ts f.rest := fun h =>
    ⟨6, by decide, by decide, h.imp fun ws e hp => ⟨e, .primary hp⟩⟩
  have hname : inside tiers [aName] (.name aName.text) := hsub.name 0
  cases h with
  | start _ => exact primary (.stop [] [aName] _ (.name rfl))
  | int _ _ => exact primary (.stop [] [aName] _ (.name rfl))
  | @sign t ts f hk he =>
    refine ⟨5, by decide, by decide, (hsub.completable he hf).inside [t] [] fun ws e hi => ?_⟩
    rw [List.append_nil]
    rcases hk with hk | hk
    · exact ⟨.unary .not e, .unary (.not hk hi)⟩
    · exact ⟨.unary .negate e, .unary (.negate hk hi)⟩
  | @group l ts f hl he =>
    exact primary <| (hsub.completable he hf).inside [l] [aRightParen] fun ws e hi =>
      ⟨e, .group hl hi rfl⟩
  | @groupEnd l ts mid e hl he _ =>
    obtain ⟨-, us, rfl, hi, -⟩ := hsub.sound he
    exact primary (.stop (l :: us) [aRightParen] _ (.group hl hi rfl))
  | @condOpen w ts hw _ =>
    exact primary (.stop [w] [aLeftParen, aName, aRightParen, aLeftBrace, aRightBrace] _
      (.cond hw rfl hname rfl .filler))
  | @condTest w l ts f hw hl he =>
    exact primary <| (hsub.completable he hf).inside [w, l] [aRightParen, aLeftBrace, aRightBrace]
      fun ws e hi => ⟨.cond e [] none, .cond hw hl hi rfl .filler⟩
  | @condClose w l ts mid test hw hl he _ =>
    obtain ⟨-, us, rfl, hi, -⟩ := hsub.sound he
    exact primary (.stop (w :: l :: us) [aRightParen, aLeftBrace, aRightBrace] _
      (.cond hw hl hi rfl .filler))
  | @condYes w l r ts us test f hw hl he hr hb =>
    obtain ⟨-, vs, rfl, hi, -⟩ := hsub.sound he
    refine primary ?_
    rw [List.append_cons, ← List.cons_append, ← List.cons_append]
    refine (hb.completable hsub hf).inside _ [] fun ws b hws => ⟨.cond test b none, ?_⟩
    simpa using Primary.cond hw hl hi hr hws
  | @condNo w l r o ts us vs test yes f hw hl he hr hyes ho hb =>
    obtain ⟨-, ws, rfl, hi, -⟩ := hsub.sound he
    obtain ⟨xs, rfl, hy⟩ := hyes.sound hsub.sound
    refine primary ?_
    have hsplit : w :: l :: (ws ++ r :: (xs ++ o :: vs)) = w :: l :: ws ++ r :: xs ++ [o] ++ vs := by
      simp
    rw [hsplit]
    refine (hb.completable hsub hf).inside _ [] fun ys b hys => ⟨.cond test yes (some b), ?_⟩
    simpa using Primary.condElse hw hl hi hr hy ho hys
  | @fnOpen w ts hw _ =>
    exact primary (.stop [w] [aLeftParen, aRightParen, aLeftBrace, aRightBrace] _
      (.fn hw rfl .nil rfl .filler))
  | @fnParams w l ts f hw hl hxs =>
    have hparams : Completable (Grammar.Separated Grammar.Param) ts f.rest :=
      hxs.completable (fun _ _ _ hx => hx.sound) fun _ hx => hx.completable
    exact primary <| hparams.inside [w, l] [aRightParen, aLeftBrace, aRightBrace]
      fun ws xs hws => ⟨.fn xs [], .fn hw hl hws rfl .filler⟩
  | @fnBody w l ts us xs f hw hl hxs hb =>
    obtain ⟨vs, r, rfl, hr, hvs⟩ := hxs.sound fun _ _ _ hx => Reading.Param.sound hx
    refine primary ?_
    rw [List.append_cons, ← List.cons_append, ← List.cons_append]
    refine (hb.completable hsub hf).inside _ [] fun ws b hws => ⟨.fn xs b, ?_⟩
    simpa using Primary.fn hw hl hvs hr hws

end
end Failing

/-! ## The rule for expressions -/

theorem Grammar.Expression.nextKind_mem {n : Nat} {ts : List Token} {e : Expr}
    (h : Expression n tiers ts e) : nextKind ts ∈ startsExpression := by
  have hreads := complete_expr n (Nat.zero_le 5) h (ends_nil 0)
  rw [List.append_nil] at hreads
  exact Rule.nextKind_mem_of_reads hreads

/-- What an expression took in front of a failure can be completed, if there was a level left. -/
theorem completes_exprCapped {levels calls : Nat} (h : calls < levels) :
    Completes (Rule.exprCapped levels calls) (Expression levels) := by
  -- on the calls: those inside have one level less, and one call less to fail at
  induction calls generalizing levels with
  | zero =>
    obtain ⟨n, rfl⟩ := Nat.exists_eq_succ_of_ne_zero (Nat.ne_of_gt h)
    refine ⟨sound_exprCapped _ _, fun floor => ?_, Expression.nextKind_mem, fun hf hshallow => ?_⟩
    · exact (Strong.primary (.name rfl)).chain (by omega)
    · exact absurd (Rule.fault_of_exprCapped_zero hf) (hshallow nestingLimit)
  | succ calls ih =>
    obtain ⟨n, rfl⟩ := Nat.exists_eq_succ_of_ne_zero (Nat.ne_zero_of_lt h)
    have hsub := ih (Nat.lt_of_succ_lt_succ h)
    refine ⟨sound_exprCapped _ _, fun floor => ?_, Expression.nextKind_mem, fun hf hshallow => ?_⟩
    · exact (Strong.primary (.name rfl)).chain (by omega)
    · rcases Rule.exprCapped_eq_error_iff.1 hf with hop | ⟨left, mid, hleft, hlinks⟩
      · obtain ⟨k, h5, h6, hcomp⟩ := hop.completable hsub hshallow
        exact hcomp.imp fun ws e hs => ⟨e, hs.chain (by omega)⟩
      · obtain ⟨us, k, rfl, h5, h6, hs, hstop⟩ := hleft.sound hsub.sound
        have hcomp := hlinks.completable hsub hshallow h6 (by omega) hs hstop
        exact hcomp.inside us [] fun ws e hc => ⟨e, by rwa [List.append_nil]⟩

/-! ## First errors -/

namespace Program

/-- The first error of a rejected text is found at a token, as early as it can be found: no tokens
that agree up to that token are a program. If it is not about nesting, and fewer expressions than
may be nested were being read, the tokens before it can be continued to a program. -/
theorem ofTokens?_eq_error_earliest {toks : List Token} {es : List ParseError}
    (htoks : Token.EndsOnce toks) (h : ofTokens? toks = some (.error es)) :
    ∃ us t f, us ++ [t] <+: toks ∧ toks.dropLast = us ++ f.rest ∧
      Failing.Row (Rule.expr nestingLimit) toks.dropLast f ∧
      es.head? = some ⟨f.fault, t.position⟩ ∧
      (∀ toks', Token.EndsOnce toks' → us ++ [t] <+: toks' → ∀ p, ofTokens? toks' ≠ some (.ok p)) ∧
      ∀ calls < nestingLimit, Failing.Row (Rule.exprCapped nestingLimit calls) toks.dropLast f →
        (∀ n, f.fault ≠ .tooDeep n) →
        ∃ more p, Token.EndsOnce (us ++ more) ∧ ofTokens? (us ++ more) = some (.ok p) := by
  obtain ⟨ts, stop, rfl, hstop, hwords⟩ := htoks
  rw [ofTokens?_concat, Option.some.injEq] at h
  rw [List.dropLast_concat]
  obtain ⟨f, hrow, hhead⟩ := exists_row_of_ofWords h
  obtain ⟨us, -, rfl, -⟩ := hrow.stuck (isSteady_expr nestingLimit)
  obtain ⟨t, ht, hplace⟩ : ∃ t, us ++ [t] <+: us ++ f.rest ++ [stop] ∧
      f.error stop.position = ⟨f.fault, t.position⟩ := by
    simp only [List.append_assoc, List.prefix_append_right_inj, Failure.error]
    cases f.rest with
    | nil => exact ⟨stop, List.prefix_rfl, rfl⟩
    | cons w ws => exact ⟨w, List.prefix_append [w] _, rfl⟩
  refine ⟨us, t, f, ht, rfl, hrow, hplace ▸ hhead, fun toks' htoks' hagree p => ?_,
    fun calls hcalls hcapped hshallow => ?_⟩
  · exact hrow.ofTokens?_ne_ok hstop hwords ht htoks' hagree p
  · obtain ⟨vs, more, b, hvs, hmore, hb⟩ :=
      hcapped.completable (completes_exprCapped hcalls) hshallow
    obtain rfl := List.append_cancel_right hvs
    refine ⟨more ++ [stop], ⟨b⟩, ⟨us ++ more, stop, (List.append_assoc ..).symm, hstop, ?_⟩, ?_⟩
    · exact List.forall_mem_append.2 ⟨fun w hw => hwords w (List.mem_append_left _ hw), hmore⟩
    · rw [← List.append_assoc, ofTokens?_concat, ofWords_of_row (row_iff_statements.2 hb)]

/-- The tokens of `let = 1`. -/
def letWithoutName : List Token :=
  [⟨.letWord, "let", ⟨1, 1⟩⟩, ⟨.assign, "=", ⟨1, 5⟩⟩, ⟨.int, "1", ⟨1, 7⟩⟩, ⟨.eof, "", ⟨1, 8⟩⟩]

/-- What is wrong with `let = 1` is its second word, and the first one can be continued. -/
theorem ofTokens?_eq_error_earliest_letWithoutName :
    Token.EndsOnce letWithoutName ∧
      ofTokens? letWithoutName = some (.error [⟨.unexpected .name .assign, ⟨1, 5⟩⟩]) ∧
      0 < nestingLimit ∧
      Failing.Row (Rule.exprCapped nestingLimit 0) letWithoutName.dropLast
        (missing .name (letWithoutName.dropLast.drop 1)) ∧
      (∀ toks, Token.EndsOnce toks → letWithoutName.take 2 <+: toks →
        ∀ p, ofTokens? toks ≠ some (.ok p)) ∧
      ∃ more p, Token.EndsOnce (letWithoutName.take 1 ++ more) ∧
        ofTokens? (letWithoutName.take 1 ++ more) = some (.ok p) := by
  have htoks : Token.EndsOnce letWithoutName :=
    ⟨letWithoutName.dropLast, ⟨.eof, "", ⟨1, 8⟩⟩, rfl, rfl, by decide⟩
  have hfails : ofTokens? letWithoutName =
      some (.error [⟨.unexpected .name .assign, ⟨1, 5⟩⟩]) := by decide +kernel
  have hcapped : Failing.Row (Rule.exprCapped nestingLimit 0) letWithoutName.dropLast
      (missing .name (letWithoutName.dropLast.drop 1)) := .first (.name rfl (by decide))
  obtain ⟨us, t, f, hpre, hsplit, hrow, -, hnone, hsome⟩ :=
    ofTokens?_eq_error_earliest htoks hfails
  obtain rfl : f = missing .name (letWithoutName.dropLast.drop 1) := by
    cases hrow with
    | first hs =>
      cases hs with
      | name => rfl
      | sign _ hx => cases hx
      | bind _ hx => cases hx
      | ret hw => cases hw
      | expr hl => exact absurd rfl hl
    | step hs =>
      cases hs with
      | bind _ hx => cases hx
      | ret hw => cases hw
      | expr hl => exact absurd rfl hl
  obtain rfl : us = letWithoutName.take 1 := List.append_cancel_right hsplit.symm
  obtain rfl : t = ⟨.assign, "=", ⟨1, 5⟩⟩ :=
    (List.cons_prefix_cons.1 (List.cons_prefix_cons.1 hpre).2).1
  exact ⟨htoks, hfails, by decide, hcapped, hnone, hsome 0 (by decide) hcapped nofun⟩

end Program

end LetFn
