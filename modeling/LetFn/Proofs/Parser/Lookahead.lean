import Mathlib.Logic.Basic
import LetFn.Proofs.Grammar.Complete
import LetFn.Proofs.Parser.Fails

/-!
# How far the rules look

What a rule reads or fails at is settled by the words it takes and the one after them. The words
that it takes close every brace that they open, and leave no semicolon outside of braces behind.

* `depthAfter?`: the braces open after some words, if they are well placed; `depthAfter?_append`
  takes the words apart, by `depthAfter?_succ` all may stand inside a further brace.
* `Steady`, `Stuck`: a reading, and a failure, that only the next word decides on;
  `Steady.then` and `Steady.thenStuck` put them together.
* `IsSteady`: the same of a rule for the expressions inside; each relation over it has a lemma
  of its own (`Reading.Operand.steady`, `Failing.Operand.stuck` and their like).
* `isSteady_expr`: the rule for expressions is steady.
-/

namespace LetFn
open Token (Kind)

/-! ## Braces and semicolons -/

/-- The braces open after a word, `depth` being open before. A semicolon may only stand inside some,
and no brace may be closed that is not open. -/
def Token.Kind.depthAfter? (depth : Nat) : Kind → Option Nat
  | .leftBrace => some (depth + 1)
  | .rightBrace => if depth = 0 then none else some (depth - 1)
  | .semicolon => if depth = 0 then none else some depth
  | _ => some depth

/-- The braces open after some words. -/
def depthAfter? (depth : Nat) : List Token → Option Nat
  | [] => some depth
  | t :: ts => (t.kind.depthAfter? depth).bind fun d => depthAfter? d ts

theorem depthAfter?_append (depth : Nat) (us vs : List Token) :
    depthAfter? depth (us ++ vs) = (depthAfter? depth us).bind fun d => depthAfter? d vs := by
  induction us generalizing depth with
  | nil => rfl
  | cons t us ih =>
    rw [List.cons_append, depthAfter?, depthAfter?, Option.bind_assoc]
    exact congrArg _ (funext ih)

theorem Token.Kind.depthAfter?_cases {k : Kind} {d e : Nat} (h : k.depthAfter? d = some e) :
    (k = .leftBrace ∧ e = d + 1) ∨ (k = .rightBrace ∧ d = e + 1) ∨
      (k = .semicolon ∧ 0 < d ∧ e = d) ∨
      (k ≠ .leftBrace ∧ k ≠ .rightBrace ∧ k ≠ .semicolon ∧ e = d) := by
  cases k
  case leftBrace | rightBrace | semicolon => grind [depthAfter?]
  all_goals exact .inr (.inr (.inr ⟨nofun, nofun, nofun, (Option.some.inj h).symm⟩))

theorem Token.Kind.depthAfter?_succ {k : Kind} {d e : Nat} (h : k.depthAfter? d = some e) :
    k.depthAfter? (d + 1) = some (e + 1) := by
  obtain ⟨rfl, rfl⟩ | ⟨rfl, rfl⟩ | ⟨rfl, -, rfl⟩ | ⟨hl, hr, hs, rfl⟩ := depthAfter?_cases h
  · rfl
  · rfl
  · rfl
  · exact depthAfter?.eq_4 _ _ hl hr hs

/-- What is well placed is so inside a further brace. -/
theorem depthAfter?_succ {d e : Nat} {us : List Token} (h : depthAfter? d us = some e) :
    depthAfter? (d + 1) us = some (e + 1) := by
  induction us generalizing d with
  | nil => rw [depthAfter?, Option.some.injEq] at h ⊢; rw [h]
  | cons t us ih =>
    rw [depthAfter?, Option.bind_eq_some_iff] at h ⊢
    obtain ⟨c, hc, h⟩ := h
    exact ⟨c + 1, Token.Kind.depthAfter?_succ hc, ih h⟩

theorem Token.Kind.depthAfter?_of_link {k : Kind} {link : Link} (h : Link.ofKind? k = some link)
    (depth : Nat) : k.depthAfter? depth = some depth := by
  cases k <;> first | rfl | cases h

theorem depthAfter?_of_kind {t : Token} {k : Kind} (h : t.kind = k) {d e : Nat}
    (hk : k.depthAfter? d = some e) : t.kind.depthAfter? d = some e := h ▸ hk

/-! ## Readings and failures that the next word decides on -/

/-- Some words lead from `ts` to `rest` and from depth `d` to `e`, and `P` holds of what they lead
to whatever comes after the next word. -/
def Steady (d e : Nat) (P : List Token → List Token → Prop) (ts rest : List Token) : Prop :=
  ∃ us, ts = us ++ rest ∧ depthAfter? d us = some e ∧
    ∀ t, rest.head? = some t → ∀ vs, P (us ++ t :: vs) (t :: vs)

/-- Some words lead from `ts` to where `f` is noticed, and the failure is the same whatever comes
after the offending word. -/
def Stuck (d : Nat) (F : List Token → Failure → Prop) (ts : List Token) (f : Failure) : Prop :=
  ∃ us e, ts = us ++ f.rest ∧ depthAfter? d us = some e ∧
    ∀ t, f.rest.head? = some t → ∀ vs, F (us ++ t :: vs) ⟨f.fault, t :: vs⟩

theorem nextKind_eq_of_head? {ts : List Token} {t : Token} (h : ts.head? = some t) :
    nextKind ts = t.kind := by
  cases ts with
  | nil => cases h
  | cons u us =>
    cases h
    rfl

theorem nextKind_append_cons {us rest : List Token} {t : Token} (h : rest.head? = some t)
    (vs : List Token) : nextKind (us ++ t :: vs) = nextKind (us ++ rest) := by
  cases us with
  | nil => exact (nextKind_eq_of_head? h).symm
  | cons u us => rfl

section
variable {a b c d e : Nat} {P Q : List Token → List Token → Prop}
  {F G : List Token → Failure → Prop} {ts mid rest : List Token} {f : Failure}

namespace Steady

theorem nil (h : ∀ t vs, rest.head? = some t → P (t :: vs) (t :: vs)) : Steady d d P rest rest :=
  ⟨[], rfl, rfl, fun t ht vs => h t vs ht⟩

theorem token {t : Token} (hd : t.kind.depthAfter? d = some e) :
    Steady d e (fun ts rest => ts = t :: rest) (t :: rest) rest :=
  ⟨[t], rfl, by rw [depthAfter?, hd]; rfl, fun _ _ _ => rfl⟩

theorem «then» (h : Steady a b P ts mid) (h' : Steady b c Q mid rest) :
    Steady a c (fun ts rest => ∃ mid, P ts mid ∧ Q mid rest) ts rest := by
  obtain ⟨us, rfl, hus, hP⟩ := h
  obtain ⟨ws, rfl, hws, hQ⟩ := h'
  refine ⟨us ++ ws, (List.append_assoc ..).symm, ?_, fun t ht vs => ⟨ws ++ t :: vs, ?_, hQ t ht vs⟩⟩
  · rw [depthAfter?_append, hus]
    exact hws
  · rw [List.append_assoc]
    -- the word that decides on the first part is the first of the second part, or the last word
    cases ws with
    | nil => exact hP t ht vs
    | cons w ws => exact hP w rfl (ws ++ t :: vs)

theorem after {t : Token} {k : Kind} (hk : t.kind = k) (hd : k.depthAfter? a = some b)
    (h : Steady b c P ts rest) :
    Steady a c (fun ts rest => ∃ mid, ts = t :: mid ∧ P mid rest) (t :: ts) rest :=
  (token (depthAfter?_of_kind hk hd)).then h

/-- What follows may depend on the words next to come, which are the same. -/
theorem imp (h : Steady d e P ts rest)
    (hPQ : ∀ ts' rest', nextKind ts' = nextKind ts → nextKind rest' = nextKind rest →
      P ts' rest' → Q ts' rest') : Steady d e Q ts rest := by
  obtain ⟨us, rfl, hus, hP⟩ := h
  refine ⟨us, rfl, hus, fun t ht vs => hPQ _ _ ?_ ?_ (hP t ht vs)⟩
  · exact nextKind_append_cons ht vs
  · exact (nextKind_eq_of_head? ht).symm

theorem succ (h : Steady d e P ts rest) : Steady (d + 1) (e + 1) P ts rest := by
  obtain ⟨us, hts, hus, hP⟩ := h
  exact ⟨us, hts, depthAfter?_succ hus, hP⟩

theorem thenStuck (h : Steady a b P ts mid) (h' : Stuck b F mid f) :
    Stuck a (fun ts f => ∃ mid, P ts mid ∧ F mid f) ts f := by
  obtain ⟨us, rfl, hus, hP⟩ := h
  obtain ⟨ws, e, rfl, hws, hF⟩ := h'
  refine ⟨us ++ ws, e, (List.append_assoc ..).symm, ?_,
    fun t ht vs => ⟨ws ++ t :: vs, ?_, hF t ht vs⟩⟩
  · rw [depthAfter?_append, hus]
    exact hws
  · rw [List.append_assoc]
    cases ws with
    | nil => exact hP t ht vs
    | cons w ws => exact hP w rfl (ws ++ t :: vs)

end Steady

namespace Stuck

theorem here (h : ∀ t vs, f.rest.head? = some t → F (t :: vs) ⟨f.fault, t :: vs⟩) :
    Stuck d F f.rest f := ⟨[], d, rfl, rfl, fun t ht vs => h t vs ht⟩

theorem missing {wanted : Kind} (hn : nextKind ts ≠ wanted) :
    Stuck d (fun ts f => nextKind ts ≠ wanted ∧ f = LetFn.missing wanted ts) ts
      (LetFn.missing wanted ts) := by
  refine here (f := LetFn.missing wanted ts) fun t vs ht => ?_
  have hk := nextKind_eq_of_head? ht
  change nextKind ts = t.kind at hk
  rw [hk] at hn
  refine ⟨hn, ?_⟩
  rw [LetFn.missing, LetFn.missing, hk]
  rfl

theorem after {t : Token} {k : Kind} (hk : t.kind = k) (hd : k.depthAfter? a = some b)
    (h : Stuck b F ts f) : Stuck a (fun ts f => ∃ mid, ts = t :: mid ∧ F mid f) (t :: ts) f :=
  (Steady.token (depthAfter?_of_kind hk hd)).thenStuck h

theorem imp (h : Stuck d F ts f)
    (hFG : ∀ ts' f', ts' ≠ [] → nextKind ts' = nextKind ts → F ts' f' → G ts' f') :
    Stuck d G ts f := by
  obtain ⟨us, e, hts, hus, hF⟩ := h
  refine ⟨us, e, hts, hus, fun t ht vs => hFG _ _ ?_ ?_ (hF t ht vs)⟩
  · exact List.append_ne_nil_of_right_ne_nil us (List.cons_ne_nil t vs)
  · rw [hts]
    exact nextKind_append_cons ht vs

theorem succ (h : Stuck d F ts f) : Stuck (d + 1) F ts f := by
  obtain ⟨us, e, hts, hus, hF⟩ := h
  exact ⟨us, e + 1, hts, depthAfter?_succ hus, hF⟩

end Stuck

end

/-! ## Lists of items -/

/-- The items read and the failures of items are decided by the next word. -/
structure SteadyItems {α : Type} (item : List Token → α → List Token → Prop)
    (fails : List Token → Failure → Prop) : Prop where
  reads : ∀ {ts a rest}, item ts a rest → Steady 0 0 (fun ts rest => item ts a rest) ts rest
  fails : ∀ {ts f}, fails ts f → Stuck 0 fails ts f

section
variable {α : Type} {item : List Token → α → List Token → Prop}
  {fails : List Token → Failure → Prop} {ts rest : List Token}

theorem Reading.Items.steady (hitem : SteadyItems item fails) {as : List α}
    (h : Reading.Items item ts as rest) :
    Steady 0 0 (fun ts rest => Reading.Items item ts as rest) ts rest := by
  induction h with
  | stop hk =>
    refine (Steady.token (depthAfter?_of_kind hk rfl)).imp ?_
    rintro _ _ - - rfl
    exact .stop hk
  | step hk ha _ ih =>
    refine (Steady.after hk rfl ((hitem.reads ha).then ih)).imp ?_
    rintro _ _ - - ⟨_, rfl, _, ha, has⟩
    exact .step hk ha has

theorem Reading.Separated.steady (hitem : SteadyItems item fails) {as : List α}
    (h : Reading.Separated item ts as rest) :
    Steady 0 0 (fun ts rest => Reading.Separated item ts as rest) ts rest := by
  cases h with
  | none hk =>
    refine (Steady.token (depthAfter?_of_kind hk rfl)).imp ?_
    rintro _ _ - - rfl
    exact .none hk
  | some hn ha has =>
    refine ((hitem.reads ha).then (has.steady hitem)).imp ?_
    rintro _ _ hts - ⟨_, ha, has⟩
    exact .some (hts.trans_ne hn) ha has

theorem Failing.Items.stuck (hitem : SteadyItems item fails) {f : Failure}
    (h : Failing.Items item fails ts f) : Stuck 0 (Failing.Items item fails) ts f := by
  induction h with
  | stop hc hr =>
    refine (Stuck.missing hr).imp ?_
    rintro _ _ - hts ⟨hr, rfl⟩
    exact .stop (hts.trans_ne hc) hr
  | item hk hf =>
    refine (Stuck.after hk rfl (hitem.fails hf)).imp ?_
    rintro _ _ - - ⟨_, rfl, hf⟩
    exact .item hk hf
  | step hk ha _ ih =>
    refine (Stuck.after hk rfl ((hitem.reads ha).thenStuck ih)).imp ?_
    rintro _ _ - - ⟨_, rfl, _, ha, hf⟩
    exact .step hk ha hf

theorem Failing.Separated.stuck (hitem : SteadyItems item fails) {f : Failure}
    (h : Failing.Separated item fails ts f) : Stuck 0 (Failing.Separated item fails) ts f := by
  cases h with
  | first hn hf =>
    refine (hitem.fails hf).imp ?_
    rintro _ _ - hts hf
    exact .first (hts.trans_ne hn) hf
  | items hn ha hf =>
    refine ((hitem.reads ha).thenStuck (hf.stuck hitem)).imp ?_
    rintro _ _ - hts ⟨_, ha, hf⟩
    exact .items (hts.trans_ne hn) ha hf

end

theorem steadyItems_param : SteadyItems Reading.Param Failing.Param where
  reads := by
    rintro _ x rest ⟨t, rfl, hk, hx⟩
    refine (Steady.token (depthAfter?_of_kind hk rfl)).imp ?_
    rintro _ _ - - rfl
    exact ⟨t, rfl, hk, hx⟩
  fails := by
    rintro ts _ ⟨hn, rfl⟩
    exact Stuck.missing hn

/-! ## Statements -/

/-- The expressions that a rule reads and its failures are decided by the next word. -/
structure IsSteady (sub : Nat → Rule Expr) : Prop where
  reads : ∀ {floor ts e rest}, Reads (sub floor ts) e rest →
    Steady 0 0 (fun ts rest => Reads (sub floor ts) e rest) ts rest
  fails : ∀ {floor ts f}, sub floor ts = .error f →
    Stuck 0 (fun ts f => sub floor ts = .error f) ts f

section
variable {sub : Nat → Rule Expr} (hsub : IsSteady sub) {ts rest : List Token}
include hsub

theorem IsSteady.items (floor : Nat) :
    SteadyItems (fun ts e rest => Reads (sub floor ts) e rest)
      (fun ts f => sub floor ts = .error f) := ⟨hsub.reads, hsub.fails⟩

/-- Up to the semicolon that may end it, a statement is decided by the next word. -/
theorem Reading.Statement.steady {s : Stmt} (h : Reading.Statement sub ts s rest) :
    ∃ after, rest = dropSemicolon after ∧
      Steady 0 0 (fun ts after => Reading.Statement sub ts s (dropSemicolon after)) ts after := by
  cases h with
  | bind hw hx hs he =>
    refine ⟨_, rfl, (Steady.after hw rfl (.after hx rfl (.after hs rfl (hsub.reads he)))).imp ?_⟩
    rintro _ _ - - ⟨_, rfl, _, rfl, _, rfl, he⟩
    exact .bind hw hx hs he
  | ret hw he =>
    refine ⟨_, rfl, (Steady.after hw rfl (hsub.reads he)).imp ?_⟩
    rintro _ _ - - ⟨_, rfl, he⟩
    exact .ret hw he
  | expr hl hr he =>
    refine ⟨_, rfl, (hsub.reads he).imp ?_⟩
    rintro _ _ hts - he
    exact .expr (hts.trans_ne hl) (hts.trans_ne hr) he

omit hsub in
theorem Reading.Statement.exists_cons {s : Stmt} (h : Reading.Statement sub ts s rest) :
    ∃ t us, ts = t :: us := by
  cases ts with
  | nil => exact absurd (Rule.reads_statement_iff.2 h).length_lt (Nat.not_lt_zero _)
  | cons t us => exact ⟨t, us, rfl⟩

/-- Inside braces a statement may end in a semicolon. -/
theorem Reading.Statement.steady_inside {s : Stmt} (h : Reading.Statement sub ts s rest) :
    Steady 1 1 (fun ts rest => Reading.Statement sub ts s rest) ts rest := by
  obtain ⟨after, rfl, hs⟩ := h.steady hsub
  by_cases hk : nextKind after = .semicolon
  · obtain ⟨t, after, rfl, ht⟩ := exists_cons_of_nextKind (by decide) hk
    rw [dropSemicolon, if_pos ht]
    refine (hs.succ.then (Steady.token (depthAfter?_of_kind ht rfl))).imp ?_
    rintro _ _ - - ⟨_, hs, rfl⟩
    rwa [dropSemicolon, if_pos ht] at hs
  · rw [dropSemicolon_of_ne hk]
    refine hs.succ.imp ?_
    rintro _ rest' - hrest hs
    rwa [dropSemicolon_of_ne (hrest.trans_ne hk)] at hs

theorem Reading.Statements.steady {b : LetFn.Block} (h : Reading.Statements sub ts b rest) :
    Steady 1 0 (fun ts rest => Reading.Statements sub ts b rest) ts rest := by
  induction h with
  | stop hk =>
    refine (Steady.token (depthAfter?_of_kind hk rfl)).imp ?_
    rintro _ _ - - rfl
    exact .stop hk
  | step hk hs _ ih =>
    refine ((hs.steady_inside hsub).then ih).imp ?_
    rintro _ _ hts - ⟨_, hs, hss⟩
    obtain ⟨_, _, rfl⟩ := hs.exists_cons
    exact .step (hts.trans_ne hk) hs hss

theorem Reading.Block.steady {b : LetFn.Block} (h : Reading.Block sub ts b rest) :
    Steady 0 0 (fun ts rest => Reading.Block sub ts b rest) ts rest := by
  obtain ⟨l, us, rfl, hl, hs⟩ := h
  refine (Steady.after hl rfl (hs.steady hsub)).imp ?_
  rintro _ _ - - ⟨_, rfl, hs⟩
  exact ⟨_, _, rfl, hl, hs⟩

theorem Failing.Statement.stuck {f : Failure} (h : Failing.Statement sub ts f) :
    Stuck 0 (Failing.Statement sub) ts f := by
  cases h with
  | name hw hn =>
    refine (Stuck.after hw rfl (Stuck.missing hn)).imp ?_
    rintro _ _ - - ⟨_, rfl, hn, rfl⟩
    exact .name hw hn
  | sign hw hx hn =>
    refine (Stuck.after hw rfl (.after hx rfl (Stuck.missing hn))).imp ?_
    rintro _ _ - - ⟨_, rfl, _, rfl, hn, rfl⟩
    exact .sign hw hx hn
  | bind hw hx hs he =>
    refine (Stuck.after hw rfl (.after hx rfl (.after hs rfl (hsub.fails he)))).imp ?_
    rintro _ _ - - ⟨_, rfl, _, rfl, _, rfl, he⟩
    exact .bind hw hx hs he
  | ret hw he =>
    refine (Stuck.after hw rfl (hsub.fails he)).imp ?_
    rintro _ _ - - ⟨_, rfl, he⟩
    exact .ret hw he
  | expr hl hr he =>
    refine (hsub.fails he).imp ?_
    rintro _ _ - hts he
    exact .expr (hts.trans_ne hl) (hts.trans_ne hr) he

theorem Failing.Statements.stuck {f : Failure} (h : Failing.Statements sub ts f) :
    Stuck 1 (Failing.Statements sub) ts f := by
  induction h with
  | stop => exact Stuck.here (f := LetFn.missing .rightBrace []) fun t vs ht => (by cases ht)
  | first hk hf =>
    refine (hf.stuck hsub).succ.imp ?_
    rintro ts' _ hne hts hf
    obtain ⟨_, _, rfl⟩ := List.exists_cons_of_ne_nil hne
    exact .first (hts.trans_ne hk) hf
  | step hk hs _ ih =>
    refine ((hs.steady_inside hsub).thenStuck ih).imp ?_
    rintro _ _ - hts ⟨_, hs, hf⟩
    obtain ⟨_, _, rfl⟩ := hs.exists_cons
    exact .step (hts.trans_ne hk) hs hf

theorem Failing.Block.stuck {f : Failure} (h : Failing.Block sub ts f) :
    Stuck 0 (Failing.Block sub) ts f := by
  cases h with
  | brace hn =>
    refine (Stuck.missing hn).imp ?_
    rintro _ _ - - ⟨hn, rfl⟩
    exact .brace hn
  | statements hl hf =>
    refine (Stuck.after hl rfl (hf.stuck hsub)).imp ?_
    rintro _ _ - - ⟨_, rfl, hf⟩
    exact .statements hl hf

/-! ## Expressions -/

theorem Reading.Links.steady {floor : Nat} {left e : Expr}
    (h : Reading.Links sub floor left ts e rest) :
    Steady 0 0 (fun ts rest => Reading.Links sub floor left ts e rest) ts rest := by
  induction h with
  | stop hs =>
    refine Steady.nil fun t vs ht => .stop ?_
    rwa [Reading.Stops, nextKind_eq_of_head? ht] at hs
  | binary hk hlt hr _ ih =>
    refine (Steady.after rfl (Token.Kind.depthAfter?_of_link hk 0)
      ((hsub.reads hr).then ih)).imp ?_
    rintro _ _ - - ⟨_, rfl, _, hr, hrest⟩
    exact .binary hk hlt hr hrest
  | call hk hlt ha _ ih =>
    refine (Steady.after rfl (Token.Kind.depthAfter?_of_link hk 0)
      ((ha.steady (hsub.items 0)).then ih)).imp ?_
    rintro _ _ - - ⟨_, rfl, _, ha, hrest⟩
    exact .call hk hlt ha hrest

theorem Failing.Links.stuck {floor : Nat} {f : Failure} (h : Failing.Links sub floor ts f) :
    Stuck 0 (Failing.Links sub floor) ts f := by
  induction h with
  | right hk hlt hf =>
    refine (Stuck.after rfl (Token.Kind.depthAfter?_of_link hk 0) (hsub.fails hf)).imp ?_
    rintro _ _ - - ⟨_, rfl, hf⟩
    exact .right hk hlt hf
  | args hk hlt hf =>
    refine (Stuck.after rfl (Token.Kind.depthAfter?_of_link hk 0)
      (hf.stuck (hsub.items 0))).imp ?_
    rintro _ _ - - ⟨_, rfl, hf⟩
    exact .args hk hlt hf
  | binary hk hlt hr _ ih =>
    refine (Stuck.after rfl (Token.Kind.depthAfter?_of_link hk 0)
      ((hsub.reads hr).thenStuck ih)).imp ?_
    rintro _ _ - - ⟨_, rfl, _, hr, hf⟩
    exact .binary hk hlt hr hf
  | call hk hlt ha _ ih =>
    refine (Stuck.after rfl (Token.Kind.depthAfter?_of_link hk 0)
      ((ha.steady (hsub.items 0)).thenStuck ih)).imp ?_
    rintro _ _ - - ⟨_, rfl, _, ha, hf⟩
    exact .call hk hlt ha hf

theorem Reading.Operand.steady {e : Expr} (h : Reading.Operand sub ts e rest) :
    Steady 0 0 (fun ts rest => Reading.Operand sub ts e rest) ts rest := by
  cases h with
  | name hk =>
    refine (Steady.token (depthAfter?_of_kind hk rfl)).imp ?_
    rintro _ _ - - rfl
    exact .name hk
  | int hk hn =>
    refine (Steady.token (depthAfter?_of_kind hk rfl)).imp ?_
    rintro _ _ - - rfl
    exact .int hk hn
  | str hk =>
    refine (Steady.token (depthAfter?_of_kind hk rfl)).imp ?_
    rintro _ _ - - rfl
    exact .str hk
  | yes hk =>
    refine (Steady.token (depthAfter?_of_kind hk rfl)).imp ?_
    rintro _ _ - - rfl
    exact .yes hk
  | no hk =>
    refine (Steady.token (depthAfter?_of_kind hk rfl)).imp ?_
    rintro _ _ - - rfl
    exact .no hk
  | not hk he =>
    refine (Steady.after hk rfl (hsub.reads he)).imp ?_
    rintro _ _ - - ⟨_, rfl, he⟩
    exact .not hk he
  | negate hk he =>
    refine (Steady.after hk rfl (hsub.reads he)).imp ?_
    rintro _ _ - - ⟨_, rfl, he⟩
    exact .negate hk he
  | group hl he hr =>
    refine (Steady.after hl rfl
      ((hsub.reads he).then (Steady.token (depthAfter?_of_kind hr rfl)))).imp ?_
    rintro _ _ - - ⟨_, rfl, _, he, rfl⟩
    exact .group hl he hr
  | cond hw hl htest hr hyes hn =>
    refine (Steady.after hw rfl (.after hl rfl ((hsub.reads htest).then
        (.after hr rfl (hyes.steady hsub))))).imp ?_
    rintro _ _ - hrest ⟨_, rfl, _, rfl, _, htest, _, rfl, hyes⟩
    exact .cond hw hl htest hr hyes (hrest.trans_ne hn)
  | condElse hw hl htest hr hyes ho hno =>
    refine (Steady.after hw rfl (.after hl rfl ((hsub.reads htest).then
        (.after hr rfl ((hyes.steady hsub).then
          (.after ho rfl (hno.steady hsub))))))).imp ?_
    rintro _ _ - - ⟨_, rfl, _, rfl, _, htest, _, rfl, _, hyes, _, rfl, hno⟩
    exact .condElse hw hl htest hr hyes ho hno
  | fn hw hl hxs hb =>
    refine (Steady.after hw rfl (.after hl rfl
      ((hxs.steady steadyItems_param).then (hb.steady hsub)))).imp ?_
    rintro _ _ - - ⟨_, rfl, _, rfl, _, hxs, hb⟩
    exact .fn hw hl hxs hb

theorem Failing.Operand.stuck {f : Failure} (h : Failing.Operand sub ts f) :
    Stuck 0 (Failing.Operand sub) ts f := by
  cases h with
  | start hn =>
    refine Stuck.here (f := ⟨.noOperand (nextKind ts), ts⟩) fun t vs ht => ?_
    rw [nextKind_eq_of_head? ht] at hn ⊢
    exact .start hn
  | int hk hn =>
    refine Stuck.here (f := ⟨.oversizedInteger _, _ :: _⟩) fun t vs ht => ?_
    obtain rfl := Option.some.inj ht
    exact .int hk hn
  | sign hk hf =>
    have hd := hk.elim (depthAfter?_of_kind · (d := 0) rfl) (depthAfter?_of_kind · rfl)
    refine (Stuck.after rfl hd (hsub.fails hf)).imp ?_
    rintro _ _ - - ⟨_, rfl, hf⟩
    exact .sign hk hf
  | group hl hf =>
    refine (Stuck.after hl rfl (hsub.fails hf)).imp ?_
    rintro _ _ - - ⟨_, rfl, hf⟩
    exact .group hl hf
  | groupEnd hl he hn =>
    refine (Stuck.after hl rfl ((hsub.reads he).thenStuck (Stuck.missing hn))).imp ?_
    rintro _ _ - - ⟨_, rfl, _, he, hn, rfl⟩
    exact .groupEnd hl he hn
  | condOpen hw hn =>
    refine (Stuck.after hw rfl (Stuck.missing hn)).imp ?_
    rintro _ _ - - ⟨_, rfl, hn, rfl⟩
    exact .condOpen hw hn
  | condTest hw hl hf =>
    refine (Stuck.after hw rfl (.after hl rfl (hsub.fails hf))).imp ?_
    rintro _ _ - - ⟨_, rfl, _, rfl, hf⟩
    exact .condTest hw hl hf
  | condClose hw hl htest hn =>
    refine (Stuck.after hw rfl (.after hl rfl
      ((hsub.reads htest).thenStuck (Stuck.missing hn)))).imp ?_
    rintro _ _ - - ⟨_, rfl, _, rfl, _, htest, hn, rfl⟩
    exact .condClose hw hl htest hn
  | condYes hw hl htest hr hf =>
    refine (Stuck.after hw rfl (.after hl rfl ((hsub.reads htest).thenStuck
        (.after hr rfl (hf.stuck hsub))))).imp ?_
    rintro _ _ - - ⟨_, rfl, _, rfl, _, htest, _, rfl, hf⟩
    exact .condYes hw hl htest hr hf
  | condNo hw hl htest hr hyes ho hf =>
    refine (Stuck.after hw rfl (.after hl rfl ((hsub.reads htest).thenStuck
        (.after hr rfl ((hyes.steady hsub).thenStuck
          (.after ho rfl (hf.stuck hsub))))))).imp ?_
    rintro _ _ - - ⟨_, rfl, _, rfl, _, htest, _, rfl, _, hyes, _, rfl, hf⟩
    exact .condNo hw hl htest hr hyes ho hf
  | fnOpen hw hn =>
    refine (Stuck.after hw rfl (Stuck.missing hn)).imp ?_
    rintro _ _ - - ⟨_, rfl, hn, rfl⟩
    exact .fnOpen hw hn
  | fnParams hw hl hf =>
    refine (Stuck.after hw rfl (.after hl rfl (hf.stuck steadyItems_param))).imp ?_
    rintro _ _ - - ⟨_, rfl, _, rfl, hf⟩
    exact .fnParams hw hl hf
  | fnBody hw hl hxs hf =>
    refine (Stuck.after hw rfl (.after hl rfl
      ((hxs.steady steadyItems_param).thenStuck (hf.stuck hsub)))).imp ?_
    rintro _ _ - - ⟨_, rfl, _, rfl, _, hxs, hf⟩
    exact .fnBody hw hl hxs hf

end

/-- The rule for expressions is steady: what it reads, or fails at, is decided by the next word. -/
theorem isSteady_expr (n : Nat) : IsSteady (Rule.expr n) := by
  -- on the levels: each rule is steady if the one for the expressions inside of it is
  induction n with
  | zero =>
    refine ⟨fun h => absurd h Reads.not_error, fun h => ?_⟩
    obtain rfl := Except.error.inj h
    exact Stuck.here (f := ⟨.tooDeep nestingLimit, _⟩) fun t vs _ => rfl
  | succ n ih =>
    refine ⟨fun h => ?_, fun h => ?_⟩
    · obtain ⟨left, mid, hleft, hlinks⟩ := Rule.reads_expr_iff.1 h
      refine ((hleft.steady ih).then (hlinks.steady ih)).imp ?_
      exact fun _ _ _ _ ⟨mid, hleft, hlinks⟩ => Rule.reads_expr_iff.2 ⟨left, mid, hleft, hlinks⟩
    · rcases Rule.expr_eq_error_iff.1 h with hf | ⟨left, mid, hleft, hf⟩
      · exact (hf.stuck ih).imp fun _ _ _ _ hf => Rule.expr_eq_error_iff.2 (.inl hf)
      · refine ((hleft.steady ih).thenStuck (hf.stuck ih)).imp ?_
        exact fun _ _ _ _ ⟨mid, hleft, hf⟩ =>
          Rule.expr_eq_error_iff.2 (.inr ⟨left, mid, hleft, hf⟩)

end LetFn
