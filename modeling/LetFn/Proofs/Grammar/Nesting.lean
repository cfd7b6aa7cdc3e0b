import LetFn.Proofs.Grammar.Exact

/-!
# Deeper nesting and one tree

What the grammar derives at one limit of nesting it derives at every higher one, and no words
spell two trees.

* `Grammar.Statements.imp`, `Grammar.Chain.imp` and their like: a derivation goes over to any larger
  set of expressions that may stand inside.
* `Grammar.Expression.holds_of_chain`: what holds of every chain over it holds of every expression.
* `Grammar.Nested`: the expressions nested at any depth; `Grammar.Statements.exists_depth` and its
  like say that each derivation over them needs some finite depth only.
* `Grammar.Derives.mono`, `Grammar.Derives.unique`: a higher limit, and one program for some words.
-/

namespace LetFn.Grammar
open Token (Kind)

/-! ## More that may stand inside -/

section
variable {inside more : List Tier → List Token → Expr → Prop} {ts : List Token}

theorem Separated.imp {α : Type} {item item' : List Token → α → Prop} {as : List α}
    (hitem : ∀ ts a, item ts a → item' ts a) (h : Separated item ts as) :
    Separated item' ts as := by
  induction h with
  | nil => exact .nil
  | one ha => exact .one (hitem _ _ ha)
  | cons ha hc _ ih => exact .cons (hitem _ _ ha) hc ih

variable (hmore : ∀ tiers ts e, inside tiers ts e → more tiers ts e)
include hmore

theorem Statement.imp {s : Stmt} (h : Statement inside ts s) : Statement more ts s := by
  cases h with
  | bind hw hx hs he => exact .bind hw hx hs (hmore _ _ _ he)
  | ret hw he => exact .ret hw (hmore _ _ _ he)
  | expr he => exact .expr (hmore _ _ _ he)

theorem Statements.imp {b : Block} (h : Statements inside ts b) : Statements more ts b := by
  induction h with
  | nil => exact .nil
  | closed hs hk _ ih => exact .closed (hs.imp hmore) hk ih
  | «open» hs hk _ ih => exact .open (hs.imp hmore) hk ih

theorem InBraces.imp {b : Block} (h : InBraces inside ts b) : InBraces more ts b := by
  cases h with
  | mk hl hb hr => exact .mk hl (hb.imp hmore) hr

theorem Primary.imp {e : Expr} (h : Primary inside ts e) : Primary more ts e := by
  cases h with
  | name hk => exact .name hk
  | int hk hn => exact .int hk hn
  | str hk => exact .str hk
  | yes hk => exact .yes hk
  | no hk => exact .no hk
  | group hl he hr => exact .group hl (hmore _ _ _ he) hr
  | cond hw hl he hr hy => exact .cond hw hl (hmore _ _ _ he) hr (hy.imp hmore)
  | condElse hw hl he hr hy ho hn =>
    exact .condElse hw hl (hmore _ _ _ he) hr (hy.imp hmore) ho (hn.imp hmore)
  | fn hw hl hxs hr hb => exact .fn hw hl hxs hr (hb.imp hmore)

theorem Call.imp {e : Expr} (h : Call inside ts e) : Call more ts e := by
  induction h with
  | primary hp => exact .primary (hp.imp hmore)
  | call _ hl has hr ih => exact .call ih hl (has.imp (hmore tiers)) hr

theorem Unary.imp {e : Expr} (h : Unary inside ts e) : Unary more ts e := by
  cases h with
  | call hc => exact .call (hc.imp hmore)
  | not hk he => exact .not hk (hmore _ _ _ he)
  | negate hk he => exact .negate hk (hmore _ _ _ he)

theorem Chain.imp {e : Expr} {tiers : List Tier} (h : Chain inside tiers ts e) :
    Chain more tiers ts e := by
  induction h with
  | unary hu => exact .unary (hu.imp hmore)
  | first _ ih => exact .first ih
  | more _ hop he ih => exact .more ih hop (hmore _ _ _ he)

end

/-! ## Limits of nesting -/

/-- What holds of every chain over it holds of every expression. -/
theorem Expression.holds_of_chain {holds : List Tier → List Token → Expr → Prop}
    (hchain : ∀ tiers ts e, Chain holds tiers ts e → holds tiers ts e) (n : Nat)
    (tiers : List Tier) (ts : List Token) (e : Expr) (h : Expression n tiers ts e) :
    holds tiers ts e := by
  induction n generalizing tiers ts e with
  | zero => exact absurd h id
  | succ n ih => exact hchain tiers ts e (Chain.imp ih h)

theorem Expression.mono {m n : Nat} (hmn : m ≤ n) (tiers : List Tier) (ts : List Token) (e : Expr)
    (h : Expression m tiers ts e) : Expression n tiers ts e := by
  induction m generalizing n tiers ts e with
  | zero => exact absurd h id
  | succ m ih =>
    cases n with
    | zero => exact absurd hmn (Nat.not_succ_le_zero m)
    | succ n => exact Chain.imp (ih (Nat.le_of_succ_le_succ hmn)) h

theorem Derives.mono {m n : Nat} {ts : List Token} {p : Program} (h : Derives m ts p)
    (hmn : m ≤ n) : Derives n ts p := Statements.imp (Expression.mono hmn) h

/-! ## Any nesting -/

/-- The expressions nested at any depth. -/
def Nested (tiers : List Tier) (ts : List Token) (e : Expr) : Prop :=
  ∃ n, Expression n tiers ts e

section
variable {ts : List Token}

theorem Statement.exists_depth {s : Stmt} (h : Statement Nested ts s) :
    ∃ n, Statement (Expression n) ts s := by
  cases h with
  | bind hw hx hs he =>
    obtain ⟨n, he⟩ := he
    exact ⟨n, .bind hw hx hs he⟩
  | ret hw he =>
    obtain ⟨n, he⟩ := he
    exact ⟨n, .ret hw he⟩
  | expr he =>
    obtain ⟨n, he⟩ := he
    exact ⟨n, .expr he⟩

theorem Statements.exists_depth {b : Block} (h : Statements Nested ts b) :
    ∃ n, Statements (Expression n) ts b := by
  induction h with
  | nil => exact ⟨0, .nil⟩
  | closed hs hk _ ih =>
    obtain ⟨m, hs⟩ := hs.exists_depth
    obtain ⟨n, ih⟩ := ih
    exact ⟨max m n, .closed (hs.imp (Expression.mono (Nat.le_max_left m n))) hk
      (ih.imp (Expression.mono (Nat.le_max_right m n)))⟩
  | «open» hs hk _ ih =>
    obtain ⟨m, hs⟩ := hs.exists_depth
    obtain ⟨n, ih⟩ := ih
    exact ⟨max m n, .open (hs.imp (Expression.mono (Nat.le_max_left m n))) hk
      (ih.imp (Expression.mono (Nat.le_max_right m n)))⟩

theorem InBraces.exists_depth {b : Block} (h : InBraces Nested ts b) :
    ∃ n, InBraces (Expression n) ts b := by
  cases h with
  | mk hl hb hr =>
    obtain ⟨n, hb⟩ := hb.exists_depth
    exact ⟨n, .mk hl hb hr⟩

theorem Separated.exists_depth {es : List Expr} (h : Separated (Nested tiers) ts es) :
    ∃ n, Separated (Expression n tiers) ts es := by
  induction h with
  | nil => exact ⟨0, .nil⟩
  | one he =>
    obtain ⟨n, he⟩ := he
    exact ⟨n, .one he⟩
  | cons he hc _ ih =>
    obtain ⟨m, he⟩ := he
    obtain ⟨n, ih⟩ := ih
    exact ⟨max m n, .cons (Expression.mono (Nat.le_max_left m n) _ _ _ he) hc
      (ih.imp (Expression.mono (Nat.le_max_right m n) tiers))⟩

theorem Primary.exists_depth {e : Expr} (h : Primary Nested ts e) :
    ∃ n, Primary (Expression n) ts e := by
  cases h with
  | name hk => exact ⟨0, .name hk⟩
  | int hk hn => exact ⟨0, .int hk hn⟩
  | str hk => exact ⟨0, .str hk⟩
  | yes hk => exact ⟨0, .yes hk⟩
  | no hk => exact ⟨0, .no hk⟩
  | group hl he hr =>
    obtain ⟨n, he⟩ := he
    exact ⟨n, .group hl he hr⟩
  | cond hw hl he hr hy =>
    obtain ⟨m, he⟩ := he
    obtain ⟨n, hy⟩ := hy.exists_depth
    exact ⟨max m n, .cond hw hl (Expression.mono (Nat.le_max_left m n) _ _ _ he) hr
      (hy.imp (Expression.mono (Nat.le_max_right m n)))⟩
  | condElse hw hl he hr hy ho hno =>
    obtain ⟨k, he⟩ := he
    obtain ⟨m, hy⟩ := hy.exists_depth
    obtain ⟨n, hno⟩ := hno.exists_depth
    have hk : k ≤ max k (max m n) := Nat.le_max_left _ _
    have hm : m ≤ max k (max m n) := Nat.le_trans (Nat.le_max_left m n) (Nat.le_max_right k _)
    have hn : n ≤ max k (max m n) := Nat.le_trans (Nat.le_max_right m n) (Nat.le_max_right k _)
    exact ⟨max k (max m n), .condElse hw hl (Expression.mono hk _ _ _ he) hr
      (hy.imp (Expression.mono hm)) ho (hno.imp (Expression.mono hn))⟩
  | fn hw hl hxs hr hb =>
    obtain ⟨n, hb⟩ := hb.exists_depth
    exact ⟨n, .fn hw hl hxs hr hb⟩

theorem Call.exists_depth {e : Expr} (h : Call Nested ts e) : ∃ n, Call (Expression n) ts e := by
  induction h with
  | primary hp =>
    obtain ⟨n, hp⟩ := hp.exists_depth
    exact ⟨n, .primary hp⟩
  | call _ hl has hr ih =>
    obtain ⟨m, ih⟩ := ih
    obtain ⟨n, has⟩ := has.exists_depth
    exact ⟨max m n, .call (ih.imp (Expression.mono (Nat.le_max_left m n))) hl
      (has.imp (Expression.mono (Nat.le_max_right m n) tiers)) hr⟩

theorem Unary.exists_depth {e : Expr} (h : Unary Nested ts e) :
    ∃ n, Unary (Expression n) ts e := by
  cases h with
  | call hc =>
    obtain ⟨n, hc⟩ := hc.exists_depth
    exact ⟨n, .call hc⟩
  | not hk he =>
    obtain ⟨n, he⟩ := he
    exact ⟨n, .not hk he⟩
  | negate hk he =>
    obtain ⟨n, he⟩ := he
    exact ⟨n, .negate hk he⟩

theorem Chain.exists_depth {e : Expr} {tiers : List Tier} (h : Chain Nested tiers ts e) :
    ∃ n, Chain (Expression n) tiers ts e := by
  induction h with
  | unary hu =>
    obtain ⟨n, hu⟩ := hu.exists_depth
    exact ⟨n, .unary hu⟩
  | first _ ih =>
    obtain ⟨n, ih⟩ := ih
    exact ⟨n, .first ih⟩
  | more _ hop he ih =>
    obtain ⟨m, ih⟩ := ih
    obtain ⟨n, he⟩ := he
    exact ⟨max m n, .more (ih.imp (Expression.mono (Nat.le_max_left m n))) hop
      (Expression.mono (Nat.le_max_right m n) _ _ _ he)⟩

/-- A chain over expressions nested at any depth is one itself. -/
theorem Chain.nested {e : Expr} {tiers : List Tier} (h : Chain Nested tiers ts e) :
    Nested tiers ts e := by
  obtain ⟨n, h⟩ := h.exists_depth
  exact ⟨n + 1, h⟩

end

end LetFn.Grammar

/-! ## One tree -/

namespace LetFn
open Grammar

theorem Reads.unique {α : Type} {n : Nat} {r : Except Failure (Parsed α n)} {a b : α}
    {rest rest' : List Token} (h : Reads r a rest) (h' : Reads r b rest') :
    a = b ∧ rest = rest' := by
  obtain ⟨_, h⟩ := h
  obtain ⟨_, h'⟩ := h'
  rw [h, Except.ok.injEq, Parsed.mk.injEq] at h'
  exact h'

/-- Rows that come to the end of the same words are the same. -/
theorem Reading.Row.unique {sub : Nat → Rule Expr} {ts : List Token} {b c : LetFn.Block}
    (h : Reading.Row sub ts b []) (h' : Reading.Row sub ts c []) : b = c := by
  generalize hrest : ([] : List Token) = rest at h
  induction h generalizing c with
  | nil =>
    subst hrest
    cases h' with
    | nil => rfl
    | cons hs _ => exact absurd (Rule.reads_statement_iff.2 hs).length_lt (Nat.not_lt_zero _)
  | cons hs _ ih =>
    have hs := Rule.reads_statement_iff.2 hs
    cases h' with
    | nil => exact absurd hs.length_lt (Nat.not_lt_zero _)
    | cons hs' hrow' =>
      obtain ⟨rfl, rfl⟩ := hs.unique (Rule.reads_statement_iff.2 hs')
      rw [ih hrow' hrest]

/-- No words spell two programs, whatever the limits of nesting. -/
theorem Grammar.Derives.unique {m n : Nat} {ts : List Token} {p q : Program} (hp : Derives m ts p)
    (hq : Derives n ts q) : p = q := by
  have hp' : Derives (max m n) ts p := hp.mono (Nat.le_max_left m n)
  have hq' : Derives (max m n) ts q := hq.mono (Nat.le_max_right m n)
  have h := Reading.Row.unique (row_iff_statements.2 hp') (row_iff_statements.2 hq')
  cases p
  cases q
  exact congrArg Program.mk h

end LetFn
