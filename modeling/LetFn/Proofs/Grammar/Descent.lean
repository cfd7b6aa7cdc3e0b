import LetFn.Proofs.Printer.RoundTrip

/-!
# How far an accepted text descends

The limit of nesting counts the expressions that are read inside one another. A left operand and a
callee are read on the level of the whole, so a descent into the tree is bounded by the limit and by
the number of its steps to these, and by no less.

* `Expr.Leads`, `Expr.Holds`: the direct sub-expressions on the level of the whole, and those on the
  next level.
* `Expr.Descent`, `Program.Descent`: chains of nested expressions, by their length and by how many
  of their steps stay on one level.
* `Expr.Shallow`: no descent takes more levels than some bound; `Grammar.Expression.shallow` says so
  of what the grammar derives.
* `Program.exists_parse_descent_iff`: the descents that some accepted text has.
-/

namespace LetFn
open Token (Kind)
open Grammar

/-! ## Descents -/

/-- The expression of a statement. -/
def Stmt.value : Stmt → Expr
  | .bind _ e => e
  | .ret e => e
  | .expr e => e

/-- A left operand and a callee stand on the level of the whole. -/
inductive Expr.Leads : Expr → Expr → Prop
  | left {op : BinaryOp} {l r : Expr} : Leads (.binary op l r) l
  | callee {f : Expr} {as : List Expr} : Leads (.call f as) f

/-- Every other sub-expression stands on the next level. -/
inductive Expr.Holds : Expr → Expr → Prop
  | operand {op : UnaryOp} {e : Expr} : Holds (.unary op e) e
  | right {op : BinaryOp} {l r : Expr} : Holds (.binary op l r) r
  | test {t : Expr} {y : Block} {no : Option Block} : Holds (.cond t y no) t
  | yes {t : Expr} {y : Block} {no : Option Block} {s : Stmt} : s ∈ y → Holds (.cond t y no) s.value
  | no {t : Expr} {y n : Block} {s : Stmt} : s ∈ n → Holds (.cond t y (some n)) s.value
  | body {xs : List String} {b : Block} {s : Stmt} : s ∈ b → Holds (.fn xs b) s.value
  | arg {f a : Expr} {as : List Expr} : a ∈ as → Holds (.call f as) a

/-- A chain of nested expressions from `e` inwards has `n` expressions, and `k` of its steps stay on
one level. -/
inductive Expr.Descent : Expr → Nat → Nat → Prop
  | here (e : Expr) : Descent e 1 0
  | lead {e f : Expr} {n k : Nat} : e.Leads f → Descent f n k → Descent e (n + 1) (k + 1)
  | into {e f : Expr} {n k : Nat} : e.Holds f → Descent f n k → Descent e (n + 1) k

/-- A chain of nested expressions from one of the statements of a program inwards. -/
def Program.Descent (p : Program) (n k : Nat) : Prop := ∃ s ∈ p.statements, s.value.Descent n k

theorem Expr.Descent.lt {e : Expr} {n k : Nat} (h : e.Descent n k) : k < n := by
  induction h with
  | here => exact Nat.one_pos
  | lead _ _ ih => omega
  | into _ _ ih => omega

/-! ## What is derived descends no further than the limit -/

/-- No chain of nested expressions takes more than `levels` levels. -/
def Expr.Shallow (levels : Nat) (e : Expr) : Prop := ∀ n k, e.Descent n k → n ≤ levels + k

/-- Every statement's expression is shallow. -/
def Block.Shallow (levels : Nat) (b : Block) : Prop := ∀ s ∈ b, s.value.Shallow levels

theorem Expr.Shallow.mono {m n : Nat} {e : Expr} (h : e.Shallow m) (hmn : m ≤ n) :
    e.Shallow n := by
  intro l k hd
  have hl := h l k hd
  omega

theorem Expr.Shallow.of_parts {levels : Nat} {e : Expr}
    (hleads : ∀ f, e.Leads f → f.Shallow (levels + 1))
    (hholds : ∀ f, e.Holds f → f.Shallow levels) : e.Shallow (levels + 1) := by
  intro n k hd
  cases hd with
  | here => omega
  | lead hf hd =>
    have hn := hleads _ hf _ _ hd
    omega
  | into hf hd =>
    have hn := hholds _ hf _ _ hd
    omega

namespace Grammar

theorem Separated.exists_of_mem {α : Type} {item : List Token → α → Prop} {ts : List Token}
    {as : List α} (h : Separated item ts as) {a : α} (ha : a ∈ as) : ∃ us, item us a := by
  induction h with
  | nil => cases ha
  | one hb =>
    rw [List.mem_singleton.1 ha]
    exact ⟨_, hb⟩
  | cons hb _ _ ih =>
    rcases List.mem_cons.1 ha with rfl | ha
    · exact ⟨_, hb⟩
    · exact ih ha

section
variable {inside : List Tier → List Token → Expr → Prop} {levels : Nat} {ts : List Token}
  (hinside : ∀ tiers ts e, inside tiers ts e → e.Shallow levels)
include hinside

theorem Statement.shallow {s : Stmt} (h : Statement inside ts s) : s.value.Shallow levels := by
  cases h with
  | bind _ _ _ he => exact hinside _ _ _ he
  | ret _ he => exact hinside _ _ _ he
  | expr he => exact hinside _ _ _ he

theorem Statements.shallow {b : Block} (h : Statements inside ts b) : Block.Shallow levels b := by
  induction h with
  | nil => exact List.forall_mem_nil _
  | closed hs _ _ ih => exact List.forall_mem_cons.2 ⟨hs.shallow hinside, ih⟩
  | «open» hs _ _ ih => exact List.forall_mem_cons.2 ⟨hs.shallow hinside, ih⟩

theorem InBraces.shallow {b : Block} (h : InBraces inside ts b) : Block.Shallow levels b := by
  cases h with
  | mk _ hb _ => exact hb.shallow hinside

theorem Primary.shallow {e : Expr} (h : Primary inside ts e) : e.Shallow (levels + 1) := by
  cases h with
  | group _ he _ => exact (hinside _ _ _ he).mono (Nat.le_succ levels)
  | name | int | str | yes | no =>
    refine .of_parts (fun f hf => ?_) fun f hf => ?_
    · cases hf
    · cases hf
  | cond _ _ he _ hy =>
    refine .of_parts (fun f hf => by cases hf) fun f hf => ?_
    cases hf with
    | test => exact hinside _ _ _ he
    | yes hs => exact hy.shallow hinside _ hs
  | condElse _ _ he _ hy _ hn =>
    refine .of_parts (fun f hf => by cases hf) fun f hf => ?_
    cases hf with
    | test => exact hinside _ _ _ he
    | yes hs => exact hy.shallow hinside _ hs
    | no hs => exact hn.shallow hinside _ hs
  | fn _ _ _ _ hb =>
    refine .of_parts (fun f hf => by cases hf) fun f hf => ?_
    cases hf with
    | body hs => exact hb.shallow hinside _ hs

theorem Call.shallow {e : Expr} (h : Call inside ts e) : e.Shallow (levels + 1) := by
  induction h with
  | primary hp => exact hp.shallow hinside
  | call _ _ has _ ih =>
    refine .of_parts (fun f hf => ?_) fun f hf => ?_
    · cases hf with
      | callee => exact ih
    · cases hf with
      | arg ha =>
        obtain ⟨us, he⟩ := has.exists_of_mem ha
        exact hinside _ _ _ he

theorem Unary.shallow {e : Expr} (h : Unary inside ts e) : e.Shallow (levels + 1) := by
  cases h with
  | call hc => exact hc.shallow hinside
  | not _ he | negate _ he =>
    refine .of_parts (fun f hf => by cases hf) fun f hf => ?_
    cases hf with
    | operand => exact hinside _ _ _ he

theorem Chain.shallow {e : Expr} {tiers : List Tier} (h : Chain inside tiers ts e) :
    e.Shallow (levels + 1) := by
  induction h with
  | unary hu => exact hu.shallow hinside
  | first _ ih => exact ih
  | more _ _ he ih =>
    refine .of_parts (fun f hf => ?_) fun f hf => ?_
    · cases hf with
      | left => exact ih
    · cases hf with
      | right => exact hinside _ _ _ he

end

/-- What is derived at a limit of nesting takes no more levels than that. -/
theorem Expression.shallow (n : Nat) (tiers : List Tier) (ts : List Token) (e : Expr)
    (h : Expression n tiers ts e) : e.Shallow n := by
  induction n generalizing tiers ts e with
  | zero => exact absurd h id
  | succ n ih => exact Chain.shallow ih h

theorem Derives.descent_le {m n k : Nat} {ts : List Token} {p : Program} (h : Derives m ts p)
    (hd : p.Descent n k) : n ≤ m + k := by
  obtain ⟨s, hs, hd⟩ := hd
  exact Statements.shallow (Expression.shallow m) h s hs n k hd

end Grammar

/-! ## A text for each descent -/

/-- A function called `k` times in a row. -/
def Expr.callTimes (f : Expr) : Nat → Expr
  | 0 => f
  | k + 1 => .call (f.callTimes k) []

/-- An expression behind `n` signs. -/
def Expr.negateTimes (e : Expr) : Nat → Expr
  | 0 => e
  | n + 1 => .unary .negate (e.negateTimes n)

theorem Expr.descent_callTimes (f : Expr) (k : Nat) : (f.callTimes k).Descent (k + 1) k := by
  induction k with
  | zero => exact .here f
  | succ k ih => exact .lead .callee ih

theorem Expr.Descent.negateTimes {e : Expr} {n k : Nat} (h : e.Descent n k) (m : Nat) :
    (e.negateTimes m).Descent (n + m) k := by
  induction m with
  | zero => exact h
  | succ m ih => exact .into .operand ih

/-- The words of a name called `k` times need one level only. -/
theorem Grammar.Call.of_callTimes {x : String} (inside : List Tier → List Token → Expr → Prop)
    (k : Nat) {ts : List Token} (h : ts.map Token.word = ((Expr.name x).callTimes k).words) :
    Call inside ts ((Expr.name x).callTimes k) := by
  induction k generalizing ts with
  | zero =>
    obtain ⟨t, us, rfl, hk, rfl, hus⟩ := exists_of_map_word_cons h
    rw [List.map_eq_nil_iff.1 hus]
    exact .primary (.name hk)
  | succ k ih =>
    rw [Expr.callTimes, Expr.words] at h
    obtain ⟨us, vs, rfl, hus, hvs⟩ := List.map_eq_append_iff.1 h
    obtain ⟨l, ws, r, rfl, hl, hws, hr⟩ := exists_of_map_word_inParens hvs
    rw [List.map_eq_nil_iff.1 (hws.trans (by rw [Expr.wordsAll]))]
    exact List.append_assoc us [l] [r] ▸ .call (ih hus) hl .nil hr

/-- Each sign in front needs one level more. -/
theorem Grammar.Expression.of_negateTimes {x : String} (k n : Nat) {ts : List Token}
    (h : ts.map Token.word =
      List.replicate n (.minus, "-") ++ ((Expr.name x).callTimes k).words) :
    Expression (n + 1) [] ts (((Expr.name x).callTimes k).negateTimes n) := by
  induction n generalizing ts with
  | zero => exact .unary (.call (.of_callTimes _ k h))
  | succ n ih =>
    rw [List.replicate_succ, List.cons_append] at h
    obtain ⟨t, us, rfl, ht, -, hus⟩ := exists_of_map_word_cons h
    exact .unary (.negate ht (ih hus))

/-- A name called `k` times behind `n` signs. -/
def callsBehindSigns (n k : Nat) : String :=
  String.ofList (List.replicate n '-' ++ ((Expr.name "f").callTimes k).write [])

theorem Lexer.words_signs (n : Nat) (cs : List Char) :
    words (List.replicate n '-' ++ cs) = List.replicate n (.minus, "-") ++ words cs := by
  induction n with
  | zero => rfl
  | succ n ih =>
    rw [List.replicate_succ, List.cons_append, words_cons rfl, List.replicate_succ,
      List.cons_append, ← ih]
    rfl

theorem Expr.isWritable_callTimes (k : Nat) :
    ((Expr.name "f").callTimes k).isWritable = true := by
  induction k with
  | zero => decide
  | succ k ih => rw [callTimes, isWritable, ih, areWritable]; rfl

/-- Calls stand on one level, and each sign takes another one. -/
theorem Program.parse_callsBehindSigns {n : Nat} (hn : n < nestingLimit) (k : Nat) :
    parse (callsBehindSigns n k) = .ok ⟨[.expr (((Expr.name "f").callTimes k).negateTimes n)]⟩ := by
  have hwords : (Lexer.ofText (callsBehindSigns n k)).tokens.map Token.word =
      List.replicate n (.minus, "-") ++ ((Expr.name "f").callTimes k).words ++ [(.eof, "")] := by
    have hw := Expr.words_write _ (k := []) (Expr.isWritable_callTimes k) (by simp [Apart])
    rw [Lexer.words_nil] at hw
    rw [Lexer.tokens_map_word, callsBehindSigns, String.toList_ofList, Lexer.words_signs, hw,
      List.append_assoc]
  have hdrop : (Lexer.ofText (callsBehindSigns n k)).tokens.dropLast.map Token.word =
      List.replicate n (.minus, "-") ++ ((Expr.name "f").callTimes k).words := by
    rw [List.map_dropLast, hwords, List.dropLast_concat]
  have he := Chain.widen (Nat.zero_le 4) (Expression.of_negateTimes k n hdrop)
  rw [parse, ofWords_eq_ok_iff, row_iff_statements, ← List.append_nil (List.dropLast _)]
  exact .open (.expr (Expression.mono hn tiers _ _ he)) (by simp) .nil

/-- The chains of nested expressions in accepted texts: they are longer than the limit of nesting by
as many steps to left operands and callees as they take, and by no more. -/
theorem Program.exists_parse_descent_iff (n k : Nat) :
    (∃ text p, parse text = .ok p ∧ p.Descent n k) ↔ k < n ∧ n ≤ nestingLimit + k := by
  constructor
  · rintro ⟨text, p, hp, hd⟩
    rw [parse, ofWords_eq_ok_iff, row_iff_statements] at hp
    have hlt : k < n := by
      obtain ⟨s, -, hd⟩ := hd
      exact hd.lt
    exact ⟨hlt, Derives.descent_le hp hd⟩
  · rintro ⟨hlt, hle⟩
    have hd := ((Expr.name "f").descent_callTimes k).negateTimes (n - k - 1)
    rw [show k + 1 + (n - k - 1) = n by omega] at hd
    exact ⟨_, _, parse_callsBehindSigns (by omega) k, _, List.mem_singleton_self _, hd⟩

/-- A name called as often as expressions may nest is accepted, and its callees are nested deeper. -/
theorem Program.descent_of_calls :
    parse (callsBehindSigns 0 1000) = .ok ⟨[.expr ((Expr.name "f").callTimes 1000)]⟩ ∧
      ¬ ∀ n k, Program.Descent ⟨[.expr ((Expr.name "f").callTimes 1000)]⟩ n k → n ≤ nestingLimit := by
  refine ⟨parse_callsBehindSigns (by decide) 1000, fun hle => ?_⟩
  have hd := (Expr.name "f").descent_callTimes 1000
  exact absurd (hle 1001 1000 ⟨_, List.mem_singleton_self _, hd⟩) (by decide)

end LetFn
