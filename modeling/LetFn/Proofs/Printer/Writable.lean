import LetFn.Proofs.Grammar.Nesting
import LetFn.Proofs.Printer.Words

/-!
# What is read can be written

The grammar takes names, numbers and strings from the words of a text, and a lexer gives no others
than the written form can carry.

* `Grammar.Writes`: the trees that can be written, if the words taken have texts fit for their
  classes; every relation of the grammar keeps to it.
* `Grammar.Derives.isWritable`, `Program.isWritable_of_parse`: programs that words spell, and
  programs that are read.
-/

namespace LetFn
open Token (Kind)

namespace Grammar

/-- Words with texts fit for their classes spell only what can be written. -/
def Writes (_ : List Tier) (ts : List Token) (e : Expr) : Prop :=
  (∀ t ∈ ts, t.IsProper) → e.isWritable = true

section
variable {ts : List Token}

theorem Statement.isWritable {s : Stmt} (h : Statement Writes ts s) (hts : ∀ t ∈ ts, t.IsProper) :
    s.isWritable = true := by
  cases h with
  | bind hw hx hs he =>
    simp only [List.forall_mem_cons] at hts
    obtain ⟨-, hname, -, hts⟩ := hts
    rw [Stmt.isWritable, Bool.and_eq_true]
    exact ⟨hname.1 hx, he hts⟩
  | ret hw he => exact he (List.forall_mem_cons.1 hts).2
  | expr he => exact he hts

theorem Statements.isWritable {b : Block} (h : Statements Writes ts b)
    (hts : ∀ t ∈ ts, t.IsProper) : Block.isWritable b = true := by
  induction h with
  | nil => rfl
  | closed hs _ _ ih =>
    simp only [List.forall_mem_append, List.forall_mem_cons] at hts
    rw [Block.isWritable, Bool.and_eq_true]
    exact ⟨hs.isWritable hts.1, ih hts.2.2⟩
  | «open» hs _ _ ih =>
    rw [List.forall_mem_append] at hts
    rw [Block.isWritable, Bool.and_eq_true]
    exact ⟨hs.isWritable hts.1, ih hts.2⟩

theorem InBraces.isWritable {b : Block} (h : InBraces Writes ts b) (hts : ∀ t ∈ ts, t.IsProper) :
    Block.isWritable b = true := by
  cases h with
  | mk _ hb _ =>
    simp only [List.forall_mem_append, List.forall_mem_cons] at hts
    exact hb.isWritable hts.1.2

theorem Separated.all_isIdentifier {xs : List String} (h : Separated Param ts xs)
    (hts : ∀ t ∈ ts, t.IsProper) : xs.all isIdentifier = true := by
  have hone : ∀ {ts : List Token} {x : String}, Param ts x → (∀ t ∈ ts, t.IsProper) →
      isIdentifier x = true := by
    rintro ts x ⟨t, rfl, hk, rfl⟩ hts
    exact (hts t List.mem_cons_self).1 hk
  induction h with
  | nil => rfl
  | one hx => rw [List.all_cons, hone hx hts]; rfl
  | cons hx _ _ ih =>
    simp only [List.forall_mem_append, List.forall_mem_cons] at hts
    rw [List.all_cons, hone hx hts.1, ih hts.2.2]
    rfl

theorem Separated.areWritable {es : List Expr} (h : Separated (Writes tiers) ts es)
    (hts : ∀ t ∈ ts, t.IsProper) : Expr.areWritable es = true := by
  induction h with
  | nil => rfl
  | one he => rw [Expr.areWritable, he hts]; rfl
  | cons he _ _ ih =>
    simp only [List.forall_mem_append, List.forall_mem_cons] at hts
    rw [Expr.areWritable, he hts.1, ih hts.2.2]
    rfl

theorem Primary.isWritable {e : Expr} (h : Primary Writes ts e) (hts : ∀ t ∈ ts, t.IsProper) :
    e.isWritable = true := by
  cases h with
  | name hk => exact (hts _ List.mem_cons_self).1 hk
  | int hk hn =>
    rw [Expr.isWritable, Int64.toInt_ofNat_of_lt (by omega)]
    exact decide_eq_true (Int.natCast_nonneg _)
  | str hk => exact decide_eq_true ((hts _ List.mem_cons_self).2 hk)
  | yes => rfl
  | no => rfl
  | group _ he _ =>
    simp only [List.forall_mem_append, List.forall_mem_cons] at hts
    exact he hts.1.2
  | cond _ _ he _ hy =>
    simp only [List.forall_mem_append, List.forall_mem_cons] at hts
    obtain ⟨⟨-, -, hts⟩, -, hus⟩ := hts
    rw [Expr.isWritable, Bool.and_eq_true]
    exact ⟨he hts, hy.isWritable hus⟩
  | condElse _ _ he _ hy _ hn =>
    simp only [List.forall_mem_append, List.forall_mem_cons] at hts
    obtain ⟨⟨⟨-, -, hts⟩, -, hus⟩, -, hvs⟩ := hts
    rw [Expr.isWritable, Bool.and_eq_true, Bool.and_eq_true]
    exact ⟨⟨he hts, hy.isWritable hus⟩, hn.isWritable hvs⟩
  | fn _ _ hxs _ hb =>
    simp only [List.forall_mem_append, List.forall_mem_cons] at hts
    obtain ⟨⟨-, -, hts⟩, -, hus⟩ := hts
    rw [Expr.isWritable, Bool.and_eq_true]
    exact ⟨hxs.all_isIdentifier hts, hb.isWritable hus⟩

theorem Call.isWritable {e : Expr} (h : Call Writes ts e) (hts : ∀ t ∈ ts, t.IsProper) :
    e.isWritable = true := by
  induction h with
  | primary hp => exact hp.isWritable hts
  | call _ _ has _ ih =>
    simp only [List.forall_mem_append, List.forall_mem_cons] at hts
    rw [Expr.isWritable, Bool.and_eq_true]
    exact ⟨ih hts.1.1, has.areWritable hts.1.2.2⟩

theorem Unary.isWritable {e : Expr} (h : Unary Writes ts e) (hts : ∀ t ∈ ts, t.IsProper) :
    e.isWritable = true := by
  cases h with
  | call hc => exact hc.isWritable hts
  | not _ he => exact he (List.forall_mem_cons.1 hts).2
  | negate _ he => exact he (List.forall_mem_cons.1 hts).2

theorem Chain.writes (tiers : List Tier) (ts : List Token) (e : Expr)
    (h : Chain Writes tiers ts e) : Writes tiers ts e := by
  intro hts
  induction h with
  | unary hu => exact hu.isWritable hts
  | first _ ih => exact ih hts
  | more _ _ he ih =>
    simp only [List.forall_mem_append, List.forall_mem_cons] at hts
    rw [Expr.isWritable, Bool.and_eq_true]
    exact ⟨ih hts.1, he hts.2.2⟩

theorem Derives.isWritable {n : Nat} {p : Program} (h : Derives n ts p)
    (hts : ∀ t ∈ ts, t.IsProper) : p.IsWritable :=
  Statements.isWritable (h.imp (Expression.holds_of_chain Chain.writes n)) hts

end

end Grammar

theorem Lexer.isProper_of_mem_dropLast {text : String} :
    ∀ t ∈ (Lexer.ofText text).tokens.dropLast, t.IsProper := fun _ ht =>
  Lexer.isProper_of_mem_tokens (List.dropLast_subset _ ht)

/-- Every program that is read can be written. -/
theorem Program.isWritable_of_parse {text : String} {p : Program} (h : parse text = .ok p) :
    p.IsWritable := by
  rw [parse, ofWords_eq_ok_iff] at h
  exact Grammar.Derives.isWritable (row_iff_statements.1 h) Lexer.isProper_of_mem_dropLast

end LetFn
