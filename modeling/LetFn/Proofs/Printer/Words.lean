import LetFn.Program.Printer
import LetFn.Proofs.Lexer.Words

/-!
# The words of the written form

Which words the written form of a tree is made of.

* `Expr.isWritable`, `Block.isWritable`: the trees that the written form can carry: names that no
  keyword takes, numbers without a sign, strings without a quote.
* `Expr.words`, `Stmt.words`, `Block.words`: the words of a tree.
* `Expr.opens`: the written form starts with a bracket; `Expr.head?_write` says so.
* `Expr.words_write` and its like: a lexer takes the written form apart into these words, if no
  name or number can run on into the text after it.
-/

namespace LetFn
open Token (Kind)

/-! ## What can be written -/

mutual

/-- Names that no keyword takes, numbers without a sign, strings without a quote. -/
def Expr.isWritable : Expr → Bool
  | .name x => isIdentifier x
  | .int n => decide (0 ≤ n.toInt)
  | .bool _ => true
  | .str s => decide ('"' ∉ s.toList)
  | .unary _ e => e.isWritable
  | .binary _ l r => l.isWritable && r.isWritable
  | .cond t y none => t.isWritable && Block.isWritable y
  | .cond t y (some n) => t.isWritable && Block.isWritable y && Block.isWritable n
  | .fn xs b => xs.all isIdentifier && Block.isWritable b
  | .call f as => f.isWritable && Expr.areWritable as
termination_by structural e => e

def Expr.areWritable : List Expr → Bool
  | [] => true
  | e :: es => e.isWritable && Expr.areWritable es

def Stmt.isWritable : Stmt → Bool
  | .bind x e => isIdentifier x && e.isWritable
  | .ret e => e.isWritable
  | .expr e => e.isWritable

def Block.isWritable : List Stmt → Bool
  | [] => true
  | s :: ss => s.isWritable && Block.isWritable ss

end

/-- Every name, number and string of a program can be written. -/
def Program.IsWritable (p : Program) : Prop := Block.isWritable p.statements = true

/-! ## Words of a tree -/

def UnaryOp.word : UnaryOp → Word
  | not => (.bang, "!")
  | negate => (.minus, "-")

def BinaryOp.word : BinaryOp → Word
  | add => (.plus, "+")
  | sub => (.minus, "-")
  | mul => (.star, "*")
  | div => (.slash, "/")
  | equal => (.equal, "==")
  | notEqual => (.notEqual, "!=")
  | less => (.less, "<")
  | greater => (.greater, ">")

/-- Words in round brackets. -/
def wordsInParens (ws : List Word) : List Word := (.leftParen, "(") :: (ws ++ [(.rightParen, ")")])

/-- Words in braces. -/
def wordsInBraces (ws : List Word) : List Word :=
  (.leftBrace, "\x7b") :: (ws ++ [(.rightBrace, "\x7d")])

/-- Names parted by commas. -/
def nameWords : List String → List Word
  | [] => []
  | [x] => [(.name, x)]
  | x :: xs => (.name, x) :: (.comma, ",") :: nameWords xs

mutual

def Expr.words : Expr → List Word
  | .name x => [(.name, x)]
  | .int n => [(.int, toString n.toInt)]
  | .bool true => [(.trueWord, "true")]
  | .bool false => [(.falseWord, "false")]
  | .str s => [(.string, s)]
  | .unary op e => wordsInParens (op.word :: e.words)
  | .binary op l r => wordsInParens (l.words ++ op.word :: r.words)
  | .cond t y no =>
    (.ifWord, "if") :: ((if t.isOperator then t.words else wordsInParens t.words) ++
      (wordsInBraces (Block.words y) ++
        match no with
        | none => []
        | some n => (.elseWord, "else") :: wordsInBraces (Block.words n)))
  | .fn xs b => (.fnWord, "fn") :: (wordsInParens (nameWords xs) ++ wordsInBraces (Block.words b))
  | .call f as => f.words ++ wordsInParens (Expr.wordsAll as)
termination_by structural e => e

/-- Arguments parted by commas. -/
def Expr.wordsAll : List Expr → List Word
  | [] => []
  | [e] => e.words
  | e :: es => e.words ++ (.comma, ",") :: Expr.wordsAll es

def Stmt.words : Stmt → List Word
  | .bind x e => (.letWord, "let") :: (.name, x) :: (.assign, "=") :: (e.words ++ [(.semicolon, ";")])
  | .ret e => (.returnWord, "return") :: (e.words ++ [(.semicolon, ";")])
  | .expr e => e.words

def Block.words : List Stmt → List Word
  | [] => []
  | s :: ss => s.words ++ Block.words ss

end

/-! ## The first character -/

/-- The written form starts with a bracket. -/
def Expr.opens : Expr → Bool
  | .unary .. | .binary .. => true
  | .call f _ => f.opens
  | _ => false

theorem isDecimalDigit_of_isDigit {c : Char} (h : c.isDigit = true) : isDecimalDigit c = true := by
  simp only [Char.isDigit, Bool.and_eq_true, decide_eq_true_eq] at h
  simp only [isDecimalDigit, Bool.and_eq_true, decide_eq_true_eq]
  exact h

/-- The digits of a number without a sign. -/
theorem toList_toString_of_nonneg {n : Int} (h : 0 ≤ n) :
    (toString n).toList = Nat.toDigits 10 n.toNat := by
  obtain ⟨m, rfl⟩ := Int.eq_ofNat_of_zero_le h
  show (Nat.repr m).toList = Nat.toDigits 10 (Int.toNat m)
  rw [Nat.toList_repr, Int.toNat_natCast]

theorem isDecimalDigit_of_mem_toDigits {n : Nat} :
    ∀ c ∈ Nat.toDigits 10 n, isDecimalDigit c = true := fun _ hc =>
  isDecimalDigit_of_isDigit (Nat.isDigit_of_mem_toDigits (by decide) (by decide) hc)

/-- No expression starts with a sign of equality, and `Expr.opens` tells those that start with a
bracket. -/
theorem Expr.head?_write : ∀ (e : Expr) (k : List Char), e.isWritable = true →
    ∃ c, (e.write k).head? = some c ∧ c ≠ '=' ∧ (c = '(' ↔ e.opens = true)
  | .name x, k, h => by
    obtain ⟨c, cs, rfl, hc, -⟩ := exists_of_isIdentifier h
    refine ⟨c, by rw [Expr.write, String.toList_ofList]; rfl, ?_, ?_⟩
    · intro he
      rw [he] at hc
      exact absurd hc (by decide)
    · constructor
      · intro he
        rw [he] at hc
        exact absurd hc (by decide)
      · intro he
        cases he
  | .int n, k, h => by
    have hn : 0 ≤ n.toInt := of_decide_eq_true h
    cases hd : Nat.toDigits 10 n.toInt.toNat with
    | nil => exact absurd hd Nat.toDigits_ne_nil
    | cons c cs =>
      have hc : isDecimalDigit c = true :=
        isDecimalDigit_of_mem_toDigits (n := n.toInt.toNat) c (by rw [hd]; exact List.mem_cons_self)
      refine ⟨c, by rw [Expr.write, toList_toString_of_nonneg hn, hd]; rfl, ?_, ?_⟩
      · intro he
        rw [he] at hc
        exact absurd hc (by decide)
      · constructor
        · intro he
          rw [he] at hc
          exact absurd hc (by decide)
        · intro he
          cases he
  | .bool true, k, _ => ⟨'t', rfl, by decide, by decide⟩
  | .bool false, k, _ => ⟨'f', rfl, by decide, by decide⟩
  | .str s, k, _ => ⟨'"', rfl, by decide, by simp [Expr.opens]⟩
  | .unary op e, k, _ => ⟨'(', rfl, by decide, by simp [Expr.opens]⟩
  | .binary op l r, k, _ => ⟨'(', rfl, by decide, by simp [Expr.opens]⟩
  | .cond t y no, k, _ => ⟨'i', rfl, by decide, by simp [Expr.opens]⟩
  | .fn xs b, k, _ => ⟨'f', rfl, by decide, by simp [Expr.opens]⟩
  | .call f as, k, h => by
    rw [Expr.isWritable, Bool.and_eq_true] at h
    exact f.head?_write _ h.1

/-! ## Signs -/

/-- No name or number runs on into the text. -/
def Apart (k : List Char) : Prop := ∀ c ∈ k.head?, isNameChar c = false

theorem apart_cons {c : Char} (h : isNameChar c = false) (k : List Char) : Apart (c :: k) := by
  intro d hd
  rw [List.head?_cons, Option.mem_some_iff] at hd
  rwa [← hd]

theorem Apart.not_digit {k : List Char} (h : Apart k) :
    ∀ c ∈ k.head?, isDecimalDigit c = false := by
  intro c hc
  have hn := h c hc
  rw [isNameChar, Bool.or_eq_false_iff] at hn
  exact hn.2

namespace Lexer

theorem words_leftParen (k : List Char) : words ('(' :: k) = (.leftParen, "(") :: words k :=
  words_cons rfl k

theorem words_rightParen (k : List Char) : words (')' :: k) = (.rightParen, ")") :: words k :=
  words_cons rfl k

theorem words_leftBrace (k : List Char) : words ('{' :: k) = (.leftBrace, "\x7b") :: words k :=
  words_cons rfl k

theorem words_rightBrace (k : List Char) : words ('}' :: k) = (.rightBrace, "\x7d") :: words k :=
  words_cons rfl k

theorem words_comma (k : List Char) : words (',' :: k) = (.comma, ",") :: words k :=
  words_cons rfl k

theorem words_semicolon (k : List Char) : words (';' :: k) = (.semicolon, ";") :: words k :=
  words_cons rfl k

theorem words_unary (op : UnaryOp) {k : List Char} (hk : k.head? ≠ some '=') :
    words (op.sign ++ k) = op.word :: words k := by
  cases op with
  | negate => exact words_cons rfl k
  | not =>
    have hs : Lexeme.scan '!' k = (⟨.bang, ['!']⟩, k) := by
      rw [Lexeme.scan, if_neg (by decide), if_neg (by decide), if_neg (by decide), Lexeme.sign]
      · rfl
      · exact fun _ h => absurd h (by decide)
      · rintro rest - rfl
        exact hk rfl
    show words ('!' :: k) = _
    rw [words_cons rfl, hs]
    rfl

theorem words_binary (op : BinaryOp) (k : List Char) :
    words (op.sign ++ ' ' :: k) = op.word :: words k := by
  rw [← words_space k]
  cases op <;> exact words_cons rfl _

theorem words_inParens {body : List Char → List Char} {k : List Char} {ws : List Word}
    (h : words (body (')' :: k)) = ws ++ words (')' :: k)) :
    words (inParens body k) = wordsInParens ws ++ words k := by
  rw [inParens, words_leftParen, h, words_rightParen, wordsInParens, List.cons_append,
    List.append_assoc, List.singleton_append]

theorem words_inBraces {body : List Char → List Char} {k : List Char} {ws : List Word}
    (h : words (body (' ' :: '}' :: k)) = ws ++ words (' ' :: '}' :: k)) :
    words (inBraces body k) = wordsInBraces ws ++ words k := by
  rw [inBraces, words_leftBrace, words_space, h, words_space, words_rightBrace, wordsInBraces,
    List.cons_append, List.append_assoc, List.singleton_append]

theorem words_writeWords : ∀ (xs : List String) {k : List Char}, xs.all isIdentifier = true →
    Apart k → words (writeWords xs k) = nameWords xs ++ words k
  | [], _, _, _ => rfl
  | [x], k, hx, hk => by
    rw [List.all_cons, Bool.and_eq_true] at hx
    exact words_identifier hx.1 hk
  | x :: y :: xs, k, hx, hk => by
    rw [List.all_cons, Bool.and_eq_true] at hx
    rw [writeWords, words_identifier hx.1 (apart_cons rfl _), words_comma, words_space,
      words_writeWords (y :: xs) hx.2 hk]
    · rfl
    · exact List.cons_ne_nil y xs

/-- Operators bring the brackets of a condition with them. -/
theorem words_ifWord {t : Expr} {k : List Char}
    (ht : ∀ {k : List Char}, Apart k → words (t.write k) = t.words ++ words k) :
    words (['i', 'f', ' '] ++
      (if t.isOperator then t.write (' ' :: k) else inParens t.write (' ' :: k))) =
      (.ifWord, "if") ::
        ((if t.isOperator then t.words else wordsInParens t.words) ++ words k) := by
  have hi : ∀ k', words ('i' :: 'f' :: ' ' :: k') = (.ifWord, "if") :: words (' ' :: k') :=
    fun k' => words_word 'i' ['f'] rfl (by decide) (apart_cons rfl k')
  rw [List.cons_append, List.cons_append, List.cons_append, List.nil_append, hi, words_space]
  split
  · rw [ht (apart_cons rfl _), words_space]
  · rw [words_inParens (ht (apart_cons rfl _)), words_space]

theorem words_elseWord (k : List Char) :
    words ([' ', 'e', 'l', 's', 'e', ' '] ++ k) = (.elseWord, "else") :: words k := by
  have he : words ('e' :: (['l', 's', 'e'] ++ ' ' :: k)) = (.elseWord, "else") :: words (' ' :: k) :=
    words_word 'e' ['l', 's', 'e'] rfl (by decide) (apart_cons rfl k)
  rw [words_space] at he
  exact (words_space _).trans he

end Lexer

/-! ## Trees -/

open Lexer in
mutual

theorem Expr.words_write : ∀ (e : Expr) {k : List Char}, e.isWritable = true → Apart k →
    Lexer.words (e.write k) = e.words ++ Lexer.words k
  | .name x, k, h, hk => words_identifier h hk
  | .int n, k, h, hk => by
    have hn : 0 ≤ n.toInt := of_decide_eq_true h
    have hd := words_digits (Nat.toDigits_ne_nil (n := n.toInt.toNat) (b := 10))
      isDecimalDigit_of_mem_toDigits hk.not_digit
    rw [Expr.write, Expr.words, ← String.ofList_toList (s := toString n.toInt), String.toList_ofList,
      toList_toString_of_nonneg hn, hd]
    rfl
  | .bool true, k, _, hk => words_word 't' ['r', 'u', 'e'] rfl (by decide) hk
  | .bool false, k, _, hk => words_word 'f' ['a', 'l', 's', 'e'] rfl (by decide) hk
  | .str s, k, h, _ => words_quoted (of_decide_eq_true h) k
  | .unary op e, k, h, hk => by
    rw [Expr.write, Expr.words]
    apply words_inParens
    obtain ⟨c, hc, hne, -⟩ := e.head?_write (')' :: k) h
    have hhead : (e.write (')' :: k)).head? ≠ some '=' := by
      rw [hc]
      exact fun he => hne (Option.some.inj he)
    rw [words_unary op hhead, e.words_write h (apart_cons rfl k), List.cons_append]
  | .binary op l r, k, h, hk => by
    rw [Expr.isWritable, Bool.and_eq_true] at h
    rw [Expr.write, Expr.words]
    apply words_inParens
    rw [l.words_write h.1 (apart_cons rfl _), words_space, words_binary,
      r.words_write h.2 (apart_cons rfl k), List.append_assoc, List.cons_append]
  | .cond t y none, k, h, hk => by
    rw [Expr.isWritable, Bool.and_eq_true] at h
    have hy := words_inBraces (k := k) (Block.words_write y h.2 (apart_cons rfl _))
    refine (words_ifWord (t.words_write h.1)).trans ?_
    rw [hy, Expr.words, List.append_nil, List.cons_append, List.append_assoc]
  | .cond t y (some n), k, h, hk => by
    rw [Expr.isWritable, Bool.and_eq_true, Bool.and_eq_true] at h
    have hn := words_inBraces (k := k) (Block.words_write n h.2 (apart_cons rfl _))
    have hy := words_inBraces (k := [' ', 'e', 'l', 's', 'e', ' '] ++ inBraces (Block.write n) k)
      (Block.words_write y h.1.2 (apart_cons rfl _))
    refine (words_ifWord (t.words_write h.1.1)).trans ?_
    rw [hy, words_elseWord, hn, Expr.words]
    simp only [List.cons_append, List.append_assoc]
  | .fn xs b, k, h, hk => by
    rw [Expr.isWritable, Bool.and_eq_true] at h
    have hb := words_inBraces (k := k) (Block.words_write b h.2 (apart_cons rfl _))
    have hxs := words_inParens (k := ' ' :: inBraces (Block.write b) k)
      (words_writeWords xs h.1 (apart_cons rfl _))
    have hf := words_word 'f' ['n']
      (k := inParens (writeWords xs) (' ' :: inBraces (Block.write b) k)) rfl (by decide)
      (apart_cons rfl _)
    rw [hxs, words_space, hb] at hf
    rw [Expr.words, List.cons_append, List.append_assoc]
    exact hf
  | .call f as, k, h, hk => by
    rw [Expr.isWritable, Bool.and_eq_true] at h
    have hk' : Apart (inParens (Expr.writeAll as) k) := apart_cons rfl _
    rw [Expr.write, Expr.words, f.words_write h.1 hk', List.append_assoc,
      words_inParens (Expr.words_writeAll as h.2 (apart_cons rfl _))]
termination_by structural e => e

theorem Expr.words_writeAll : ∀ (es : List Expr) {k : List Char}, Expr.areWritable es = true →
    Apart k → Lexer.words (Expr.writeAll es k) = Expr.wordsAll es ++ Lexer.words k
  | [], _, _, _ => rfl
  | [e], k, h, hk => by
    rw [Expr.areWritable, Bool.and_eq_true] at h
    exact e.words_write h.1 hk
  | e :: f :: es, k, h, hk => by
    rw [Expr.areWritable, Bool.and_eq_true] at h
    rw [Expr.writeAll, Expr.wordsAll, e.words_write h.1 (apart_cons rfl _), words_comma,
      words_space, Expr.words_writeAll (f :: es) h.2 hk, List.append_assoc, List.cons_append]
    · exact List.cons_ne_nil f es
    · exact List.cons_ne_nil f es

theorem Stmt.words_write : ∀ (s : Stmt) {k : List Char}, s.isWritable = true → Apart k →
    Lexer.words (s.write k) = s.words ++ Lexer.words k
  | .bind x e, k, h, hk => by
    rw [Stmt.isWritable, Bool.and_eq_true] at h
    have hl := words_word 'l' ['e', 't']
      (k := ' ' :: (x.toList ++ ' ' :: '=' :: ' ' :: e.write (';' :: k))) rfl (by decide)
      (apart_cons rfl _)
    have ha : Lexer.words ('=' :: ' ' :: e.write (';' :: k)) =
      (.assign, "=") :: Lexer.words (' ' :: e.write (';' :: k)) := words_cons rfl _
    rw [words_space, words_identifier h.1 (apart_cons rfl _), words_space, ha, words_space,
      e.words_write h.2 (apart_cons rfl _), words_semicolon] at hl
    rw [Stmt.words, List.cons_append, List.cons_append, List.cons_append, List.append_assoc]
    exact hl
  | .ret e, k, h, hk => by
    have hl := words_word 'r' ['e', 't', 'u', 'r', 'n']
      (k := ' ' :: e.write (';' :: k)) rfl (by decide) (apart_cons rfl _)
    rw [words_space, e.words_write h (apart_cons rfl _), words_semicolon] at hl
    rw [Stmt.words, List.cons_append, List.append_assoc]
    exact hl
  | .expr e, k, h, hk => e.words_write h hk

theorem Block.words_write : ∀ (ss : List Stmt) {k : List Char}, Block.isWritable ss = true →
    Apart k → Lexer.words (Block.write ss k) = Block.words ss ++ Lexer.words k
  | [], _, _, _ => rfl
  | [s], k, h, hk => by
    rw [Block.isWritable, Bool.and_eq_true] at h
    rw [Block.write, Block.words, Block.words, List.append_nil]
    exact s.words_write h.1 hk
  | s :: t :: ss, k, h, hk => by
    rw [Block.isWritable, Bool.and_eq_true] at h
    rw [Block.write, Block.words, s.words_write h.1 (apart_cons rfl _), words_space,
      Block.words_write (t :: ss) h.2 hk, List.append_assoc]
    exact List.cons_ne_nil t ss

end

end LetFn
