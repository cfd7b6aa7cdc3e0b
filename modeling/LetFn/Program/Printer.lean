import LetFn.Program

/-!
# The written form of programs

Every operator stands in brackets with its operands, a `let` and a `return` end in a semicolon, an
expression statement in nothing, and one space parts the statements of a list.

* `Expr.write`, `Stmt.write`, `Block.write`: the written form, put in front of the text after it.
* `Expr.write_append` and its like: the text after it is only ever appended.
* `Program.text`: the written form of a program; `Block.text` that of a block with its braces.
-/

namespace LetFn

/-! ## Brackets and separators -/

/-- A text in round brackets, before `k`. -/
def inParens (body : List Char → List Char) (k : List Char) : List Char :=
  '(' :: body (')' :: k)

/-- A text in braces, a space inside each, before `k`. -/
def inBraces (body : List Char → List Char) (k : List Char) : List Char :=
  '{' :: ' ' :: body (' ' :: '}' :: k)

/-- Words parted by commas, before `k`. -/
def writeWords : List String → List Char → List Char
  | [], k => k
  | [w], k => w.toList ++ k
  | w :: ws, k => w.toList ++ ',' :: ' ' :: writeWords ws k

/-! ## Trees -/

/-- Operators bring brackets of their own to a condition. -/
def Expr.isOperator : Expr → Bool
  | .unary .. | .binary .. => true
  | _ => false

mutual

def Expr.write : Expr → List Char → List Char
  | .name x, k => x.toList ++ k
  | .int n, k => (toString n.toInt).toList ++ k
  | .bool b, k => (if b then ['t', 'r', 'u', 'e'] else ['f', 'a', 'l', 's', 'e']) ++ k
  | .str s, k => '"' :: (s.toList ++ '"' :: k)
  | .unary op e, k => inParens (fun k => op.sign ++ e.write k) k
  | .binary op l r, k =>
    inParens (fun k => l.write (' ' :: (op.sign ++ ' ' :: r.write k))) k
  | .cond t y no, k =>
    let branches := ' ' :: inBraces (Block.write y)
      (match no with
      | none => k
      | some n => [' ', 'e', 'l', 's', 'e', ' '] ++ inBraces (Block.write n) k)
    ['i', 'f', ' '] ++ (if t.isOperator then t.write branches else inParens t.write branches)
  | .fn xs b, k => ['f', 'n'] ++ inParens (writeWords xs) (' ' :: inBraces (Block.write b) k)
  | .call f as, k => f.write (inParens (Expr.writeAll as) k)
termination_by structural e => e

/-- Arguments parted by commas. -/
def Expr.writeAll : List Expr → List Char → List Char
  | [], k => k
  | [e], k => e.write k
  | e :: es, k => e.write (',' :: ' ' :: Expr.writeAll es k)

def Stmt.write : Stmt → List Char → List Char
  | .bind x e, k => ['l', 'e', 't', ' '] ++ (x.toList ++ ([' ', '=', ' '] ++ e.write (';' :: k)))
  | .ret e, k => ['r', 'e', 't', 'u', 'r', 'n', ' '] ++ e.write (';' :: k)
  | .expr e, k => e.write k

/-- Statements parted by spaces. -/
def Block.write : List Stmt → List Char → List Char
  | [], k => k
  | [s], k => s.write k
  | s :: ss, k => s.write (' ' :: Block.write ss k)

end

/-- The written form of a block with its braces. -/
def Block.text (b : Block) : String := String.ofList (inBraces (Block.write b) [])

/-- The written form of a program. -/
def Program.text (p : Program) : String := String.ofList (Block.write p.statements [])

/-! ## What follows is appended -/

theorem writeWords_append : ∀ (ws : List String) (k l : List Char),
    writeWords ws (k ++ l) = writeWords ws k ++ l
  | [], _, _ => rfl
  | [_], _, _ => by simp [writeWords]
  | _ :: w :: ws, k, l => by simp [writeWords, writeWords_append (w :: ws) k l]

mutual

theorem Expr.write_append : ∀ (e : Expr) (k l : List Char), e.write (k ++ l) = e.write k ++ l
  | .name _, _, _ => by simp [Expr.write]
  | .int _, _, _ => by simp [Expr.write]
  | .bool _, _, _ => by simp [Expr.write]
  | .str _, _, _ => by simp [Expr.write]
  | .unary op e, k, l => by
    simpa [Expr.write, inParens] using e.write_append (')' :: k) l
  | .binary op a b, k, l => by
    have hb := b.write_append (')' :: k) l
    have ha := a.write_append (' ' :: (op.sign ++ ' ' :: b.write (')' :: k))) l
    simp only [List.cons_append, List.append_assoc] at ha hb
    simp only [Expr.write, inParens, List.cons_append, hb, ha]
  | .cond t y none, k, l => by
    have hy := Block.write_append y (' ' :: '}' :: k) l
    have ht := t.write_append (' ' :: inBraces (Block.write y) k) l
    have hp := t.write_append (')' :: ' ' :: inBraces (Block.write y) k) l
    simp only [inBraces, List.cons_append] at hy ht hp
    by_cases h : t.isOperator
    · simp only [Expr.write, inBraces, h, if_true, hy, ht, List.append_assoc]
    · simp only [Expr.write, inParens, inBraces, h, if_false, hy, hp, List.cons_append,
        List.append_assoc, Bool.false_eq_true]
  | .cond t y (some n), k, l => by
    have hn := Block.write_append n (' ' :: '}' :: k) l
    let m := [' ', 'e', 'l', 's', 'e', ' '] ++ inBraces (Block.write n) k
    have hy := Block.write_append y (' ' :: '}' :: m) l
    have ht := t.write_append (' ' :: inBraces (Block.write y) m) l
    have hp := t.write_append (')' :: ' ' :: inBraces (Block.write y) m) l
    simp only [m, inBraces, List.cons_append, List.nil_append] at hn hy ht hp
    by_cases h : t.isOperator
    · simp only [Expr.write, inBraces, h, if_true, hn, hy, ht, List.cons_append, List.nil_append]
    · simp only [Expr.write, inParens, inBraces, h, if_false, hn, hy, hp, List.cons_append,
        List.nil_append, Bool.false_eq_true]
  | .fn xs b, k, l => by
    have hb := Block.write_append b (' ' :: '}' :: k) l
    have hx := writeWords_append xs (')' :: ' ' :: inBraces (Block.write b) k) l
    simp only [inBraces, List.cons_append] at hb hx
    simp only [Expr.write, inParens, inBraces, hb, hx, List.cons_append, List.append_assoc]
  | .call f as, k, l => by
    have ha := Expr.writeAll_append as (')' :: k) l
    have hf := f.write_append (inParens (Expr.writeAll as) k) l
    simp only [inParens, List.cons_append] at ha hf
    simp only [Expr.write, inParens, ha, hf]
termination_by structural e => e

theorem Expr.writeAll_append : ∀ (es : List Expr) (k l : List Char),
    Expr.writeAll es (k ++ l) = Expr.writeAll es k ++ l
  | [], _, _ => rfl
  | [e], k, l => e.write_append k l
  | e :: f :: es, k, l => by
    have hes := Expr.writeAll_append (f :: es) k l
    have he := e.write_append (',' :: ' ' :: Expr.writeAll (f :: es) k) l
    simp only [List.cons_append] at he
    simp only [Expr.writeAll, hes, he]

theorem Stmt.write_append : ∀ (s : Stmt) (k l : List Char), s.write (k ++ l) = s.write k ++ l
  | .bind x e, k, l => by
    have he := e.write_append (';' :: k) l
    simp only [List.cons_append] at he
    simp only [Stmt.write, he, List.append_assoc]
  | .ret e, k, l => by
    have he := e.write_append (';' :: k) l
    simp only [List.cons_append] at he
    simp only [Stmt.write, he, List.append_assoc]
  | .expr e, k, l => e.write_append k l

theorem Block.write_append : ∀ (ss : List Stmt) (k l : List Char),
    Block.write ss (k ++ l) = Block.write ss k ++ l
  | [], _, _ => rfl
  | [s], k, l => s.write_append k l
  | s :: t :: ss, k, l => by
    have hss := Block.write_append (t :: ss) k l
    have hs := s.write_append (' ' :: Block.write (t :: ss) k) l
    simp only [List.cons_append] at hs
    simp only [Block.write, hss, hs]

end

end LetFn
