import LetFn.Program
import LetFn.Token

/-!
# The grammar of programs

Which words spell which trees. Operators come in four tiers, each a left-associative chain over the
next tighter one; below them stand signs, then calls, then the primary expressions.

* `Grammar.tiers`: the tiers with their operators, the loosest first.
* `Grammar.Primary`, `Grammar.Call`, `Grammar.Unary`, `Grammar.Chain`: the expressions of each
  strength, given those that may stand `inside`.
* `Grammar.Statement`, `Grammar.Statements`: statements, and lists of them with their semicolons.
* `Grammar.Expression n`: the expressions nested at most `n` deep. Every expression inside another
  counts one level, but the left operand of an operator and the callee of a call stand on the level
  of the whole.
* `Grammar.Derives`: the words of a whole program nested at most `n` deep.
-/

namespace LetFn.Grammar
open Token (Kind)

/-! ## Operators -/

/-- Operators of one strength, each with the class of its sign. -/
abbrev Tier := List (Kind × BinaryOp)

/-- The tiers, the loosest first. -/
def tiers : List Tier :=
  [[(.equal, .equal), (.notEqual, .notEqual)],
   [(.less, .less), (.greater, .greater)],
   [(.plus, .add), (.minus, .sub)],
   [(.star, .mul), (.slash, .div)]]

/-- The classes that carry on a statement they follow: its semicolon, the rest of a condition, an
operator or the bracket of a call. -/
def carriesOn : List Kind :=
  [.semicolon, .elseWord, .leftParen, .equal, .notEqual, .less, .greater, .plus, .minus, .star,
   .slash]

/-- The number that a digit word spells. -/
def decimal (text : String) : Nat := Nat.ofDigitChars 10 text.toList 0

/-! ## Lists -/

/-- Items parted by commas. -/
inductive Separated {α : Type} (item : List Token → α → Prop) : List Token → List α → Prop
  | nil : Separated item [] []
  | one {ts : List Token} {a : α} : item ts a → Separated item ts [a]
  | cons {ts us : List Token} {comma : Token} {a b : α} {as : List α} :
      item ts a → comma.kind = .comma → Separated item us (b :: as) →
      Separated item (ts ++ comma :: us) (a :: b :: as)

/-- A parameter is a name. -/
def Param (ts : List Token) (x : String) : Prop := ∃ t, ts = [t] ∧ t.kind = .name ∧ t.text = x

section

/- The expressions that may stand inside another, by the tiers that they may be chains of. -/
variable (inside : List Tier → List Token → Expr → Prop)

/-! ## Statements -/

/-- A statement without its semicolon. -/
inductive Statement : List Token → Stmt → Prop
  | bind {w x s : Token} {ts : List Token} {e : Expr} :
      w.kind = .letWord → x.kind = .name → s.kind = .assign → inside tiers ts e →
      Statement (w :: x :: s :: ts) (.bind x.text e)
  | ret {w : Token} {ts : List Token} {e : Expr} :
      w.kind = .returnWord → inside tiers ts e → Statement (w :: ts) (.ret e)
  | expr {ts : List Token} {e : Expr} : inside tiers ts e → Statement ts (.expr e)

/-- Statements in a row. One without a semicolon ends where nothing can carry it on. -/
inductive Statements : List Token → Block → Prop
  | nil : Statements [] []
  | closed {ts us : List Token} {semicolon : Token} {s : Stmt} {ss : Block} :
      Statement inside ts s → semicolon.kind = .semicolon → Statements us ss →
      Statements (ts ++ semicolon :: us) (s :: ss)
  | open {ts us : List Token} {s : Stmt} {ss : Block} :
      Statement inside ts s → (∀ t ∈ us.head?, t.kind ∉ carriesOn) → Statements us ss →
      Statements (ts ++ us) (s :: ss)

/-- Statements in braces. -/
inductive InBraces : List Token → Block → Prop
  | mk {l r : Token} {ts : List Token} {b : Block} :
      l.kind = .leftBrace → Statements inside ts b → r.kind = .rightBrace →
      InBraces (l :: ts ++ [r]) b

/-! ## Expressions -/

inductive Primary : List Token → Expr → Prop
  | name {t : Token} : t.kind = .name → Primary [t] (.name t.text)
  | int {t : Token} : t.kind = .int → decimal t.text ≤ 0x7fffffffffffffff →
      Primary [t] (.int (Int64.ofNat (decimal t.text)))
  | str {t : Token} : t.kind = .string → Primary [t] (.str t.text)
  | yes {t : Token} : t.kind = .trueWord → Primary [t] (.bool true)
  | no {t : Token} : t.kind = .falseWord → Primary [t] (.bool false)
  | group {l r : Token} {ts : List Token} {e : Expr} :
      l.kind = .leftParen → inside tiers ts e → r.kind = .rightParen → Primary (l :: ts ++ [r]) e
  | cond {w l r : Token} {ts us : List Token} {test : Expr} {yes : Block} :
      w.kind = .ifWord → l.kind = .leftParen → inside tiers ts test → r.kind = .rightParen →
      InBraces inside us yes → Primary (w :: l :: ts ++ r :: us) (.cond test yes none)
  | condElse {w l r o : Token} {ts us vs : List Token} {test : Expr} {yes no : Block} :
      w.kind = .ifWord → l.kind = .leftParen → inside tiers ts test → r.kind = .rightParen →
      InBraces inside us yes → o.kind = .elseWord → InBraces inside vs no →
      Primary (w :: l :: ts ++ r :: us ++ o :: vs) (.cond test yes (some no))
  | fn {w l r : Token} {ts us : List Token} {xs : List String} {body : Block} :
      w.kind = .fnWord → l.kind = .leftParen → Separated Param ts xs → r.kind = .rightParen →
      InBraces inside us body → Primary (w :: l :: ts ++ r :: us) (.fn xs body)

inductive Call : List Token → Expr → Prop
  | primary {ts : List Token} {e : Expr} : Primary inside ts e → Call ts e
  | call {l r : Token} {ts us : List Token} {callee : Expr} {args : List Expr} :
      Call ts callee → l.kind = .leftParen → Separated (inside tiers) us args →
      r.kind = .rightParen → Call (ts ++ l :: us ++ [r]) (.call callee args)

/-- The operand of a sign is a chain of no tier, which is a `Unary` again. -/
inductive Unary : List Token → Expr → Prop
  | call {ts : List Token} {e : Expr} : Call inside ts e → Unary ts e
  | not {t : Token} {ts : List Token} {e : Expr} :
      t.kind = .bang → inside [] ts e → Unary (t :: ts) (.unary .not e)
  | negate {t : Token} {ts : List Token} {e : Expr} :
      t.kind = .minus → inside [] ts e → Unary (t :: ts) (.unary .negate e)

/-- A chain of the first tier's operators over chains of the tighter ones. -/
inductive Chain : List Tier → List Token → Expr → Prop
  | unary {ts : List Token} {e : Expr} : Unary inside ts e → Chain [] ts e
  | first {tier : Tier} {tighter : List Tier} {ts : List Token} {e : Expr} :
      Chain tighter ts e → Chain (tier :: tighter) ts e
  | more {tier : Tier} {tighter : List Tier} {ts us : List Token} {t : Token} {op : BinaryOp}
      {left right : Expr} :
      Chain (tier :: tighter) ts left → (t.kind, op) ∈ tier → inside tighter us right →
      Chain (tier :: tighter) (ts ++ t :: us) (.binary op left right)

end

/-! ## Nesting -/

/-- The expressions nested at most `n` deep, by the tiers that they may be chains of. -/
def Expression : Nat → List Tier → List Token → Expr → Prop
  | 0 => fun _ _ _ => False
  | n + 1 => Chain (Expression n)

/-- The words of a program nested at most `n` deep. -/
def Derives (n : Nat) (ts : List Token) (p : Program) : Prop :=
  Statements (Expression n) ts p.statements

end LetFn.Grammar
