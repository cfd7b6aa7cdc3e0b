/-!
# Tokens and positions

The words a text is made of.

* `Position`: a place in a text, counted in lines and characters.
* `Token.Kind`: the classes of words, `eof` for the end of the text included.
* `Token`: a word with its class and its place.
-/

namespace LetFn

/-- A place in a text. Lines and columns count from 1. -/
structure Position where
  line : Nat
  column : Nat
deriving DecidableEq, Repr, Inhabited

namespace Position

/-- The written form, `line:column`. -/
def text (p : Position) : String := s!"{p.line}:{p.column}"

end Position

/-- The classes of tokens. -/
inductive Token.Kind
  | letWord | fnWord | ifWord | elseWord | returnWord | trueWord | falseWord
  | name | int | string
  | assign | plus | minus | bang | star | slash | less | greater | equal | notEqual
  | comma | semicolon | leftParen | rightParen | leftBrace | rightBrace
  | illegal | eof
deriving DecidableEq, Repr, Inhabited

/-- How messages name a class. -/
def Token.Kind.label : Token.Kind → String
  | letWord => "LET"
  | fnWord => "FUNCTION"
  | ifWord => "IF"
  | elseWord => "ELSE"
  | returnWord => "RETURN"
  | trueWord => "TRUE"
  | falseWord => "FALSE"
  | name => "IDENT"
  | int => "INT"
  | string => "STRING"
  | assign => "="
  | plus => "+"
  | minus => "-"
  | bang => "!"
  | star => "*"
  | slash => "/"
  | less => "<"
  | greater => ">"
  | equal => "=="
  | notEqual => "!="
  | comma => ","
  | semicolon => ";"
  | leftParen => "("
  | rightParen => ")"
  | leftBrace => "\x7b"
  | rightBrace => "\x7d"
  | illegal => "ILLEGAL"
  | eof => "EOF"

/-- A word of the text: a string's `text` goes without its quotes, that of the end is empty. -/
structure Token where
  kind : Token.Kind
  text : String
  position : Position
deriving DecidableEq, Repr, Inhabited

end LetFn
