import LetFn.Text.Visible

/-!
# Quoted text

A text between double quotes, written so that every character of it shows: a quote or backslash
after a backslash, the common controls by a letter, and what does not show by its code point.

* `quoteChar`: the written form of one character; `quoted`: that of a text.
-/

namespace LetFn.Text

/-- The code point of a character, in hexadecimal digits. -/
def codePoint (c : Char) : List Char := ['\\', 'u', '{'] ++ Nat.toDigits 16 c.toNat ++ ['}']

def quoteChar (c : Char) : List Char :=
  match c with
  | '\x00' => ['\\', '0']
  | '\t' => ['\\', 't']
  | '\n' => ['\\', 'n']
  | '\r' => ['\\', 'r']
  | '"' => ['\\', '"']
  | '\\' => ['\\', '\\']
  | c => if isInvisible c || isCombining c then codePoint c else [c]

def quoted (s : String) : String :=
  String.ofList ('"' :: s.toList.flatMap quoteChar ++ ['"'])

end LetFn.Text
