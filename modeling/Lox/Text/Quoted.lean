/-
Quoted text: a string as it would be written to show exactly what is in it.

The text stands in double quotes.  Quotes and backslashes in it get a backslash;
tab, newline, carriage return and NUL are written by a letter or digit after one;
any other character that does not show by itself is written by its code point.
-/
import Lox.Text.Printable

namespace Lox.Text

/-- How one character is written in quotes. -/
def escaped (c : Char) : List Char :=
  match c with
  | '"' => ['\\', '"']
  | '\\' => ['\\', '\\']
  | '\t' => ['\\', 't']
  | '\n' => ['\\', 'n']
  | '\r' => ['\\', 'r']
  | '\x00' => ['\\', '0']
  | c =>
    if isPrintable c then [c]
    else ['\\', 'u', '{'] ++ Nat.toDigits 16 c.toNat ++ ['}']

/-- The text in double quotes. -/
def quoted (text : String) : String :=
  String.ofList ('"' :: (text.toList.flatMap escaped ++ ['"']))

end Lox.Text
