/-
Tokens: the words and marks a program is made of.

A token has a kind, the text it was written as, and the line on which that text
ends.  For marks and keywords the kind fixes the text; strings and numbers carry
the value that was read from it.
-/
import Lox.Literal

namespace Lox

/-! ### Marks and keywords -/

/-- Punctuation and operators. -/
inductive Symbol where
  | leftParen | rightParen | leftBrace | rightBrace
  | comma | dot | minus | plus | semicolon | slash | star
  | bang | bangEqual | equal | equalEqual
  | greater | greaterEqual | less | lessEqual
deriving DecidableEq, Inhabited, Repr

namespace Symbol

/-- How a symbol is written. -/
def text : Symbol → String
  | leftParen => "("
  | rightParen => ")"
  | leftBrace => "\x7b"
  | rightBrace => "\x7d"
  | comma => ","
  | dot => "."
  | minus => "-"
  | plus => "+"
  | semicolon => ";"
  | slash => "/"
  | star => "*"
  | bang => "!"
  | bangEqual => "!="
  | equal => "="
  | equalEqual => "=="
  | greater => ">"
  | greaterEqual => ">="
  | less => "<"
  | lessEqual => "<="

/-- The symbol written with this one character. -/
def ofChar? : Char → Option Symbol
  | '(' => some leftParen
  | ')' => some rightParen
  | '{' => some leftBrace
  | '}' => some rightBrace
  | ',' => some comma
  | '.' => some dot
  | '-' => some minus
  | '+' => some plus
  | ';' => some semicolon
  | '/' => some slash
  | '*' => some star
  | '!' => some bang
  | '=' => some equal
  | '>' => some greater
  | '<' => some less
  | _ => none

/-- The symbol that this one becomes when `=` follows it directly. -/
def withEqual? : Symbol → Option Symbol
  | bang => some bangEqual
  | equal => some equalEqual
  | greater => some greaterEqual
  | less => some lessEqual
  | _ => none

end Symbol

/-- The reserved words. -/
inductive Keyword where
  | and_ | class_ | else_ | false_ | for_ | fun_ | if_ | nil_
  | or_ | print_ | return_ | super_ | this_ | true_ | var_ | while_
deriving DecidableEq, Inhabited, Repr

namespace Keyword

/-- How a keyword is written. -/
def text : Keyword → String
  | and_ => "and"
  | class_ => "class"
  | else_ => "else"
  | false_ => "false"
  | for_ => "for"
  | fun_ => "fun"
  | if_ => "if"
  | nil_ => "nil"
  | or_ => "or"
  | print_ => "print"
  | return_ => "return"
  | super_ => "super"
  | this_ => "this"
  | true_ => "true"
  | var_ => "var"
  | while_ => "while"

/-- Every keyword. -/
def all : List Keyword :=
  [and_, class_, else_, false_, for_, fun_, if_, nil_,
   or_, print_, return_, super_, this_, true_, var_, while_]

/-- The keyword written like this. -/
def ofText? (word : String) : Option Keyword := all.find? fun k => k.text = word

end Keyword

/-! ### Tokens -/

/-- What a token is, and the value it carries if it is a string or a number. -/
inductive Token.Kind where
  | symbol (symbol : Symbol)
  | keyword (keyword : Keyword)
  | identifier
  | string (contents : String)
  | number (value : Number)
  | endOfFile
deriving DecidableEq, Inhabited, Repr

/-- A token of a program. -/
structure Token where
  kind : Token.Kind
  /-- The text as written. -/
  lexeme : String
  /-- The line on which the text ends, counted from one. -/
  line : Nat
deriving DecidableEq, Inhabited, Repr

namespace Token

namespace Kind

/-- A word is a keyword if it is one of theirs, and an identifier otherwise. -/
def ofWord (word : String) : Kind :=
  match Keyword.ofText? word with
  | some k => keyword k
  | none => identifier

/-- Comparison of kinds in which numbers compare as floats. -/
def same : Kind → Kind → Bool
  | number a, number b => a.same b
  | a, b => a = b

end Kind

/-- The value a string or number token carries. -/
def literal? (t : Token) : Option Literal :=
  match t.kind with
  | .string s => some (.string s)
  | .number n => some (.number n)
  | _ => none

/-- Does the token mark the end of the program? -/
def isEnd (t : Token) : Bool := t.kind = .endOfFile

/-- The end mark of a program that ends on this line. -/
def endOfFile (line : Nat) : Token := ⟨.endOfFile, "", line⟩

/-- Comparison of tokens in which numbers compare as floats. -/
def same (a b : Token) : Bool :=
  a.kind.same b.kind && a.lexeme = b.lexeme && a.line = b.line

end Token

end Lox
