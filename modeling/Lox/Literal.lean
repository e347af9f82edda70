/-
Literals: the constants a program can write down.
-/
import Lox.Number.Shortest

namespace Lox

/-- A constant as it stands in a program. -/
inductive Literal where
  | nil
  | bool (value : Bool)
  | number (value : Number)
  | string (contents : String)
deriving DecidableEq, Inhabited, Repr

namespace Literal

/-- A literal's text; a string's is its contents, without quotes. -/
def text : Literal → String
  | nil => "nil"
  | bool true => "true"
  | bool false => "false"
  | number n => n.text
  | string s => s

/-- Comparison of literals in which numbers compare as floats. -/
def same : Literal → Literal → Bool
  | nil, nil => true
  | bool a, bool b => a = b
  | number a, number b => a.same b
  | string a, string b => a = b
  | _, _ => false

end Literal

end Lox
