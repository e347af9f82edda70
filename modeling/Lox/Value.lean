/-
Values: what expressions evaluate to.

A function value holds its declaration and the scope it was declared in.  Two
function values are equal only if the same execution of the same declaration made
them, which their identities tell.
-/
import Lox.Stmt
import Lox.Text.Quoted

namespace Lox

/-- Scopes are named by their number in order of creation. -/
abbrev ScopeId := Nat

/-- A function of the program: what it was declared as, and where. -/
structure Closure where
  /-- A number no other function of the run has. -/
  id : Nat
  name : Token
  params : List Token
  body : List Stmt
  /-- The scope that was current when the declaration was executed. -/
  scope : ScopeId
deriving Inhabited

/-- The functions that every program finds defined. -/
inductive Native where
  /-- The time in seconds. -/
  | clock
deriving DecidableEq, Inhabited, Repr

/-- The name under which a native function is defined. -/
def Native.name : Native → String
  | clock => "clock"

/-- How many arguments a native function takes. -/
def Native.arity : Native → Nat
  | clock => 0

/-- A value. -/
inductive Value where
  | nil
  | bool (value : Bool)
  | number (value : Number)
  | string (contents : String)
  | function (closure : Closure)
  | native (native : Native)
deriving Inhabited

/-- A value that can be called. -/
inductive Callee where
  | function (closure : Closure)
  | native (native : Native)

/-- How many arguments a callee takes. -/
def Callee.arity : Callee → Nat
  | function f => f.params.length
  | native f => f.arity

namespace Value

/-- The value of a literal. -/
def ofLiteral : Literal → Value
  | .nil => nil
  | .bool b => bool b
  | .number n => number n
  | .string s => string s

/-- Everything but `false` and `nil` counts as true. -/
def truthy : Value → Bool
  | nil => false
  | bool b => b
  | _ => true

/-- Equality in the language.  Values of different types are never equal; a NaN equals itself;
functions are equal if they are the same one. -/
def equals : Value → Value → Bool
  | nil, nil => true
  | bool a, bool b => a = b
  | number a, number b => a.equals b
  | string a, string b => a = b
  | function f, function g => f.id = g.id
  | native f, native g => f = g
  | _, _ => false

/-- The text of a value, as printed. -/
def text : Value → String
  | nil => "nil"
  | bool true => "true"
  | bool false => "false"
  | number n => n.text
  | string s => s
  | function f => "<fn " ++ f.name.lexeme ++ ">"
  | native _ => "<native fn>"

/-- The text of a value with strings quoted. -/
def quotedText : Value → String
  | string s => Text.quoted s
  | v => v.text

/-- The value as something to call, if it is that. -/
def callee? : Value → Option Callee
  | function f => some (.function f)
  | native f => some (.native f)
  | _ => none

end Value

end Lox
