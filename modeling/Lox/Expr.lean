/-
Expressions.

Property access, property assignment, `super` and `this` are part of the tree so
that a grammar with classes could build them; parsing here never does, and
evaluation refuses them.
-/
import Lox.Token

namespace Lox

/-- An expression, with the tokens that faults in it point at. -/
inductive Expr where
  | assign (name : Token) (value : Expr)
  | binary (left : Expr) (op : Token) (right : Expr)
  | call (callee : Expr) (paren : Token) (arguments : List Expr)
  | get (object : Expr) (name : Token)
  | grouping (inner : Expr)
  | literal (value : Literal)
  | logical (left : Expr) (op : Token) (right : Expr)
  | set (object : Expr) (name : Token) (value : Expr)
  | super (keyword : Token) (method : Token)
  | this (keyword : Token)
  | unary (op : Token) (right : Expr)
  | var (name : Token)
deriving Inhabited, Repr

namespace Expr

mutual

/-- Comparison of expressions, tokens and their lines included, in which numbers compare as
floats: an expression that holds a NaN differs from itself. -/
def same : Expr → Expr → Bool
  | assign n v, assign n' v' => n.same n' && v.same v'
  | binary l o r, binary l' o' r' => l.same l' && o.same o' && r.same r'
  | call c p as, call c' p' as' => c.same c' && p.same p' && sameList as as'
  | get o n, get o' n' => o.same o' && n.same n'
  | grouping e, grouping e' => e.same e'
  | literal v, literal v' => v.same v'
  | logical l o r, logical l' o' r' => l.same l' && o.same o' && r.same r'
  | set o n v, set o' n' v' => o.same o' && n.same n' && v.same v'
  | super k m, super k' m' => k.same k' && m.same m'
  | this k, this k' => k.same k'
  | unary o r, unary o' r' => o.same o' && r.same r'
  | var n, var n' => n.same n'
  | _, _ => false

/-- Comparison of lists of expressions: element by element, and of one length. -/
def sameList : List Expr → List Expr → Bool
  | [], [] => true
  | e :: es, e' :: es' => e.same e' && sameList es es'
  | _, _ => false

end

end Expr

end Lox
