/-
Statements.

There is no `for`: a `for` loop is parsed into the blocks and the `while` loop it
stands for.
-/
import Lox.Expr

namespace Lox

/-- A statement. -/
inductive Stmt where
  | block (body : List Stmt)
  | expression (value : Expr)
  | function (name : Token) (params : List Token) (body : List Stmt)
  | conditional (condition : Expr) (thenBranch : Stmt) (elseBranch : Option Stmt)
  | print (value : Expr)
  | return_ (keyword : Token) (value : Option Expr)
  | var (name : Token) (initializer : Option Expr)
  | loop (condition : Expr) (body : Stmt)
deriving Inhabited, Repr

/-- Comparison of optional things. -/
def sameOption {α : Type} (same : α → α → Bool) : Option α → Option α → Bool
  | none, none => true
  | some a, some b => same a b
  | _, _ => false

/-- Comparison of lists of tokens: element by element, and of one length. -/
def Token.sameList : List Token → List Token → Bool
  | [], [] => true
  | t :: ts, t' :: ts' => t.same t' && sameList ts ts'
  | _, _ => false

namespace Stmt

/-! ### Comparison -/

mutual

/-- Comparison of statements, tokens and their lines included, in which numbers compare as
floats. -/
def same : Stmt → Stmt → Bool
  | block b, block b' => sameList b b'
  | expression e, expression e' => e.same e'
  | function n ps b, function n' ps' b' => n.same n' && Token.sameList ps ps' && sameList b b'
  | conditional c t e, conditional c' t' e' => c.same c' && t.same t' && sameElse e e'
  | print e, print e' => e.same e'
  | return_ k v, return_ k' v' => k.same k' && sameOption Expr.same v v'
  | var n v, var n' v' => n.same n' && sameOption Expr.same v v'
  | loop c b, loop c' b' => c.same c' && b.same b'
  | _, _ => false

/-- Comparison of lists of statements: element by element, and of one length. -/
def sameList : List Stmt → List Stmt → Bool
  | [], [] => true
  | s :: ss, s' :: ss' => s.same s' && sameList ss ss'
  | _, _ => false

/-- Comparison of branches that may be missing. -/
def sameElse : Option Stmt → Option Stmt → Bool
  | none, none => true
  | some s, some s' => s.same s'
  | _, _ => false

end

/-! ### The `for` loop -/

/-- The statement a `for` loop stands for: the initializer, then a `while` loop whose body ends
with the increment.  A missing condition is `true`; what both run in is a scope of its own. -/
def forLoop (initializer : Option Stmt) (condition increment : Option Expr) (body : Stmt) : Stmt :=
  let body := match increment with
    | some e => block [body, .expression e]
    | none => body
  let whole := loop (condition.getD (.literal (.bool true))) body
  match initializer with
  | some s => block [s, whole]
  | none => whole

/-! ### The expressions in a statement -/

mutual

/-- The expressions a statement holds directly or through statements inside it, in order. -/
def expressions : Stmt → List Expr
  | block body => expressionsList body
  | expression value => [value]
  | function _ _ body => expressionsList body
  | conditional condition thenBranch elseBranch =>
    condition :: (thenBranch.expressions ++ expressionsElse elseBranch)
  | print value => [value]
  | return_ _ value => value.toList
  | var _ initializer => initializer.toList
  | loop condition body => condition :: body.expressions

/-- The expressions of statements in order. -/
def expressionsList : List Stmt → List Expr
  | [] => []
  | s :: ss => s.expressions ++ expressionsList ss

/-- The expressions of a branch that may be missing. -/
def expressionsElse : Option Stmt → List Expr
  | none => []
  | some s => s.expressions

end

end Stmt

end Lox
