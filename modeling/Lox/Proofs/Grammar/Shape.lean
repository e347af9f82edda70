/-
The shape of parsed trees, and the tokens they come from.

Parentheses are part of the tree, so nothing has to be put in to write it down
again: `Expr.pieces` and `Stmt.pieces` list what stands in the program, in order.
Some tokens the tree has kept, of others only the kind can be told, and tokens
unparse a tree if they fit its pieces one by one.

Not every tree is what its pieces are parsed as.  `Shaped` says which are: operands
bind as tightly as their place needs, no `else` is left to the wrong `if`, and the
tokens that are kept are of the kinds that belong there.
-/
import Lox.Stmt
import Lox.Grammar.Fault
import Mathlib.Data.List.Forall2

namespace Lox

/-! ### Pieces -/

/-- What is known of a token of the program. -/
inductive Piece where
  /-- The tree has this token. -/
  | kept (token : Token)
  /-- The tree tells the kind of the token. -/
  | mark (kind : Token.Kind)

/-- The token is what the piece says. -/
def Piece.Fits : Piece → Token → Prop
  | kept token, t => t = token
  | mark kind, t => t.kind = kind

/-- The text of a token of this kind; any text will do for parsing. -/
def Token.Kind.text : Token.Kind → String
  | symbol s => s.text
  | keyword k => k.text
  | string contents => "\"" ++ contents ++ "\""
  | number n => n.text
  | identifier | endOfFile => ""

/-- A token that fits the piece. -/
def Piece.token : Piece → Token
  | kept token => token
  | mark kind => ⟨kind, kind.text, 1⟩

/-- The kind of token a literal is written as. -/
def Literal.kind : Literal → Token.Kind
  | nil => .keyword .nil_
  | bool true => .keyword .true_
  | bool false => .keyword .false_
  | number n => .number n
  | string contents => .string contents

def Piece.symbol (s : Symbol) : Piece := .mark (.symbol s)

def Piece.keyword (k : Keyword) : Piece := .mark (.keyword k)

namespace Expr

mutual

/-- The pieces of an expression in the order they are written. -/
def pieces : Expr → List Piece
  | assign name value => .kept name :: .symbol .equal :: value.pieces
  | binary left op right | logical left op right => left.pieces ++ .kept op :: right.pieces
  | call callee paren arguments =>
    callee.pieces ++ .symbol .leftParen :: (argumentPieces arguments ++ [.kept paren])
  | get object name => object.pieces ++ [.symbol .dot, .kept name]
  | grouping inner => .symbol .leftParen :: (inner.pieces ++ [.symbol .rightParen])
  | literal value => [.mark value.kind]
  | set object name value =>
    object.pieces ++ .symbol .dot :: .kept name :: .symbol .equal :: value.pieces
  | super keyword method => [.kept keyword, .symbol .dot, .kept method]
  | this keyword => [.kept keyword]
  | unary op right => .kept op :: right.pieces
  | var name => [.kept name]

/-- The pieces of arguments and of the commas between them. -/
def argumentPieces : List Expr → List Piece
  | [] => []
  | e :: es => e.pieces ++ moreArgumentPieces es

/-- The pieces of arguments with a comma before each. -/
def moreArgumentPieces : List Expr → List Piece
  | [] => []
  | e :: es => .symbol .comma :: (e.pieces ++ moreArgumentPieces es)

end

end Expr

/-- The pieces of parameters with a comma before each. -/
def moreParameterPieces : List Token → List Piece
  | [] => []
  | name :: names => .symbol .comma :: .kept name :: moreParameterPieces names

/-- The pieces of parameters and of the commas between them. -/
def parameterPieces : List Token → List Piece
  | [] => []
  | name :: names => .kept name :: moreParameterPieces names

/-- The pieces of an expression that may be missing, behind what comes before it. -/
def optionalPieces (before : List Piece) : Option Expr → List Piece
  | none => []
  | some e => before ++ e.pieces

namespace Stmt

mutual

/-- The pieces of a statement in the order they are written. -/
def pieces : Stmt → List Piece
  | block body => .symbol .leftBrace :: (piecesList body ++ [.symbol .rightBrace])
  | expression value => value.pieces ++ [.symbol .semicolon]
  | function name params body =>
    .keyword .fun_ :: .kept name :: .symbol .leftParen :: (parameterPieces params ++
      .symbol .rightParen :: .symbol .leftBrace :: (piecesList body ++ [.symbol .rightBrace]))
  | conditional condition thenBranch elseBranch =>
    .keyword .if_ :: .symbol .leftParen :: (condition.pieces ++ .symbol .rightParen ::
      (thenBranch.pieces ++ piecesElse elseBranch))
  | print value => .keyword .print_ :: (value.pieces ++ [.symbol .semicolon])
  | return_ keyword value => .kept keyword :: (optionalPieces [] value ++ [.symbol .semicolon])
  | var name initializer => .keyword .var_ :: .kept name ::
      (optionalPieces [.symbol .equal] initializer ++ [.symbol .semicolon])
  | loop condition body => .keyword .while_ :: .symbol .leftParen ::
      (condition.pieces ++ .symbol .rightParen :: body.pieces)

/-- The pieces of statements in order. -/
def piecesList : List Stmt → List Piece
  | [] => []
  | s :: ss => s.pieces ++ piecesList ss

/-- The pieces of a branch that may be missing. -/
def piecesElse : Option Stmt → List Piece
  | none => []
  | some s => .keyword .else_ :: s.pieces

end

end Stmt

/-- The tokens fit the pieces one by one. -/
def Unparses (pieces : List Piece) (ts : List Token) : Prop := List.Forall₂ Piece.Fits pieces ts

/-- Statements as tokens, in order and without a parenthesis of their own. -/
def unparse (ss : List Stmt) : List Token := (Stmt.piecesList ss).map Piece.token

/-! ### Binding

What parsing gives at a level of the grammar binds at least as tightly as the operators
of that level.  On the left of an operator the same strength will do, on the right more
is needed, since operations group from the left.
-/

/-- How tightly a token of this kind binds between conditions, if it does. -/
def logicalStrength? : Token.Kind → Option Nat
  | .keyword .or_ => some 1
  | .keyword .and_ => some 2
  | _ => none

/-- How tightly a token of this kind binds between values, if it does. -/
def binaryStrength? : Token.Kind → Option Nat
  | .symbol .bangEqual | .symbol .equalEqual => some 3
  | .symbol .greater | .symbol .greaterEqual | .symbol .less | .symbol .lessEqual => some 4
  | .symbol .minus | .symbol .plus => some 5
  | .symbol .star | .symbol .slash => some 6
  | _ => none

namespace Expr

/-- How tightly an expression binds: assignments least, then operations by their operator, then
operators in front, then calls. -/
def strength : Expr → Nat
  | assign .. | set .. => 0
  | logical _ op _ => (logicalStrength? op.kind).getD 0
  | binary _ op _ => (binaryStrength? op.kind).getD 0
  | unary .. => 7
  | call .. | get .. => 8
  | grouping .. | literal .. | super .. | this .. | var .. => 9

mutual

/-- The expression is one that parsing its pieces gives. -/
def Shaped : Expr → Prop
  | assign name value => name.kind = .identifier ∧ value.Shaped
  | binary left op right => ∃ k, binaryStrength? op.kind = some k ∧
      left.Shaped ∧ k ≤ left.strength ∧ right.Shaped ∧ k < right.strength
  | logical left op right => ∃ k, logicalStrength? op.kind = some k ∧
      left.Shaped ∧ k ≤ left.strength ∧ right.Shaped ∧ k < right.strength
  | call callee paren arguments => callee.Shaped ∧ 8 ≤ callee.strength ∧
      paren.kind = .symbol .rightParen ∧ ShapedList arguments ∧ arguments.length ≤ maxArity
  | grouping inner => inner.Shaped
  | literal _ => True
  | unary op right => (op.kind = .symbol .bang ∨ op.kind = .symbol .minus) ∧
      right.Shaped ∧ 7 ≤ right.strength
  | var name => name.kind = .identifier
  | get .. | set .. | super .. | this .. => False

/-- All the expressions are. -/
def ShapedList : List Expr → Prop
  | [] => True
  | e :: es => e.Shaped ∧ ShapedList es

end

end Expr

/-! ### Statements -/

namespace Stmt

/-- Is the statement one that a branch or a loop's body cannot be? -/
def isDeclaration : Stmt → Bool
  | function .. | var .. => true
  | _ => false

/-- Does the statement end in an `if` without `else`, which an `else` behind it would go to? -/
def endsOpen : Stmt → Bool
  | conditional _ _ none => true
  | conditional _ _ (some elseBranch) => elseBranch.endsOpen
  | loop _ body => body.endsOpen
  | _ => false

mutual

/-- The statement is one that parsing its pieces gives. -/
def Shaped (insideFunction : Bool) : Stmt → Prop
  | block body => ShapedList insideFunction body
  | expression value | print value => value.Shaped
  | function name params body => name.kind = .identifier ∧
      (∀ param ∈ params, param.kind = .identifier) ∧ params.length ≤ maxArity ∧
      ShapedList true body
  | conditional condition thenBranch elseBranch => condition.Shaped ∧
      thenBranch.Shaped insideFunction ∧ thenBranch.isDeclaration = false ∧
      (elseBranch.isSome = true → thenBranch.endsOpen = false) ∧
      ShapedElse insideFunction elseBranch
  | return_ keyword value => insideFunction = true ∧ keyword.kind = .keyword .return_ ∧
      ∀ e ∈ value, e.Shaped
  | var name initializer => name.kind = .identifier ∧ ∀ e ∈ initializer, e.Shaped
  | loop condition body => condition.Shaped ∧ body.Shaped insideFunction ∧
      body.isDeclaration = false

/-- All the statements are. -/
def ShapedList (insideFunction : Bool) : List Stmt → Prop
  | [] => True
  | s :: ss => s.Shaped insideFunction ∧ ShapedList insideFunction ss

/-- The branch is, if it is not missing. -/
def ShapedElse (insideFunction : Bool) : Option Stmt → Prop
  | none => True
  | some s => s.Shaped insideFunction ∧ s.isDeclaration = false

end

end Stmt

/-! ### Tokens that fit -/

private theorem fits_token (piece : Piece) : piece.Fits piece.token := by
  cases piece <;> rfl

theorem unparses_unparse (ss : List Stmt) : Unparses (Stmt.piecesList ss) (unparse ss) := by
  rw [Unparses, unparse, List.forall₂_map_right_iff]
  exact List.forall₂_same.mpr fun piece _ => fits_token piece

namespace Unparses

variable {p q : List Piece} {piece : Piece} {ts us : List Token} {token : Token}

theorem nil : Unparses [] [] := List.Forall₂.nil

theorem cons (h : piece.Fits token) (hts : Unparses p ts) : Unparses (piece :: p) (token :: ts) :=
  List.Forall₂.cons h hts

theorem append (hts : Unparses p ts) (hus : Unparses q us) : Unparses (p ++ q) (ts ++ us) :=
  List.rel_append hts hus

theorem single (h : piece.Fits token) : Unparses [piece] [token] := .cons h .nil

theorem cons_inv (h : Unparses (piece :: p) ts) :
    ∃ token us, ts = token :: us ∧ piece.Fits token ∧ Unparses p us := by
  cases h with
  | cons hfits hmore => exact ⟨_, _, rfl, hfits, hmore⟩

theorem append_inv (h : Unparses (p ++ q) ts) :
    ∃ us vs, ts = us ++ vs ∧ Unparses p us ∧ Unparses q vs := by
  induction p generalizing ts with
  | nil => exact ⟨[], ts, rfl, .nil, h⟩
  | cons piece p ih =>
      obtain ⟨token, more, rfl, hfits, hmore⟩ := cons_inv h
      obtain ⟨us, vs, rfl, hus, hvs⟩ := ih hmore
      exact ⟨token :: us, vs, rfl, .cons hfits hus, hvs⟩

theorem single_inv (h : Unparses [piece] ts) : ∃ token, ts = [token] ∧ piece.Fits token := by
  obtain ⟨token, us, rfl, hfits, hmore⟩ := h.cons_inv
  cases hmore
  exact ⟨token, rfl, hfits⟩

theorem nil_inv (h : Unparses [] ts) : ts = [] := List.forall₂_nil_left_iff.mp h

end Unparses

end Lox
