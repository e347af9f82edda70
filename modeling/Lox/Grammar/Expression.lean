/-
The grammar of expressions.

    expression → assignment
    assignment → IDENTIFIER "=" assignment | or
    or         → and ("or" and)*
    and        → equality ("and" equality)*
    equality   → comparison (("!=" | "==") comparison)*
    comparison → term ((">" | ">=" | "<" | "<=") term)*
    term       → factor (("-" | "+") factor)*
    factor     → unary (("*" | "/") unary)*
    unary      → ("!" | "-") unary | call
    call       → primary ("(" arguments ")")*
    primary    → "true" | "false" | "nil" | NUMBER | STRING | IDENTIFIER | "(" expression ")"

Every production is a function of the parser for the expressions nested in it.
The nesting is tied off in `expressionWithin`, which takes one token of its bound
for each level: a nested expression always comes after a token of its own.
-/
import Lox.Expr
import Lox.Grammar.Parser

namespace Lox

namespace Parser

/-! ### Primaries and calls -/

/-- The expression that a token is by itself. -/
def atom? (token : Token) : Option Expr :=
  match token.kind with
  | .keyword .true_ => some (.literal (.bool true))
  | .keyword .false_ => some (.literal (.bool false))
  | .keyword .nil_ => some (.literal .nil)
  | .number n => some (.literal (.number n))
  | .string s => some (.literal (.string s))
  | .identifier => some (.var token)
  | _ => none

/-- An atom, or an expression in parentheses. -/
def primary (nested : Parser Expr) : Parser Expr := do
  match atom? (← peek) with
  | some e =>
    skip
    pure e
  | none =>
    match ← accept (.symbol .leftParen) with
    | some _ =>
      let inner ← nested
      let _ ← expectSymbol .rightParen .afterExpression
      pure (.grouping inner)
    | none => fail .noExpression

/-- The calls made on a callee, each with its parenthesised arguments. -/
def calls (nested : Parser Expr) : (bound : List Token) → (callee : Expr) → Parser Expr
  | [], callee => pure callee
  | _ :: bound, callee => do
    match ← accept (.symbol .leftParen) with
    | none => pure callee
    | some _ =>
      let arguments ← elements nested .tooManyArguments
      let paren ← expectSymbol .rightParen .afterArguments
      calls nested bound (.call callee paren arguments)

/-- A primary and the calls made on it. -/
def call (nested : Parser Expr) : Parser Expr := do
  let callee ← primary nested
  bounded fun bound => calls nested bound callee

/-! ### Operators -/

/-- The operators that stand in front of their operand. -/
def unaryOperators : List Token.Kind := [.symbol .bang, .symbol .minus]

/-- Operators in front of a call. -/
def unaryWithin (nested : Parser Expr) : (bound : List Token) → Parser Expr
  | [] => call nested
  | _ :: bound => do
    match ← acceptAny unaryOperators with
    | some op =>
      let right ← unaryWithin nested bound
      pure (.unary op right)
    | none => call nested

/-- Any number of operators in front of a call. -/
def unary (nested : Parser Expr) : Parser Expr := bounded (unaryWithin nested)

/-- Operators between two operands that bind equally tightly. -/
structure Level where
  operators : List Token.Kind
  /-- The expression made of two operands and the operator between them. -/
  node : Expr → Token → Expr → Expr

/-- The levels of operators, loosest first. -/
def levels : List Level :=
  [ ⟨[.keyword .or_], .logical⟩,
    ⟨[.keyword .and_], .logical⟩,
    ⟨[.symbol .bangEqual, .symbol .equalEqual], .binary⟩,
    ⟨[.symbol .greater, .symbol .greaterEqual, .symbol .less, .symbol .lessEqual], .binary⟩,
    ⟨[.symbol .minus, .symbol .plus], .binary⟩,
    ⟨[.symbol .star, .symbol .slash], .binary⟩ ]

/-- The operators of a level and their right operands, added to what stands on the left. -/
def chain (level : Level) (operand : Parser Expr) :
    (bound : List Token) → (left : Expr) → Parser Expr
  | [], left => pure left
  | _ :: bound, left => do
    match ← acceptAny level.operators with
    | none => pure left
    | some op =>
      let right ← operand
      chain level operand bound (level.node left op right)

/-- Operands joined by the operators of a level, grouped from the left. -/
def joined (level : Level) (operand : Parser Expr) : Parser Expr := do
  let first ← operand
  bounded fun bound => chain level operand bound first

/-- Operations of the given levels; what they join in the end are unary expressions. -/
def operation (nested : Parser Expr) : List Level → Parser Expr
  | [] => unary nested
  | level :: tighter => joined level (operation nested tighter)

/-! ### Assignment and nesting -/

/-- An assignment, or an operation.  Anything but a variable in front of `=` is a fault, but
one that leaves no doubt where the expression ends. -/
def assignment (nested : Parser Expr) : Parser Expr := do
  let target ← operation nested levels
  match ← accept (.symbol .equal) with
  | none => pure target
  | some equals =>
    let value ← nested
    match target with
    | .var name => pure (.assign name value)
    | _ =>
      reportAt equals .invalidTarget
      pure target

/-- An expression nested at most as deeply as the bound is long. -/
def expressionWithin : (bound : List Token) → Parser Expr
  | [], tokens => fail .noExpression tokens
  | _ :: bound, tokens => assignment (expressionWithin bound) tokens

/-- An expression. -/
def expression : Parser Expr := bounded expressionWithin

end Parser

end Lox
