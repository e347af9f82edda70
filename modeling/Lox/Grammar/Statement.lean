/-
The grammar of statements and declarations.

    declaration → "fun" IDENTIFIER "(" parameters ")" block
                | "var" IDENTIFIER ("=" expression)? ";"
                | statement
    statement   → "for" "(" (declaration of a variable | expression ";" | ";")
                    expression? ";" expression? ")" statement
                | "if" "(" expression ")" statement ("else" statement)?
                | "print" expression ";"
                | "return" expression? ";"
                | "while" "(" expression ")" statement
                | block
                | expression ";"
    block       → "{" declaration* "}"

A declaration in which a fault was reported is dropped.  One that was given up is
left behind by skipping to where the next is likely to start.

As with expressions, every production is a function of the parsers for what is
nested in it, and the nesting is tied off at the end.
-/
import Lox.Stmt
import Lox.Grammar.Expression

namespace Lox

namespace Parser

/-! ### Simple statements

The keyword that tells the statements apart has been taken before each of these. -/

/-- The rest of a variable's declaration. -/
def varDeclaration : Parser Stmt := do
  let name ← expect .identifier .noVariableName
  match ← accept (.symbol .equal) with
  | some _ =>
    let value ← expression
    let _ ← expectSymbol .semicolon .afterVariableDeclaration
    pure (.var name (some value))
  | none =>
    let _ ← expectSymbol .semicolon .afterVariableDeclaration
    pure (.var name none)

/-- An expression as a statement. -/
def expressionStatement : Parser Stmt := do
  let value ← expression
  let _ ← expectSymbol .semicolon .afterExpression
  pure (.expression value)

/-- The rest of a `print` statement. -/
def printStatement : Parser Stmt := do
  let value ← expression
  let _ ← expectSymbol .semicolon .afterValue
  pure (.print value)

/-- An expression, unless a token of this kind stands in its place. -/
def expressionUnless (kind : Token.Kind) : Parser (Option Expr) := do
  if ← check kind then
    pure none
  else
    let value ← expression
    pure (some value)

/-- The rest of a `return` statement, whose keyword is given.  It is refused outright if no
function encloses it. -/
def returnStatement (insideFunction : Bool) (keyword : Token) : Parser Stmt := do
  if insideFunction then
    let value ← expressionUnless (.symbol .semicolon)
    let _ ← expectSymbol .semicolon .afterReturnValue
    pure (.return_ keyword value)
  else
    failAt keyword .returnOutsideFunction

/-! ### Loops and branches -/

/-- What a `for` loop starts with. -/
def forInitializer : Parser (Option Stmt) := do
  match ← accept (.symbol .semicolon) with
  | some _ => pure none
  | none =>
    match ← accept (.keyword .var_) with
    | some _ =>
      let declaration ← varDeclaration
      pure (some declaration)
    | none =>
      let statement ← expressionStatement
      pure (some statement)

/-- The rest of a `for` loop. -/
def forStatement (nested : Parser Stmt) : Parser Stmt := do
  let _ ← expectSymbol .leftParen .afterFor
  let initializer ← forInitializer
  let condition ← expressionUnless (.symbol .semicolon)
  let _ ← expectSymbol .semicolon .afterLoopCondition
  let increment ← expressionUnless (.symbol .rightParen)
  let _ ← expectSymbol .rightParen .afterForClauses
  let body ← nested
  pure (.forLoop initializer condition increment body)

/-- The rest of a `while` loop. -/
def whileStatement (nested : Parser Stmt) : Parser Stmt := do
  let _ ← expectSymbol .leftParen .afterWhile
  let condition ← expression
  let _ ← expectSymbol .rightParen .afterCondition
  let body ← nested
  pure (.loop condition body)

/-- The rest of an `if` statement.  An `else` belongs to the nearest `if` before it. -/
def ifStatement (nested : Parser Stmt) : Parser Stmt := do
  let _ ← expectSymbol .leftParen .afterIf
  let condition ← expression
  let _ ← expectSymbol .rightParen .afterIfCondition
  let thenBranch ← nested
  match ← accept (.keyword .else_) with
  | some _ =>
    let elseBranch ← nested
    pure (.conditional condition thenBranch (some elseBranch))
  | none => pure (.conditional condition thenBranch none)

/-! ### Blocks and functions -/

/-- Declarations, up to a token at which they stop; the dropped ones are left out. -/
def declarations (stop : Token → Bool) (declaration : Parser (Option Stmt)) :
    (bound : List Token) → Parser (List Stmt)
  | [] => pure []
  | _ :: bound => do
    if stop (← peek) then
      pure []
    else
      let first ← declaration
      let more ← declarations stop declaration bound
      pure (first.toList ++ more)

/-- Do the declarations of a block stop at this token? -/
def endsBlock (token : Token) : Bool := token.kind = .symbol .rightBrace || token.isEnd

/-- The rest of a block, after its opening brace. -/
def block (declaration : Parser (Option Stmt)) : Parser (List Stmt) := do
  let body ← bounded (declarations endsBlock declaration)
  let _ ← expectSymbol .rightBrace .afterBlock
  pure body

/-- The rest of a function's declaration, given the parser for what its body declares. -/
def functionDeclaration (declaration : Parser (Option Stmt)) : Parser Stmt := do
  let name ← expect .identifier .noFunctionName
  let _ ← expectSymbol .leftParen .afterFunctionName
  let params ← elements (expect .identifier .noParameterName) .tooManyParameters
  let _ ← expectSymbol .rightParen .afterParameters
  let _ ← expectSymbol .leftBrace .beforeFunctionBody
  let body ← block declaration
  pure (.function name params body)

/-! ### Statements and declarations -/

/-- A statement, given the parsers for the statements and the declarations nested in it. -/
def statementOf (nested : Parser Stmt) (declaration : Parser (Option Stmt))
    (insideFunction : Bool) : Parser Stmt := do
  let token ← peek
  match token.kind with
  | .keyword .for_ => skip; forStatement nested
  | .keyword .if_ => skip; ifStatement nested
  | .keyword .print_ => skip; printStatement
  | .keyword .return_ => skip; returnStatement insideFunction token
  | .keyword .while_ => skip; whileStatement nested
  | .symbol .leftBrace =>
    skip
    let body ← block declaration
    pure (.block body)
  | _ => expressionStatement

/-- Does a declaration or a statement start with this keyword? -/
def startsDeclaration (token : Token) : Bool :=
  match token.kind with
  | .keyword .class_ | .keyword .fun_ | .keyword .var_ | .keyword .for_ | .keyword .if_
  | .keyword .while_ | .keyword .print_ | .keyword .return_ => true
  | _ => false

/-- What is left after a declaration that was given up: at least one token is skipped, and then
all up to the end, to behind the next semicolon, or to before a keyword that starts a
declaration. -/
def synchronized : List Token → List Token
  | [] => []
  | token :: rest =>
    if token.isEnd then token :: rest
    else if token.kind = .symbol .semicolon then rest
    else if rest.head?.any startsDeclaration then rest
    else synchronized rest

/-- A declaration that never gives up: it is dropped if a fault was reported in it, and what
follows is synchronized if it was given up. -/
def recovering (declaration : Parser Stmt) : Parser (Option Stmt) := fun tokens =>
  let reply := declaration tokens
  match reply.result with
  | some s => ⟨some (if reply.faults.isEmpty then some s else none), reply.faults, reply.rest⟩
  | none => ⟨some none, reply.faults, synchronized reply.rest⟩

/-- A declaration, given the parsers for statements and for the declarations in functions. -/
def declarationOf (statement : Parser Stmt) (inFunction : Parser (Option Stmt)) :
    Parser (Option Stmt) :=
  recovering do
    match (← peek).kind with
    | .keyword .fun_ => skip; functionDeclaration inFunction
    | .keyword .var_ => skip; varDeclaration
    | _ => statement

/-! ### Nesting -/

mutual

/-- A statement nested at most as deeply as the bound is long. -/
def statementWithin : (bound : List Token) → (insideFunction : Bool) → Parser Stmt
  | [], _, tokens => fail .noExpression tokens
  | _ :: bound, insideFunction, tokens =>
    statementOf (statementWithin bound insideFunction) (declarationWithin bound insideFunction)
      insideFunction tokens

/-- A declaration nested at most as deeply as the bound is long. -/
def declarationWithin : (bound : List Token) → (insideFunction : Bool) → Parser (Option Stmt)
  | [], _, tokens => recovering (fail .noExpression) tokens
  | _ :: bound, insideFunction, tokens =>
    declarationOf
      (statementOf (statementWithin bound insideFunction) (declarationWithin bound insideFunction)
        insideFunction)
      (declarationWithin bound true) tokens

end

/-- A statement. -/
def statement (insideFunction : Bool) : Parser Stmt :=
  bounded fun bound => statementWithin bound insideFunction

/-- A declaration. -/
def declaration (insideFunction : Bool) : Parser (Option Stmt) :=
  bounded fun bound => declarationWithin bound insideFunction

end Parser

end Lox
