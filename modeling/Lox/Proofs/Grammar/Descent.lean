/-
Recursive descent.

The parsers of the grammar answer with what they leave and with the faults they
report, they are told whether a function encloses them, and they recurse on bounds.
Here is the same grammar as procedures on a state: the tokens that are left, one list
of faults to which each new one is appended, and how many functions there are around
the place.  A procedure calls the others wherever the grammar has it, a loop is a
procedure that calls itself, and a fault that makes a procedure give up is thrown,
through all of its callers, up to the declaration that catches it.

Nothing in a procedure says that this comes to an end.  A procedure is therefore a
function of what is done about its calls, and the calls are run by `within`, which
allows them to be nested up to a limit and gives no outcome beyond it.  That there
always is a limit that is not reached, and which, is the subject of `Termination`.
-/
import Lox.Grammar.Program

namespace Lox

/-- What the procedures work on. -/
structure Descent.State where
  /-- The tokens left. -/
  tokens : List Token
  /-- The faults reported so far, in order. -/
  faults : List SyntaxFault
  /-- How many functions there are whose bodies have been entered and not left. -/
  depth : Nat
deriving Repr

/-- A procedure on the state, which may give up with a fault. -/
abbrev Descent := ExceptT SyntaxFault (StateT Descent.State Option)

namespace Descent

variable {α β : Type}

/-! ### Tokens -/

/-- The next token, if there is one. -/
def next? : Descent (Option Token) := do
  return (← get).tokens.head?

/-- Take the next token, whatever it is. -/
def take : Descent (Option Token) := do
  let token ← next?
  modify fun s => { s with tokens := s.tokens.tail }
  return token

/-- Has the program come to its end? -/
def isAtEnd : Descent Bool := do
  return (← next?).all Token.isEnd

/-- The next token, or an end mark if there is none. -/
def peek : Descent Token := do
  return (← next?).getD Parser.missingEnd

/-- Is the next token of this kind? -/
def check (kind : Token.Kind) : Descent Bool := do
  return (← next?).any (·.kind = kind)

/-- Take the next token if it is of this kind. -/
def accept (kind : Token.Kind) : Descent (Option Token) := do
  if ← check kind then take else return none

/-- Take the next token if it is of one of these kinds. -/
def acceptAny : List Token.Kind → Descent (Option Token)
  | [] => return none
  | kind :: kinds => do
    match ← accept kind with
    | some token => return some token
    | none => acceptAny kinds

/-! ### Faults -/

/-- Append a fault to those reported. -/
def report (fault : SyntaxFault) : Descent Unit :=
  modify fun s => { s with faults := s.faults ++ [fault] }

/-- Give up with a fault at the next token. -/
def fail (cause : SyntaxCause) : Descent α := do
  throw ⟨← peek, cause⟩

/-- Take the next token, which has to be of this kind. -/
def expect (kind : Token.Kind) (cause : SyntaxCause) : Descent Token := do
  match ← accept kind with
  | some token => return token
  | none => fail cause

/-- Take a symbol that has to stand here. -/
def expectSymbol (symbol : Symbol) (place : Place) : Descent Token :=
  expect (.symbol symbol) (.missing symbol place)

/-- Report a fault at the next token if a list already has as many elements as it may have. -/
def limit (count : Nat) (tooMany : SyntaxCause) : Descent Unit := do
  if maxArity ≤ count then report ⟨← peek, tooMany⟩

/-- Run a procedure and go on, also where it gives up. -/
def attempt (q : Descent α) : Descent (Except SyntaxFault α) :=
  ExceptT.lift (ExceptT.run q)

/-- Run a procedure inside one more function.  The depth is restored before a fault is thrown
on. -/
def enclosed (q : Descent α) : Descent α := do
  modify fun s => { s with depth := s.depth + 1 }
  let result ← attempt q
  modify fun s => { s with depth := s.depth - 1 }
  match result with
  | .ok a => return a
  | .error fault => throw fault

/-- Elements of a list, none if a closing parenthesis stands here. -/
def unlessClosed (elements : Descent (List α)) : Descent (List α) := do
  if ← check (.symbol .rightParen) then return [] else elements

/-- Do the declarations of a block stop here? -/
def endsBlock : Descent Bool := do
  return (← check (.symbol .rightBrace)) || (← isAtEnd)

/-! ### Procedures -/

/-- The procedures, with what they are called with.  None of them is called to take the end mark. -/
inductive Procedure : Type → Type where
  | isAtEnd : Procedure Bool
  | peek : Procedure Token
  | check (kind : Token.Kind) : Procedure Bool
  | accept (kind : Token.Kind) (h : .endOfFile ≠ kind) : Procedure (Option Token)
  | acceptAny (kinds : List Token.Kind) (h : .endOfFile ∉ kinds) : Procedure (Option Token)
  | expect (kind : Token.Kind) (h : .endOfFile ≠ kind) (cause : SyntaxCause) : Procedure Token
  | report (fault : SyntaxFault) : Procedure Unit
  | synchronize : Procedure Unit
  | expression : Procedure Expr
  | assignment : Procedure Expr
  | operation (levels : List Parser.Level) (h : levels <:+ Parser.levels) : Procedure Expr
  | chain (level : Parser.Level) (tighter : List Parser.Level)
      (h : level :: tighter <:+ Parser.levels) (left : Expr) : Procedure Expr
  | unary : Procedure Expr
  | call : Procedure Expr
  | calls (callee : Expr) : Procedure Expr
  | finishCall (callee : Expr) : Procedure Expr
  | arguments (count : Nat) : Procedure (List Expr)
  | primary : Procedure Expr
  | varDeclaration : Procedure Stmt
  | expressionStatement : Procedure Stmt
  | printStatement : Procedure Stmt
  | expressionUnless (kind : Token.Kind) : Procedure (Option Expr)
  | returnStatement (keyword : Token) : Procedure Stmt
  | forInitializer : Procedure (Option Stmt)
  | forStatement : Procedure Stmt
  | whileStatement : Procedure Stmt
  | ifStatement : Procedure Stmt
  | statement : Procedure Stmt
  | declarationsOfBlock : Procedure (List Stmt)
  | block : Procedure (List Stmt)
  | parameters (count : Nat) : Procedure (List Token)
  | function : Procedure Stmt
  | declaration : Procedure (Option Stmt)
  | program : Procedure (List Stmt)

section

variable (run : {β : Type} → Procedure β → Descent β)

/-- Skip to behind the next semicolon, or to before a keyword that starts a declaration. -/
def synchronize : Descent Unit := do
  if ← isAtEnd then
    return ()
  else
    let skipped ← take
    if skipped.any (·.kind = .symbol .semicolon) then
      return ()
    else if (← next?).any Parser.startsDeclaration then
      return ()
    else
      run .synchronize

/-- An element of a list, and the others behind it, if `count` came before. -/
def elements (element : Descent α) (others : Nat → Procedure (List α)) (tooMany : SyntaxCause)
    (count : Nat) : Descent (List α) := do
  limit count tooMany
  let first ← element
  match ← accept (.symbol .comma) with
  | none => return [first]
  | some _ =>
    let more ← run (others (count + 1))
    return first :: more

/-! ### Expressions -/

/-- An assignment, or an operation. -/
def assignment : Descent Expr := do
  let target ← run (.operation Parser.levels (List.suffix_refl _))
  match ← accept (.symbol .equal) with
  | none => return target
  | some equals =>
    let value ← run .assignment
    match target with
    | .var name => return .assign name value
    | _ =>
      report ⟨equals, .invalidTarget⟩
      return target

/-- Operations of the given levels; what they join in the end are unary expressions. -/
def operation : (levels : List Parser.Level) → levels <:+ Parser.levels → Descent Expr
  | [], _ => run .unary
  | level :: tighter, h => do
    let first ← run (.operation tighter ((List.suffix_cons _ _).trans h))
    run (.chain level tighter h first)

/-- The operators of a level and their right operands, added to what stands on the left. -/
def chain (level : Parser.Level) (tighter : List Parser.Level)
    (h : level :: tighter <:+ Parser.levels) (left : Expr) : Descent Expr := do
  match ← acceptAny level.operators with
  | none => return left
  | some op =>
    let right ← run (.operation tighter ((List.suffix_cons _ _).trans h))
    run (.chain level tighter h (level.node left op right))

/-- Any number of operators in front of a call. -/
def unary : Descent Expr := do
  match ← acceptAny Parser.unaryOperators with
  | some op =>
    let right ← run .unary
    return .unary op right
  | none => run .call

/-- A primary and the calls made on it. -/
def call : Descent Expr := do
  let callee ← run .primary
  run (.calls callee)

/-- The calls made on a callee. -/
def calls (callee : Expr) : Descent Expr := do
  match ← accept (.symbol .leftParen) with
  | none => return callee
  | some _ =>
    let called ← run (.finishCall callee)
    run (.calls called)

/-- The rest of a call, behind its opening parenthesis. -/
def finishCall (callee : Expr) : Descent Expr := do
  let args ← unlessClosed (run (.arguments 0))
  let paren ← expectSymbol .rightParen .afterArguments
  return .call callee paren args

/-- An atom, or an expression in parentheses. -/
def primary : Descent Expr := do
  let token ← peek
  match Parser.atom? token with
  | some e =>
    let _ ← take
    return e
  | none =>
    if token.kind = .symbol .leftParen then
      let _ ← take
      let inner ← run .expression
      let _ ← expectSymbol .rightParen .afterExpression
      return .grouping inner
    else
      throw ⟨token, .noExpression⟩

/-! ### Statements -/

/-- The rest of a variable's declaration. -/
def varDeclaration : Descent Stmt := do
  let name ← expect .identifier .noVariableName
  match ← accept (.symbol .equal) with
  | some _ =>
    let value ← run .expression
    let _ ← expectSymbol .semicolon .afterVariableDeclaration
    return .var name (some value)
  | none =>
    let _ ← expectSymbol .semicolon .afterVariableDeclaration
    return .var name none

/-- An expression as a statement. -/
def expressionStatement : Descent Stmt := do
  let value ← run .expression
  let _ ← expectSymbol .semicolon .afterExpression
  return .expression value

/-- The rest of a `print` statement. -/
def printStatement : Descent Stmt := do
  let value ← run .expression
  let _ ← expectSymbol .semicolon .afterValue
  return .print value

/-- An expression, unless a token of this kind stands in its place. -/
def expressionUnless (kind : Token.Kind) : Descent (Option Expr) := do
  if ← check kind then
    return none
  else
    let value ← run .expression
    return some value

/-- The rest of a `return` statement, which is refused outright if no function encloses it. -/
def returnStatement (keyword : Token) : Descent Stmt := do
  if (← get).depth = 0 then
    throw ⟨keyword, .returnOutsideFunction⟩
  else
    let value ← run (.expressionUnless (.symbol .semicolon))
    let _ ← expectSymbol .semicolon .afterReturnValue
    return .return_ keyword value

/-- What a `for` loop starts with. -/
def forInitializer : Descent (Option Stmt) := do
  match ← accept (.symbol .semicolon) with
  | some _ => return none
  | none =>
    match ← accept (.keyword .var_) with
    | some _ =>
      let declaration ← run .varDeclaration
      return some declaration
    | none =>
      let statement ← run .expressionStatement
      return some statement

/-- The rest of a `for` loop. -/
def forStatement : Descent Stmt := do
  let _ ← expectSymbol .leftParen .afterFor
  let initializer ← run .forInitializer
  let condition ← run (.expressionUnless (.symbol .semicolon))
  let _ ← expectSymbol .semicolon .afterLoopCondition
  let increment ← run (.expressionUnless (.symbol .rightParen))
  let _ ← expectSymbol .rightParen .afterForClauses
  let body ← run .statement
  return .forLoop initializer condition increment body

/-- The rest of a `while` loop. -/
def whileStatement : Descent Stmt := do
  let _ ← expectSymbol .leftParen .afterWhile
  let condition ← run .expression
  let _ ← expectSymbol .rightParen .afterCondition
  let body ← run .statement
  return .loop condition body

/-- The rest of an `if` statement. -/
def ifStatement : Descent Stmt := do
  let _ ← expectSymbol .leftParen .afterIf
  let condition ← run .expression
  let _ ← expectSymbol .rightParen .afterIfCondition
  let thenBranch ← run .statement
  match ← accept (.keyword .else_) with
  | some _ =>
    let elseBranch ← run .statement
    return .conditional condition thenBranch (some elseBranch)
  | none => return .conditional condition thenBranch none

/-- A statement. -/
def statement : Descent Stmt := do
  match ← accept (.keyword .for_) with
  | some _ => run .forStatement
  | none =>
  match ← accept (.keyword .if_) with
  | some _ => run .ifStatement
  | none =>
  match ← accept (.keyword .print_) with
  | some _ => run .printStatement
  | none =>
  match ← accept (.keyword .return_) with
  | some keyword => run (.returnStatement keyword)
  | none =>
  match ← accept (.keyword .while_) with
  | some _ => run .whileStatement
  | none =>
  match ← accept (.symbol .leftBrace) with
  | some _ =>
    let body ← run .block
    return .block body
  | none => run .expressionStatement

/-! ### Declarations -/

/-- A declaration, unless the list of them stops here, and the others behind it; the dropped ones
are left out. -/
def declarations (stop : Descent Bool) (others : Procedure (List Stmt)) :
    Descent (List Stmt) := do
  if ← stop then
    return []
  else
    let first ← run .declaration
    let more ← run others
    return first.toList ++ more

/-- The rest of a block, after its opening brace. -/
def block : Descent (List Stmt) := do
  let body ← run .declarationsOfBlock
  let _ ← expectSymbol .rightBrace .afterBlock
  return body

/-- The rest of a function's declaration. -/
def function : Descent Stmt := do
  let name ← expect .identifier .noFunctionName
  let _ ← expectSymbol .leftParen .afterFunctionName
  let params ← unlessClosed (run (.parameters 0))
  let _ ← expectSymbol .rightParen .afterParameters
  let _ ← expectSymbol .leftBrace .beforeFunctionBody
  let body ← enclosed (run .block)
  return .function name params body

/-- A declaration, as long as nothing in it is given up. -/
def declared : Descent Stmt := do
  match ← accept (.keyword .fun_) with
  | some _ => run .function
  | none =>
  match ← accept (.keyword .var_) with
  | some _ => run .varDeclaration
  | none => run .statement

/-- A declaration that never gives up: it is dropped if the list of faults has grown, and what
follows is synchronized if it was given up. -/
def recovering (q : Descent Stmt) : Descent (Option Stmt) := do
  let reported := (← get).faults.length
  match ← attempt q with
  | .ok s => return if (← get).faults.length = reported then some s else none
  | .error fault =>
    report fault
    run .synchronize
    return none

/-! ### Calls

Procedures have results of different types, so what is done about calls is one function
on all of them.  To run a procedure up to a limit is to answer its calls with one level
less.  At level zero there is no answer.
-/

/-- What a procedure does, if this is done about its calls. -/
def Procedure.body : Procedure α → Descent α
  | isAtEnd => Descent.isAtEnd
  | peek => Descent.peek
  | check kind => Descent.check kind
  | accept kind _ => Descent.accept kind
  | acceptAny kinds _ => Descent.acceptAny kinds
  | expect kind _ cause => Descent.expect kind cause
  | report fault => Descent.report fault
  | synchronize => Descent.synchronize run
  | expression => run .assignment
  | assignment => Descent.assignment run
  | operation levels h => Descent.operation run levels h
  | chain level tighter h left => Descent.chain run level tighter h left
  | unary => Descent.unary run
  | call => Descent.call run
  | calls callee => Descent.calls run callee
  | finishCall callee => Descent.finishCall run callee
  | arguments count => Descent.elements run (run .expression) .arguments .tooManyArguments count
  | primary => Descent.primary run
  | varDeclaration => Descent.varDeclaration run
  | expressionStatement => Descent.expressionStatement run
  | printStatement => Descent.printStatement run
  | expressionUnless kind => Descent.expressionUnless run kind
  | returnStatement keyword => Descent.returnStatement run keyword
  | forInitializer => Descent.forInitializer run
  | forStatement => Descent.forStatement run
  | whileStatement => Descent.whileStatement run
  | ifStatement => Descent.ifStatement run
  | statement => Descent.statement run
  | declarationsOfBlock => Descent.declarations run endsBlock .declarationsOfBlock
  | block => Descent.block run
  | parameters count =>
      Descent.elements run (Descent.expect .identifier .noParameterName) .parameters .tooManyParameters
        count
  | function => Descent.function run
  | declaration => Descent.recovering run (declared run)
  | program => Descent.declarations run Descent.isAtEnd .program

end

/-- What a procedure does if calls are nested no deeper than the limit.  A call beyond it has no
outcome. -/
def within : (limit : Nat) → {α : Type} → Procedure α → Descent α
  | 0, _, _ => fun _ => none
  | limit + 1, _, q => q.body (within limit)

/-! ### Outcomes -/

/-- How a procedure ends when it is started in this state, if it ends at all. -/
def outcome? (q : Descent α) (s : State) : Option (Except SyntaxFault α × State) := q.run.run s

private theorem outcome?_bind (q : Descent α) (next : α → Descent β) (s : State) :
    (q >>= next).outcome? s = (q.outcome? s).bind fun
      | (.ok a, s') => (next a).outcome? s'
      | (.error fault, s') => some (.error fault, s') := by
  show Option.bind (q.outcome? s) _ = _
  congr 1
  funext ⟨result, s'⟩
  cases result <;> rfl

theorem outcome?_bind_of_ok {q : Descent α} {a : α} {s s' : State}
    (h : q.outcome? s = some (.ok a, s')) (next : α → Descent β) :
    (q >>= next).outcome? s = (next a).outcome? s' := by
  rw [outcome?_bind, h]
  rfl

theorem outcome?_bind_of_error {q : Descent α} {fault : SyntaxFault} {s s' : State}
    (h : q.outcome? s = some (.error fault, s')) (next : α → Descent β) :
    (q >>= next).outcome? s = some (.error fault, s') := by
  rw [outcome?_bind, h]
  rfl

theorem outcome?_attempt {q : Descent α} {result : Except SyntaxFault α} {s s' : State}
    (h : q.outcome? s = some (result, s')) : (attempt q).outcome? s = some (.ok result, s') := by
  show Option.bind (q.outcome? s) _ = _
  rw [h]
  rfl

end Descent

end Lox
