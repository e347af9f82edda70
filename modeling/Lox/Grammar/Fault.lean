/-
Syntactic faults: what was missing, where, and how that reads.
-/
import Lox.Diagnostic

namespace Lox

/-- Where a mark was looked for. -/
inductive Place where
  | afterVariableDeclaration
  | afterFor | afterLoopCondition | afterForClauses
  | afterIf | afterIfCondition
  | afterWhile | afterCondition
  | afterValue | afterReturnValue | afterExpression | afterArguments
  | afterFunctionName | afterParameters | beforeFunctionBody
  | afterBlock
deriving DecidableEq, Repr

/-- The wording of a place. -/
def Place.text : Place → String
  | afterVariableDeclaration => "after variable declaration"
  | afterFor => "after 'for'"
  | afterLoopCondition => "after loop condition"
  | afterForClauses => "after for clauses"
  | afterIf => "after 'if'"
  | afterIfCondition => "after if condition"
  | afterWhile => "after 'while'"
  | afterCondition => "after condition"
  | afterValue => "after value"
  | afterReturnValue => "after return value"
  | afterExpression => "after expression"
  | afterArguments => "after arguments"
  | afterFunctionName => "after function name"
  | afterParameters => "after parameters"
  | beforeFunctionBody => "before function body"
  | afterBlock => "after block"

/-- What can be wrong with a sequence of tokens. -/
inductive SyntaxCause where
  | noExpression
  | noVariableName
  | noFunctionName
  | noParameterName
  /-- A mark is not where the grammar wants it. -/
  | missing (symbol : Symbol) (place : Place)
  /-- A `return` that no function encloses. -/
  | returnOutsideFunction
  | tooManyParameters
  | tooManyArguments
  /-- An assignment to something that is not a variable. -/
  | invalidTarget
deriving DecidableEq, Repr

/-- The most parameters a function, and arguments a call, may have. -/
def maxArity : Nat := 255

/-- The wording of a syntactic cause. -/
def SyntaxCause.message : SyntaxCause → String
  | noExpression => "Expect expression."
  | noVariableName => "Expect variable name."
  | noFunctionName => "Expect function name."
  | noParameterName => "Expect parameter name."
  | missing symbol place => "Expect '" ++ symbol.text ++ "' " ++ place.text ++ "."
  | returnOutsideFunction => "Can't return from top-level code."
  | tooManyParameters => "Can't have more than " ++ toString maxArity ++ " parameters."
  | tooManyArguments => "Can't have more than " ++ toString maxArity ++ " arguments."
  | invalidTarget => "Invalid assignment target."

/-- A place where the tokens leave the grammar. -/
structure SyntaxFault where
  token : Token
  cause : SyntaxCause
deriving DecidableEq, Repr

/-- The report of a syntactic fault. -/
def SyntaxFault.diagnostic (f : SyntaxFault) : Diagnostic :=
  .syntactic f.token f.cause.message

end Lox
