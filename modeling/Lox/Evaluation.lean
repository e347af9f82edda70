/-
Evaluation of expressions and execution of statements.

A program need not end, so each of the functions here takes fuel, one unit of which
goes into every step downwards and every round of a loop.  Running out is told
apart from everything a program can do; more fuel never changes an answer that was
given without running out.
-/
import Lox.Operator

namespace Lox

/-- How a statement ends that does not stop: by itself, or by returning from the function. -/
inductive Flow where
  | normal
  | returned (value : Value)

/-- What a call gives whose body ended like this. -/
def Flow.result : Flow → Value
  | normal => .nil
  | returned v => v

/-- The names of parameters with the arguments they are bound to. -/
def Closure.arguments (f : Closure) (values : List Value) : Bindings :=
  .ofPairs ((f.params.map Token.lexeme).zip values)

namespace Exec

mutual

/-- The value of an expression. -/
def evaluate : (fuel : Nat) → Expr → Exec Value
  | 0, _ => throw .outOfFuel
  | fuel + 1, .assign name value => do
    let v ← evaluate fuel value
    assign name v
    pure v
  | fuel + 1, .binary left op right => do
    let l ← evaluate fuel left
    let r ← evaluate fuel right
    ofOutcome op (binaryOutcome op.kind l r)
  | fuel + 1, .call callee paren arguments => do
    let f ← evaluate fuel callee
    let values ← evaluateAll fuel arguments
    match f.callee? with
    | none => raise paren .notCallable
    | some f =>
      if values.length = f.arity then
        call fuel f values
      else
        raise paren (.wrongArgumentCount f.arity values.length)
  | _ + 1, .get _ name => raise name .propertyAccess
  | fuel + 1, .grouping inner => evaluate fuel inner
  | _ + 1, .literal value => pure (.ofLiteral value)
  | fuel + 1, .logical left op right => do
    let l ← evaluate fuel left
    match decidedByLeft op.kind l with
    | some true => pure l
    | some false => evaluate fuel right
    | none => raise op .unknownLogicalOperator
  | _ + 1, .set _ name _ => raise name .propertyAssignment
  | _ + 1, .super keyword _ => raise keyword .superKeyword
  | _ + 1, .this keyword => raise keyword .thisKeyword
  | fuel + 1, .unary op right => do
    let r ← evaluate fuel right
    ofOutcome op (unaryOutcome op.kind r)
  | _ + 1, .var name => fetch name

/-- The values of expressions, from the first to the last. -/
def evaluateAll : (fuel : Nat) → List Expr → Exec (List Value)
  | 0, _ => throw .outOfFuel
  | _ + 1, [] => pure []
  | fuel + 1, e :: es => do
    let v ← evaluate fuel e
    let vs ← evaluateAll fuel es
    pure (v :: vs)

/-- Call a function with as many arguments as it takes.  The body of a function of the program
runs in a scope inside the one the function was declared in. -/
def call : (fuel : Nat) → Callee → List Value → Exec Value
  | 0, _, _ => throw .outOfFuel
  | fuel + 1, .function f, values => do
    let flow ← within f.scope (f.arguments values) (executeAll fuel f.body)
    pure flow.result
  | _ + 1, .native .clock, _ => do
    let now ← readClock
    pure (.number now)

/-- Execute a statement. -/
def execute : (fuel : Nat) → Stmt → Exec Flow
  | 0, _ => throw .outOfFuel
  | fuel + 1, .block body => nested (executeAll fuel body)
  | fuel + 1, .expression value => do
    let _ ← evaluate fuel value
    pure .normal
  | _ + 1, .function name params body => do
    let f ← makeFunction name params body
    define name f
    pure .normal
  | fuel + 1, .conditional condition thenBranch elseBranch => do
    let c ← evaluate fuel condition
    if c.truthy then
      execute fuel thenBranch
    else
      match elseBranch with
      | some s => execute fuel s
      | none => pure .normal
  | fuel + 1, .print value => do
    let v ← evaluate fuel value
    emit (v.text ++ "\n")
    pure .normal
  | _ + 1, .return_ _ none => pure (.returned .nil)
  | fuel + 1, .return_ _ (some value) => do
    let v ← evaluate fuel value
    pure (.returned v)
  | _ + 1, .var name none => do
    define name .nil
    pure .normal
  | fuel + 1, .var name (some initializer) => do
    let v ← evaluate fuel initializer
    define name v
    pure .normal
  | fuel + 1, .loop condition body => do
    let c ← evaluate fuel condition
    if c.truthy then
      match ← execute fuel body with
      | .normal => execute fuel (.loop condition body)
      | .returned v => pure (.returned v)
    else
      pure .normal

/-- Execute statements in order, up to one that returns. -/
def executeAll : (fuel : Nat) → List Stmt → Exec Flow
  | 0, _ => throw .outOfFuel
  | _ + 1, [] => pure .normal
  | fuel + 1, s :: ss => do
    match ← execute fuel s with
    | .normal => executeAll fuel ss
    | .returned v => pure (.returned v)

end

/-- Run a program in the current scope.  A `return` outside of functions ends it. -/
def interpret (fuel : Nat) (program : List Stmt) : Exec Unit := do
  let _ ← executeAll fuel program
  pure ()

end Exec

end Lox
