/-
The machine that runs programs: its state, its faults, and its elementary steps.

A step changes the state and gives a result or stops.  The state is kept when a
step stops, so what was defined and printed before a fault stays.
-/
import Lox.Diagnostic
import Lox.Output
import Lox.Scope

namespace Lox

/-! ### Faults -/

/-- What a running program can do wrong. -/
inductive RuntimeCause where
  | undefinedVariable (name : String)
  | operandNotNumber
  | operandsNotNumbers
  /-- Neither two numbers nor two strings. -/
  | operandsNotAddable
  | notCallable
  | wrongArgumentCount (expected given : Nat)
  | unknownUnaryOperator
  | unknownBinaryOperator
  | unknownLogicalOperator
  | propertyAccess
  | propertyAssignment
  | superKeyword
  | thisKeyword
deriving DecidableEq, Repr

/-- The wording of a runtime cause. -/
def RuntimeCause.message : RuntimeCause → String
  | undefinedVariable name => "Undefined variable '" ++ name ++ "'."
  | operandNotNumber => "Operand must be a number."
  | operandsNotNumbers => "Operands must be numbers."
  | operandsNotAddable => "Operands must be two numbers or two strings."
  | notCallable => "Can only call functions and classes."
  | wrongArgumentCount expected given =>
    "Expected " ++ toString expected ++ " arguments but got " ++ toString given ++ "."
  | unknownUnaryOperator => "Unknown unary operator."
  | unknownBinaryOperator => "Unknown binary operator."
  | unknownLogicalOperator => "Unknown logical operator."
  | propertyAccess => "Property access is not supported."
  | propertyAssignment => "Property assignment is not supported."
  | superKeyword => "'super' is not supported."
  | thisKeyword => "'this' is not supported."

/-- What ends a run early. -/
inductive RuntimeFault where
  /-- The program went wrong at a token. -/
  | raised (token : Token) (cause : RuntimeCause)
  /-- There was no room for all of a printed text. -/
  | outputFull
deriving DecidableEq, Repr

/-- The report of a runtime fault. -/
def RuntimeFault.diagnostic : RuntimeFault → Diagnostic
  | raised token cause => .runtime token cause.message
  | outputFull => .io "sink is full"

/-- Why a step did not finish. -/
inductive Stop where
  | fault (fault : RuntimeFault)
  /-- The fuel it was given did not suffice. -/
  | outOfFuel
deriving DecidableEq, Repr

/-! ### State -/

/-- The state of a machine. -/
structure Machine where
  store : Store
  /-- The current scope. -/
  scope : ScopeId
  /-- How many functions have been made; the next one made has this identity. -/
  functions : Nat
  output : Output
  /-- What the clock shows each time it is read. -/
  clock : Nat → Number
  /-- How often it has been read. -/
  readings : Nat

/-- The number of the global scope. -/
def globalScope : ScopeId := 0

/-- A machine that has not run anything: one scope, in which the native functions are defined. -/
def Machine.start (clock : Nat → Number) (room : Option Nat) : Machine where
  store := Store.empty.pushRoot [(Native.clock.name, .native .clock)]
  scope := globalScope
  functions := 0
  output := .empty room
  clock := clock
  readings := 0

/-- A step of a machine. -/
abbrev Exec := EStateM Stop Machine

namespace Exec

variable {α : Type}

/-! ### Elementary steps

A step that changes the machine takes it apart first.  So what is changed is held by
nothing else, and can be changed in place.
-/

/-- Stop with a fault at a token. -/
def raise (token : Token) (cause : RuntimeCause) : Exec α :=
  throw (.fault (.raised token cause))

/-- Print a text. -/
def emit (text : String) : Exec Unit := fun ⟨store, scope, functions, output, clock, readings⟩ =>
  match output.write text with
  | (output, true) => .ok () ⟨store, scope, functions, output, clock, readings⟩
  | (output, false) =>
    .error (.fault .outputFull) ⟨store, scope, functions, output, clock, readings⟩

/-- Read the clock. -/
def readClock : Exec Number := fun ⟨store, scope, functions, output, clock, readings⟩ =>
  .ok (clock readings) ⟨store, scope, functions, output, clock, readings + 1⟩

/-- The value of a variable. -/
def fetch (name : Token) : Exec Value := fun m =>
  match m.store.get? m.scope name.lexeme with
  | some v => .ok v m
  | none => raise name (.undefinedVariable name.lexeme) m

/-- Give a variable that exists a new value. -/
def assign (name : Token) (value : Value) : Exec Unit :=
  fun ⟨store, scope, functions, output, clock, readings⟩ =>
    match store.resolve? scope name.lexeme with
    | some j => .ok () ⟨store.define j name.lexeme value, scope, functions, output, clock, readings⟩
    | none =>
      raise name (.undefinedVariable name.lexeme)
        ⟨store, scope, functions, output, clock, readings⟩

/-- Define a variable in the current scope. -/
def define (name : Token) (value : Value) : Exec Unit :=
  fun ⟨store, scope, functions, output, clock, readings⟩ =>
    .ok () ⟨store.define scope name.lexeme value, scope, functions, output, clock, readings⟩

/-- Make a function that closes over the current scope. -/
def makeFunction (name : Token) (params : List Token) (body : List Stmt) : Exec Value :=
  fun ⟨store, scope, functions, output, clock, readings⟩ =>
    .ok (.function ⟨functions, name, params, body, scope⟩)
      ⟨store, scope, functions + 1, output, clock, readings⟩

/-- Run a step in a new scope inside `parent` with these bindings.  The scope that was current
is so again however the step ends. -/
def within (parent : ScopeId) (bindings : Bindings) (step : Exec α) : Exec α :=
  fun ⟨store, scope, functions, output, clock, readings⟩ =>
    let inner := store.size
    match step ⟨store.pushChild parent bindings, inner, functions, output, clock, readings⟩ with
    | .ok a ⟨store, _, functions, output, clock, readings⟩ =>
      .ok a ⟨store, scope, functions, output, clock, readings⟩
    | .error stop ⟨store, _, functions, output, clock, readings⟩ =>
      .error stop ⟨store, scope, functions, output, clock, readings⟩

/-- Run a step in a new scope inside the current one. -/
def nested (step : Exec α) : Exec α := fun m => within m.scope [] step m

end Exec

end Lox
