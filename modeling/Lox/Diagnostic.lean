/-
Diagnostics: what is reported to the user, and how it reads.
-/
import Lox.Token

namespace Lox

/-- A reported fault: where it was found and what is wrong. -/
inductive Diagnostic where
  /-- Found while scanning; only its line is known. -/
  | lexical (line : Nat) (message : String)
  /-- Found while parsing, at a token. -/
  | syntactic (token : Token) (message : String)
  /-- Raised while running, at a token. -/
  | runtime (token : Token) (message : String)
  /-- Raised by the world outside the program. -/
  | io (message : String)
deriving DecidableEq, Repr

namespace Diagnostic

/-- The line the diagnostic points at, if it points into a program. -/
def line? : Diagnostic → Option Nat
  | lexical line _ => some line
  | syntactic token _ => some token.line
  | runtime token _ => some token.line
  | io _ => none

/-- What is wrong, without the place. -/
def message : Diagnostic → String
  | lexical _ message => message
  | syntactic _ message => message
  | runtime _ message => message
  | io message => message

/-- Was the fault raised by the running program? -/
def isRuntime : Diagnostic → Bool
  | runtime _ _ => true
  | _ => false

/-- How a place in the program is named: by its text, or as the end. -/
def place (token : Token) : String :=
  if token.isEnd then " at end" else " at '" ++ token.lexeme ++ "'"

/-- The reference to a line. -/
def lineTag (line : Nat) : String := "[line " ++ toString line ++ "]"

/-- The text of a diagnostic: static faults lead with their line, runtime faults end with it. -/
def text : Diagnostic → String
  | lexical line message => lineTag line ++ " Error: " ++ message
  | syntactic token message => lineTag token.line ++ " Error" ++ place token ++ ": " ++ message
  | runtime token message => message ++ "\n" ++ lineTag token.line
  | io message => message

end Diagnostic

end Lox
