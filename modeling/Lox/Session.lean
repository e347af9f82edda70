/-
Sessions: source texts run one after another on one machine.

A source that cannot be scanned and parsed without fault is not run at all, and
the machine stays as it was; all its faults are reported, those of scanning first.
-/
import Lox.Evaluation
import Lox.Grammar.Program
import Lox.Token.Scan

namespace Lox

/-- How the run of a source ended. -/
inductive RunResult where
  | finished
  /-- The source was refused for these faults, and nothing was executed. -/
  | rejected (lexical : List LexicalFault) (syntactic : List SyntaxFault)
  /-- The program stopped at a fault. -/
  | stopped (fault : RuntimeFault)
  /-- The fuel given did not suffice. -/
  | unfinished
deriving DecidableEq, Repr

namespace RunResult

/-- The reports of what went wrong, in order. -/
def diagnostics : RunResult → List Diagnostic
  | finished => []
  | rejected lexical syntactic =>
    lexical.map LexicalFault.diagnostic ++ syntactic.map SyntaxFault.diagnostic
  | stopped fault => [fault.diagnostic]
  | unfinished => []

/-- The exit code that tells how the run ended. -/
def exitCode : RunResult → Nat
  | finished => 0
  | rejected _ _ => 65
  | stopped _ => 70
  | unfinished => 70

end RunResult

namespace Machine

/-- Run a parsed program. -/
def interpret (m : Machine) (fuel : Nat) (program : List Stmt) : RunResult × Machine :=
  match Exec.interpret fuel program m with
  | .ok _ m => (.finished, m)
  | .error (.fault fault) m => (.stopped fault, m)
  | .error .outOfFuel m => (.unfinished, m)

/-- Run a source text. -/
def run (m : Machine) (fuel : Nat) (source : String) : RunResult × Machine :=
  let items := scan source
  let lexical := Item.faults items
  let parsed := parse (Item.tokens items)
  if lexical.isEmpty && parsed.faults.isEmpty then
    m.interpret fuel parsed.statements
  else
    (.rejected lexical parsed.faults, m)

end Machine

end Lox
