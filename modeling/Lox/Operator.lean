/-
What the operators do to values.
-/
import Lox.Machine

namespace Lox

/-- The outcome of an operation: a value, or the reason there is none. -/
abbrev Outcome := Except RuntimeCause Value

/-- An operation on two numbers. -/
def onNumbers (operation : Number → Number → Value) : Value → Value → Outcome
  | .number a, .number b => .ok (operation a b)
  | _, _ => .error .operandsNotNumbers

/-- Addition of numbers, or the joining of strings. -/
def sum : Value → Value → Outcome
  | .number a, .number b => .ok (.number (a + b))
  | .string a, .string b => .ok (.string (a ++ b))
  | _, _ => .error .operandsNotAddable

/-- What an operator between two values gives. -/
def binaryOutcome (op : Token.Kind) (left right : Value) : Outcome :=
  match op with
  | .symbol .plus => sum left right
  | .symbol .minus => onNumbers (fun a b => .number (a - b)) left right
  | .symbol .star => onNumbers (fun a b => .number (a * b)) left right
  | .symbol .slash => onNumbers (fun a b => .number (a / b)) left right
  | .symbol .greater => onNumbers (fun a b => .bool (b.less a)) left right
  | .symbol .greaterEqual => onNumbers (fun a b => .bool (b.atMost a)) left right
  | .symbol .less => onNumbers (fun a b => .bool (a.less b)) left right
  | .symbol .lessEqual => onNumbers (fun a b => .bool (a.atMost b)) left right
  | .symbol .equalEqual => .ok (.bool (left.equals right))
  | .symbol .bangEqual => .ok (.bool (!left.equals right))
  | _ => .error .unknownBinaryOperator

/-- What an operator in front of a value gives. -/
def unaryOutcome (op : Token.Kind) (right : Value) : Outcome :=
  match op, right with
  | .symbol .minus, .number n => .ok (.number (-n))
  | .symbol .minus, _ => .error .operandNotNumber
  | .symbol .bang, v => .ok (.bool !v.truthy)
  | _, _ => .error .unknownUnaryOperator

/-- Does the left operand already decide a logical operation?  Nothing if the operator is none
of theirs. -/
def decidedByLeft (op : Token.Kind) (left : Value) : Option Bool :=
  match op with
  | .keyword .or_ => some left.truthy
  | .keyword .and_ => some !left.truthy
  | _ => none

/-- The outcome as a step; a fault is raised at the operator. -/
def Exec.ofOutcome (op : Token) : Outcome → Exec Value
  | .ok v => pure v
  | .error cause => raise op cause

end Lox
