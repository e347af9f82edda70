/-
Scanning: the tokens of a source text.

Each segment that is not mere layout gives one item, a token or a fault, on the
line where it ends; the end mark follows as the last item.  The only thing carried
from one segment to the next is the line.
-/
import Lox.Diagnostic
import Lox.Token.Segment

namespace Lox

/-! ### Lexical faults -/

/-- What can be wrong with a piece of source text. -/
inductive LexicalCause where
  | unexpectedCharacter
  | unterminatedString
deriving DecidableEq, Repr

/-- A piece of source text that is no token, and the line on which it ends. -/
structure LexicalFault where
  line : Nat
  cause : LexicalCause
deriving DecidableEq, Repr

/-- The wording of a lexical cause. -/
def LexicalCause.message : LexicalCause → String
  | unexpectedCharacter => "Unexpected character."
  | unterminatedString => "Unterminated string."

/-- The report of a lexical fault. -/
def LexicalFault.diagnostic (f : LexicalFault) : Diagnostic :=
  .lexical f.line f.cause.message

/-! ### Items -/

/-- What scanning yields: a token, or a fault in the place of one. -/
abbrev Item := Except LexicalFault Token

namespace Segment

/-- How many lines a segment moves on. -/
def newlines (s : Segment) : Nat := s.text.count '\n'

/-- The value written by a number's digits. -/
def numberValue (text : List Char) : Number :=
  .ofDecimal (.ofDigits (text.takeWhile Char.isDigit) ((text.dropWhile Char.isDigit).drop 1))

/-- What stands between a string's quotes. -/
def contents (text : List Char) : List Char := (text.drop 1).dropLast

/-- The kind of token a segment makes, a fault, or nothing for layout. -/
def kind? (s : Segment) : Option (Except LexicalCause Token.Kind) :=
  match s.shape with
  | .blank => none
  | .comment => none
  | .symbol symbol => some (.ok (.symbol symbol))
  | .string => some (.ok (.string (String.ofList (contents s.text))))
  | .number => some (.ok (.number (numberValue s.text)))
  | .word => some (.ok (.ofWord (String.ofList s.text)))
  | .unterminated => some (.error .unterminatedString)
  | .stray => some (.error .unexpectedCharacter)

/-- The item a segment gives if it ends on this line. -/
def item? (s : Segment) (line : Nat) : Option Item :=
  s.kind?.map fun
    | .ok kind => .ok ⟨kind, String.ofList s.text, line⟩
    | .error cause => .error ⟨line, cause⟩

/-- The items of segments that begin on this line, and the end mark. -/
def items (line : Nat) : List Segment → List Item
  | [] => [.ok (.endOfFile line)]
  | s :: rest =>
    let line := line + s.newlines
    (s.item? line).toList ++ items line rest

end Segment

/-! ### Sources -/

/-- The items of a source text, in order; the last one is the end mark. -/
def scan (source : String) : List Item :=
  Segment.items 1 (Segment.split source.toList)

/-- The tokens among items. -/
def Item.tokens (items : List Item) : List Token :=
  items.filterMap fun | .ok token => some token | .error _ => none

/-- The faults among items. -/
def Item.faults (items : List Item) : List LexicalFault :=
  items.filterMap fun | .ok _ => none | .error fault => some fault

end Lox
