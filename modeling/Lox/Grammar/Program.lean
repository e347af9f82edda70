/-
Parsing whole programs.

    program → declaration* END
-/
import Lox.Grammar.Statement

namespace Lox

/-- What parsing makes of a list of tokens. -/
structure Parsed where
  /-- The declarations in which no fault was reported. -/
  statements : List Stmt
  /-- All faults, in order. -/
  faults : List SyntaxFault
deriving Repr

/-- The declarations before the end mark. -/
def Parser.program : Parser (List Stmt) :=
  bounded (declarations Token.isEnd (declaration false))

/-- Parse a list of tokens.  What comes after the first end mark is ignored, and tokens without
one are taken as if they had it. -/
def parse (tokens : List Token) : Parsed :=
  let reply := Parser.program tokens
  ⟨reply.result.getD [], reply.faults⟩

end Lox
