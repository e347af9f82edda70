/-
Parsers: functions that take tokens from the front of a list.

A parser replies with its result, or none if it gave up; with the faults it
reported on the way; and with the tokens it left.  Giving up always reports the
fault that caused it, but a fault can also be reported without giving up, where
what follows can still be made sense of.  The faults in a reply are the parser's
own: what was reported before it ran is added by whoever ran it first.

Loops take a list of tokens as bound and stop where it ends.  Started with the
tokens that are left, a loop that consumes one in every round never meets the end
of the bound before the end of the tokens, so the bound is never felt.
-/
import Lox.Grammar.Fault

namespace Lox

/-- What a parser answers. -/
structure Reply (α : Type) where
  /-- The result, unless the parser gave up. -/
  result : Option α
  /-- The faults reported, in order. -/
  faults : List SyntaxFault
  /-- The tokens left. -/
  rest : List Token
deriving Repr

/-- A parser of `α`s. -/
def Parser (α : Type) : Type := List Token → Reply α

namespace Parser

variable {α β : Type}

/-! ### Sequencing -/

/-- Go on with the result of a parser, unless it gave up. -/
def andThen (p : Parser α) (next : α → Parser β) : Parser β := fun tokens =>
  let first := p tokens
  match first.result with
  | none => ⟨none, first.faults, first.rest⟩
  | some a =>
    let second := next a first.rest
    ⟨second.result, first.faults ++ second.faults, second.rest⟩

instance : Monad Parser where
  pure a := fun tokens => ⟨some a, [], tokens⟩
  bind := andThen

theorem pure_apply (a : α) (tokens : List Token) :
    (pure a : Parser α) tokens = ⟨some a, [], tokens⟩ := rfl

theorem bind_apply (p : Parser α) (next : α → Parser β) (tokens : List Token) :
    (p >>= next) tokens = andThen p next tokens := rfl

instance : LawfulMonad Parser := by
  refine LawfulMonad.mk' (m := Parser) ?_ ?_ ?_
  · intro α p
    funext tokens
    show andThen p (fun a => pure a) tokens = p tokens
    unfold andThen
    generalize p tokens = reply
    obtain ⟨result, faults, rest⟩ := reply
    cases result <;> simp [pure_apply]
  · intro α β a f
    funext tokens
    show andThen (pure a) f tokens = f a tokens
    simp [andThen, pure_apply]
  · intro α β γ p f g
    funext tokens
    show andThen (andThen p f) g tokens = andThen p (fun a => andThen (f a) g) tokens
    simp only [andThen]
    cases h : (p tokens).result with
    | none => rfl
    | some a =>
        simp only
        cases (f a (p tokens).rest).result <;> simp

/-- A loop bounded by the tokens that are left when it starts. -/
def bounded (loop : (bound : List Token) → Parser α) : Parser α := fun tokens =>
  loop tokens tokens

/-! ### Looking at tokens -/

/-- The token that stands for the end of tokens without an end mark. -/
def missingEnd : Token := .endOfFile 0

/-- The next token, left where it is. -/
def peek : Parser Token := fun tokens => ⟨some (tokens.headD missingEnd), [], tokens⟩

/-- Leave out the next token. -/
def skip : Parser Unit := fun tokens => ⟨some (), [], tokens.drop 1⟩

/-- Take the next token if its kind is one of these. -/
def acceptAny (kinds : List Token.Kind) : Parser (Option Token)
  | token :: rest =>
    if token.kind ∈ kinds then ⟨some (some token), [], rest⟩ else ⟨some none, [], token :: rest⟩
  | [] => ⟨some none, [], []⟩

/-- Take the next token if it is of this kind. -/
def accept (kind : Token.Kind) : Parser (Option Token) := acceptAny [kind]

/-- Is the next token of this kind? -/
def check (kind : Token.Kind) : Parser Bool := fun tokens =>
  ⟨some (tokens.head?.any (·.kind = kind)), [], tokens⟩

/-! ### Faults -/

/-- Report a fault at a token and go on. -/
def reportAt (token : Token) (cause : SyntaxCause) : Parser Unit := fun tokens =>
  ⟨some (), [⟨token, cause⟩], tokens⟩

/-- Report a fault at a token and give up. -/
def failAt (token : Token) (cause : SyntaxCause) : Parser α := fun tokens =>
  ⟨none, [⟨token, cause⟩], tokens⟩

/-- Report a fault at the next token and give up. -/
def fail (cause : SyntaxCause) : Parser α := do
  failAt (← peek) cause

/-- Take the next token, which has to be of this kind. -/
def expect (kind : Token.Kind) (cause : SyntaxCause) : Parser Token := do
  match ← accept kind with
  | some token => pure token
  | none => fail cause

/-- Take a symbol that has to stand here. -/
def expectSymbol (symbol : Symbol) (place : Place) : Parser Token :=
  expect (.symbol symbol) (.missing symbol place)

/-! ### Lists with commas -/

/-- Report a fault at the next token if a list that may have at most `maxArity` elements
already has that many. -/
def limit (count : Nat) (tooMany : SyntaxCause) : Parser Unit := do
  if maxArity ≤ count then reportAt (← peek) tooMany

/-- The elements after the first `count`, each behind a comma. -/
def moreElements (element : Parser α) (tooMany : SyntaxCause) :
    (bound : List Token) → (count : Nat) → Parser (List α)
  | [], _ => pure []
  | _ :: bound, count => do
    match ← accept (.symbol .comma) with
    | none => pure []
    | some _ =>
      limit count tooMany
      let a ← element
      let more ← moreElements element tooMany bound (count + 1)
      pure (a :: more)

/-- Elements separated by commas, none if a closing parenthesis stands here. -/
def elements (element : Parser α) (tooMany : SyntaxCause) : Parser (List α) := do
  if ← check (.symbol .rightParen) then
    pure []
  else
    let first ← element
    let more ← bounded fun bound => moreElements element tooMany bound 1
    pure (first :: more)

end Parser

end Lox
