/-
The parsers as one would write them if recursion were free.

A bound that is never felt can be left out, and an element of a list read together
with what is behind it.  And instead of looking at a token to tell what stands there,
a parser can try the tokens that may stand there one after the other.  These are the
productions in the form that the procedures of `Descent` have.
-/
import Lox.Proofs.Grammar.Replies
import Lox.Proofs.Grammar.Progress

namespace Lox

namespace Parser

variable {α : Type}

/-! ### Lists with commas -/

/-- An element and the others behind it, if `count` came before. -/
def elementsFrom (element : Parser α) (tooMany : SyntaxCause) (count : Nat) :
    Parser (List α) := do
  limit count tooMany
  let first ← element
  let more ← moreElementsAfter element tooMany (count + 1)
  pure (first :: more)

theorem elementsFrom_eq {element : Parser α} (h : Composed element) (tooMany : SyntaxCause)
    (count : Nat) :
    elementsFrom element tooMany count = (do
      limit count tooMany
      let first ← element
      match ← accept (.symbol .comma) with
      | none => pure [first]
      | some _ =>
        let more ← elementsFrom element tooMany (count + 1)
        pure (first :: more)) := by
  unfold elementsFrom
  rw [moreElementsAfter_eq h]
  simp only [bind_assoc]
  refine bind_congr fun _ => bind_congr fun first => bind_congr fun found => ?_
  cases found <;> simp

theorem elements_eq (element : Parser α) (tooMany : SyntaxCause) :
    elements element tooMany = (do
      if ← check (.symbol .rightParen) then pure [] else elementsFrom element tooMany 0) := by
  have hlimit : limit 0 tooMany = pure () := rfl
  unfold elements elementsFrom
  rw [hlimit]
  simp only [pure_bind]
  rfl

/-! ### Expressions -/

theorem accept_bind_cons (kind : Token.Kind) (next : Option Token → Parser α) (token : Token)
    (rest : List Token) :
    (accept kind >>= next) (token :: rest) =
      if token.kind = kind then next (some token) rest else next none (token :: rest) := by
  rw [bind_apply, andThen, accept, acceptAny]
  by_cases h : token.kind = kind <;> simp [h]

/-- The rest of a call, behind its opening parenthesis. -/
def finishCall (nested : Parser Expr) (callee : Expr) : Parser Expr := do
  let arguments ← elements nested .tooManyArguments
  let paren ← expectSymbol .rightParen .afterArguments
  pure (.call callee paren arguments)

theorem callsOn_eq_finishCall {nested : Parser Expr} (h : Composed nested) (callee : Expr) :
    callsOn nested callee = (do
      match ← accept (.symbol .leftParen) with
      | none => pure callee
      | some _ =>
        let called ← finishCall nested callee
        callsOn nested called) := by
  rw [callsOn_eq h]
  refine bind_congr fun found => ?_
  cases found with
  | none => rfl
  | some _ => simp only [finishCall, bind_assoc, pure_bind]

/-- The next token tells whether a primary is an atom or stands in parentheses. -/
theorem primary_eq (nested : Parser Expr) :
    primary nested = (do
      let token ← peek
      match atom? token with
      | some e =>
        skip
        pure e
      | none =>
        if token.kind = .symbol .leftParen then
          skip
          let inner ← nested
          let _ ← expectSymbol .rightParen .afterExpression
          pure (.grouping inner)
        else
          failAt token .noExpression) := by
  funext tokens
  cases tokens with
  | nil => rfl
  | cons token rest =>
      rw [primary, peek_bind_cons, peek_bind_cons]
      cases atom? token with
      | some e => rfl
      | none =>
          by_cases h : token.kind = .symbol .leftParen
          · simp [accept_bind_cons, skip_bind_cons, h]
          · simp [accept_bind_cons, peek_bind_cons, fail, h]

/-! ### Statements and declarations

The parsers look at the next token once and decide.  Procedures try one keyword after
another.  That comes to the same, as each token is accepted by one of them at most.
-/

/-- The tokens that a statement can start with, tried one after the other. -/
theorem statement_eq_tried (f : Bool) :
    statement f = (do
      match ← accept (.keyword .for_) with
      | some _ => forStatement (statement f)
      | none =>
      match ← accept (.keyword .if_) with
      | some _ => ifStatement (statement f)
      | none =>
      match ← accept (.keyword .print_) with
      | some _ => printStatement
      | none =>
      match ← accept (.keyword .return_) with
      | some keyword => returnStatement f keyword
      | none =>
      match ← accept (.keyword .while_) with
      | some _ => whileStatement (statement f)
      | none =>
      match ← accept (.symbol .leftBrace) with
      | some _ =>
        let body ← block (declaration f)
        pure (.block body)
      | none => expressionStatement) := by
  funext tokens
  cases tokens with
  | nil => rfl
  | cons token rest =>
      rw [statement_cons]
      split <;> simp_all [accept_bind_cons]

/-- The keywords that a declaration can start with, tried one after the other. -/
theorem declarationBody_eq_tried (s : Parser Stmt) (inFunction : Parser (Option Stmt)) :
    declarationBody s inFunction = (do
      match ← accept (.keyword .fun_) with
      | some _ => functionDeclaration inFunction
      | none =>
      match ← accept (.keyword .var_) with
      | some _ => varDeclaration
      | none => s) := by
  funext tokens
  cases tokens with
  | nil => rfl
  | cons token rest =>
      rw [declarationBody_cons]
      split <;> simp_all [accept_bind_cons]

/-- Skip to where a declaration is likely to start. -/
def synchronizing : Parser Unit := fun tokens => ⟨some (), [], synchronized tokens⟩

/-- Go on skipping behind this token, which was skipped. -/
def synchronizingBehind (token : Token) : Parser Unit := do
  if token.kind = .symbol .semicolon then
    pure ()
  else if startsDeclaration (← peek) then
    pure ()
  else
    synchronizing

theorem synchronizing_cons {token : Token} (h : token.isEnd = false) (rest : List Token) :
    synchronizing (token :: rest) = synchronizingBehind token rest := by
  have hpeek (next : Token → Parser Unit) : (peek >>= next) rest =
      next (rest.headD missingEnd) rest := rfl
  have hhead : rest.head?.any startsDeclaration = startsDeclaration (rest.headD missingEnd) := by
    cases rest <;> rfl
  rw [synchronizing, synchronized, if_neg (by rw [h]; exact Bool.false_ne_true), hhead]
  unfold synchronizingBehind
  split
  · rfl
  · rw [hpeek]
    split <;> rfl

/-- Declarations up to where they stop. -/
def declarationsUntil (stop : Token → Bool) (declaration : Parser (Option Stmt)) :
    Parser (List Stmt) :=
  bounded (declarations stop declaration)

/-- Where a list of declarations goes on, there is no end mark. -/
theorem isEnd_of_goesOn {stop : Token → Bool}
    (hstop : ∀ token : Token, token.isEnd = true → stop token = true) {token : Token}
    (h : stop token = false) : token.isEnd = false :=
  Bool.eq_false_iff.mpr fun hend => Bool.false_ne_true (h.symm.trans (hstop token hend))

theorem declarationsUntil_eq {stop : Token → Bool} {declaration : Parser (Option Stmt)}
    (hstop : ∀ token : Token, token.isEnd = true → stop token = true) (h : Composed declaration)
    (hadvance : Advances declaration) :
    declarationsUntil stop declaration = (do
      if stop (← peek) then
        pure []
      else
        let first ← declaration
        let more ← declarationsUntil stop declaration
        pure (first.toList ++ more)) := by
  funext tokens
  cases tokens with
  | nil =>
      show _ = (if stop missingEnd = true then _ else _ : Parser _) []
      rw [if_pos (hstop missingEnd rfl)]
      rfl
  | cons token rest =>
      show (if stop token = true then _ else _ : Parser _) (token :: rest) =
        (if stop token = true then _ else _ : Parser _) (token :: rest)
      cases hcontinue : stop token with
      | true => rfl
      | false =>
          have hend := isEnd_of_goesOn hstop hcontinue
          have hmore (first : Option Stmt) : AgreeBelow (rest.length + 1)
              (declarations stop declaration rest >>= fun more => pure (first.toList ++ more))
              (declarationsUntil stop declaration >>= fun more => pure (first.toList ++ more)) :=
            .bind (.declarations h rest)
              ((declarations_boundFree hstop h hadvance).agree_bounded rest) fun _ => .refl _
          have hleft := Nat.lt_succ_of_le (hadvance token rest hend)
          show (declaration >>= _) (token :: rest) = (declaration >>= _) (token :: rest)
          rw [bind_apply, bind_apply, andThen, andThen]
          cases (declaration (token :: rest)).result with
          | none => rfl
          | some first => simp only [hmore first _ hleft]

end Parser

end Lox
