/-
Parsers are put together from a few.

Every parser of the grammar is made of the same small parts: looking at the next
token, taking it if it is of some kind, reporting a fault, giving up, and doing one
thing after another.  `Composed` says so, with one line for each part of each
production.  What holds of the parts and survives putting them together then holds
of the whole grammar, and is proved by induction on `Composed` instead of once for
every production.

A token is left out unseen by no part: `look` skips a token only after looking at
it, and never the end mark.
-/
import Lox.Grammar.Program

namespace Lox.Parser

/-- Parsers put together from the elementary ones. -/
inductive Composed : {α : Type} → Parser α → Prop where
  | pure {α : Type} (a : α) : Composed (Pure.pure a : Parser α)
  | bind {α β : Type} {p : Parser α} {next : α → Parser β} (hp : Composed p)
      (hnext : ∀ a, Composed (next a)) : Composed (p >>= next)
  | bounded {α : Type} {loop : (bound : List Token) → Parser α}
      (h : ∀ bound, Composed (loop bound)) : Composed (bounded loop)
  | check (kind : Token.Kind) : Composed (check kind)
  | acceptAny (kinds : List Token.Kind) : Composed (acceptAny kinds)
  | reportAt (token : Token) (cause : SyntaxCause) : Composed (reportAt token cause)
  | failAt {α : Type} (token : Token) (cause : SyntaxCause) :
      Composed (failAt token cause : Parser α)
  | look {α : Type} {f : Token → Parser α} (skips : Token → Bool) (next : Token → Parser α)
      (hf : ∀ token, f token = if skips token then skip >>= fun _ => next token else next token)
      (hend : ∀ token, skips token = true → token.isEnd = false)
      (hnext : ∀ token, Composed (next token)) : Composed (peek >>= f)
  | recovering {declaration : Parser Stmt} (h : Composed declaration) :
      Composed (recovering declaration)

/-- A declaration that does not recover when it is given up. -/
def declarationBody (statement : Parser Stmt) (inFunction : Parser (Option Stmt)) :
    Parser Stmt := do
  match (← peek).kind with
  | .keyword .fun_ => skip; functionDeclaration inFunction
  | .keyword .var_ => skip; varDeclaration
  | _ => statement

theorem declarationOf_eq (statement : Parser Stmt) (inFunction : Parser (Option Stmt)) :
    declarationOf statement inFunction = recovering (declarationBody statement inFunction) := rfl

/-- A primary expression where no atom stands. -/
def grouped (nested : Parser Expr) : Parser Expr := do
  match ← accept (.symbol .leftParen) with
  | some _ =>
    let inner ← nested
    let _ ← expectSymbol .rightParen .afterExpression
    pure (.grouping inner)
  | none => fail .noExpression

namespace Composed

variable {α β : Type}

/-! ### Looking at tokens and reporting faults -/

/-- Looking at the next token without skipping it. -/
theorem peek {f : Token → Parser α} (h : ∀ token, Composed (f token)) :
    Composed (Parser.peek >>= f) :=
  look (fun _ => false) f (fun _ => rfl) (fun _ h => Bool.noConfusion h) h

theorem accept (kind : Token.Kind) : Composed (accept kind) := acceptAny _

theorem fail (cause : SyntaxCause) : Composed (fail cause : Parser α) :=
  peek fun _ => failAt _ _

theorem expect (kind : Token.Kind) (cause : SyntaxCause) : Composed (expect kind cause) :=
  (accept kind).bind fun
    | some _ => pure _
    | none => fail _

theorem expectSymbol (symbol : Symbol) (place : Place) : Composed (expectSymbol symbol place) :=
  expect _ _

/-! ### Lists with commas -/

theorem limit (count : Nat) (tooMany : SyntaxCause) : Composed (limit count tooMany) := by
  unfold Parser.limit
  split
  · exact peek fun _ => reportAt _ _
  · exact pure _

theorem moreElements {element : Parser α} (h : Composed element) (tooMany : SyntaxCause) :
    ∀ bound count, Composed (moreElements element tooMany bound count)
  | [], _ => pure _
  | _ :: bound, count => (accept _).bind fun
      | none => pure _
      | some _ => (limit _ _).bind fun _ => h.bind fun _ =>
          (moreElements h tooMany bound (count + 1)).bind fun _ => pure _

theorem elements {element : Parser α} (h : Composed element) (tooMany : SyntaxCause) :
    Composed (elements element tooMany) :=
  (check _).bind fun
    | true => pure _
    | false => h.bind fun _ =>
        (bounded fun bound => moreElements h tooMany bound 1).bind fun _ => pure _

/-! ### Expressions -/

theorem isEnd_of_atom? {token : Token} {e : Expr} (h : atom? token = some e) :
    token.isEnd = false := by
  cases hend : token.isEnd with
  | false => rfl
  | true =>
      have hkind : token.kind = .endOfFile := by simpa [Token.isEnd] using hend
      simp [atom?, hkind] at h

theorem grouped {nested : Parser Expr} (h : Composed nested) : Composed (grouped nested) :=
  (accept _).bind fun
    | some _ => h.bind fun _ => (expectSymbol _ _).bind fun _ => pure _
    | none => fail _

theorem primary {nested : Parser Expr} (h : Composed nested) : Composed (primary nested) := by
  refine look (fun token => (atom? token).isSome)
    (fun token => (atom? token).elim (Parser.grouped nested) Pure.pure) ?_ ?_ ?_
  · intro token
    cases atom? token <;> rfl
  · intro token hsome
    obtain ⟨e, he⟩ := Option.isSome_iff_exists.mp hsome
    exact isEnd_of_atom? he
  · intro token
    cases atom? token with
    | some e => exact pure _
    | none => exact grouped h

theorem calls {nested : Parser Expr} (h : Composed nested) :
    ∀ bound callee, Composed (calls nested bound callee)
  | [], _ => pure _
  | _ :: bound, _ => (accept _).bind fun
      | none => pure _
      | some _ => (elements h _).bind fun _ => (expectSymbol _ _).bind fun _ => calls h bound _

theorem call {nested : Parser Expr} (h : Composed nested) : Composed (call nested) :=
  (primary h).bind fun _ => bounded fun bound => calls h bound _

theorem unaryWithin {nested : Parser Expr} (h : Composed nested) :
    ∀ bound, Composed (unaryWithin nested bound)
  | [] => call h
  | _ :: bound => (acceptAny _).bind fun
      | some _ => (unaryWithin h bound).bind fun _ => pure _
      | none => call h

theorem unary {nested : Parser Expr} (h : Composed nested) : Composed (unary nested) :=
  bounded (unaryWithin h)

theorem chain {level : Level} {operand : Parser Expr} (h : Composed operand) :
    ∀ bound left, Composed (chain level operand bound left)
  | [], _ => pure _
  | _ :: bound, _ => (acceptAny _).bind fun
      | none => pure _
      | some _ => h.bind fun _ => chain h bound _

theorem joined {level : Level} {operand : Parser Expr} (h : Composed operand) :
    Composed (joined level operand) :=
  h.bind fun _ => bounded fun bound => chain h bound _

theorem operation {nested : Parser Expr} (h : Composed nested) :
    ∀ levels, Composed (operation nested levels)
  | [] => unary h
  | _ :: tighter => joined (operation h tighter)

theorem assignment {nested : Parser Expr} (h : Composed nested) :
    Composed (assignment nested) :=
  (operation h _).bind fun target => (accept _).bind fun
    | none => pure _
    | some _ => h.bind fun _ => by
        cases target
        case var => exact pure _
        all_goals exact (reportAt _ _).bind fun _ => pure _

theorem expressionWithin : ∀ bound, Composed (expressionWithin bound)
  | [] => fail (α := Expr) .noExpression
  | _ :: bound => assignment (expressionWithin bound)

theorem expression : Composed expression := bounded expressionWithin

/-! ### Statements -/

theorem varDeclaration : Composed varDeclaration :=
  (expect _ _).bind fun _ => (accept _).bind fun
    | some _ => expression.bind fun _ => (expectSymbol _ _).bind fun _ => pure _
    | none => (expectSymbol _ _).bind fun _ => pure _

theorem expressionStatement : Composed expressionStatement :=
  expression.bind fun _ => (expectSymbol _ _).bind fun _ => pure _

theorem printStatement : Composed printStatement :=
  expression.bind fun _ => (expectSymbol _ _).bind fun _ => pure _

theorem expressionUnless (kind : Token.Kind) : Composed (expressionUnless kind) :=
  (check _).bind fun
    | true => pure _
    | false => expression.bind fun _ => pure _

theorem returnStatement (insideFunction : Bool) (keyword : Token) :
    Composed (returnStatement insideFunction keyword) := by
  cases insideFunction with
  | true =>
      exact (expressionUnless _).bind fun _ => (expectSymbol _ _).bind fun _ => pure _
  | false => exact failAt _ _

theorem forInitializer : Composed forInitializer :=
  (accept _).bind fun
    | some _ => pure _
    | none => (accept _).bind fun
        | some _ => varDeclaration.bind fun _ => pure _
        | none => expressionStatement.bind fun _ => pure _

theorem forStatement {nested : Parser Stmt} (h : Composed nested) :
    Composed (forStatement nested) :=
  (expectSymbol _ _).bind fun _ => forInitializer.bind fun _ => (expressionUnless _).bind fun _ =>
    (expectSymbol _ _).bind fun _ => (expressionUnless _).bind fun _ =>
      (expectSymbol _ _).bind fun _ => h.bind fun _ => pure _

theorem whileStatement {nested : Parser Stmt} (h : Composed nested) :
    Composed (whileStatement nested) :=
  (expectSymbol _ _).bind fun _ => expression.bind fun _ => (expectSymbol _ _).bind fun _ =>
    h.bind fun _ => pure _

theorem ifStatement {nested : Parser Stmt} (h : Composed nested) :
    Composed (ifStatement nested) :=
  (expectSymbol _ _).bind fun _ => expression.bind fun _ => (expectSymbol _ _).bind fun _ =>
    h.bind fun _ => (accept _).bind fun
      | some _ => h.bind fun _ => pure _
      | none => pure _

theorem declarations {stop : Token → Bool} {declaration : Parser (Option Stmt)}
    (h : Composed declaration) : ∀ bound, Composed (declarations stop declaration bound)
  | [] => pure _
  | _ :: bound => peek fun token => by
      cases stop token with
      | true => exact pure _
      | false => exact h.bind fun _ => (declarations h bound).bind fun _ => pure _

theorem block {declaration : Parser (Option Stmt)} (h : Composed declaration) :
    Composed (block declaration) :=
  (bounded (declarations h)).bind fun _ => (expectSymbol _ _).bind fun _ => pure _

theorem functionDeclaration {declaration : Parser (Option Stmt)} (h : Composed declaration) :
    Composed (functionDeclaration declaration) :=
  (expect _ _).bind fun _ => (expectSymbol _ _).bind fun _ =>
    (elements (expect _ _) _).bind fun _ => (expectSymbol _ _).bind fun _ =>
      (expectSymbol _ _).bind fun _ => (block h).bind fun _ => pure _

/-- A statement starts with a token that tells what it is, and that is then left out. -/
def announcesStatement (token : Token) : Bool :=
  match token.kind with
  | .keyword .for_ | .keyword .if_ | .keyword .print_ | .keyword .return_ | .keyword .while_
  | .symbol .leftBrace => true
  | _ => false

theorem statementOf {nested : Parser Stmt} {declaration : Parser (Option Stmt)}
    (hs : Composed nested) (hd : Composed declaration) (insideFunction : Bool) :
    Composed (statementOf nested declaration insideFunction) := by
  refine look announcesStatement
    (fun token => match token.kind with
      | .keyword .for_ => Parser.forStatement nested
      | .keyword .if_ => Parser.ifStatement nested
      | .keyword .print_ => Parser.printStatement
      | .keyword .return_ => Parser.returnStatement insideFunction token
      | .keyword .while_ => Parser.whileStatement nested
      | .symbol .leftBrace => do
          let body ← Parser.block declaration
          Pure.pure (.block body)
      | _ => Parser.expressionStatement) ?_ ?_ ?_
  · intro token
    unfold announcesStatement
    split <;> simp_all
  · intro token h
    unfold announcesStatement at h
    split at h <;> simp_all [Token.isEnd]
  · intro token
    split
    · exact forStatement hs
    · exact ifStatement hs
    · exact printStatement
    · exact returnStatement _ _
    · exact whileStatement hs
    · exact (block hd).bind fun _ => pure _
    · exact expressionStatement

/-! ### Declarations -/

theorem declarationBody {statement : Parser Stmt} {inFunction : Parser (Option Stmt)}
    (hs : Composed statement) (hd : Composed inFunction) :
    Composed (declarationBody statement inFunction) := by
  refine look (fun token => token.kind = .keyword .fun_ || token.kind = .keyword .var_)
    (fun token => match token.kind with
      | .keyword .fun_ => Parser.functionDeclaration inFunction
      | .keyword .var_ => Parser.varDeclaration
      | _ => statement) ?_ ?_ ?_
  · intro token
    split <;> simp_all
  · intro token h
    simp only [Bool.or_eq_true, decide_eq_true_eq] at h
    rcases h with h | h <;> simp [Token.isEnd, h]
  · intro token
    split
    · exact functionDeclaration hd
    · exact varDeclaration
    · exact hs

theorem declarationOf {statement : Parser Stmt} {inFunction : Parser (Option Stmt)}
    (hs : Composed statement) (hd : Composed inFunction) :
    Composed (declarationOf statement inFunction) :=
  recovering (declarationBody hs hd)

theorem within : ∀ (bound : List Token) (insideFunction : Bool),
    Composed (statementWithin bound insideFunction) ∧
      Composed (declarationWithin bound insideFunction)
  | [], _ => ⟨fail (α := Stmt) .noExpression, recovering (fail .noExpression)⟩
  | _ :: bound, insideFunction => by
      have same := within bound insideFunction
      have inner := within bound true
      exact ⟨statementOf same.1 same.2 insideFunction,
        declarationOf (statementOf same.1 same.2 insideFunction) inner.2⟩

theorem statement (insideFunction : Bool) : Composed (statement insideFunction) :=
  bounded fun bound => (within bound _).1

theorem declaration (insideFunction : Bool) : Composed (declaration insideFunction) :=
  bounded fun bound => (within bound _).2

theorem program : Composed program := bounded (declarations (declaration _))

end Composed

end Lox.Parser
