/-
What a production answers when something in it is wrong.

`Reads` is about tokens in which nothing is wrong.  When a fault lies in a statement
that a production holds, all the rest of the production is still read as ever, and
its answer has the faults of that statement and nothing more.  So each production is
reduced here to the parser for what is nested in it, behind tokens that are read
without a fault.
-/
import Lox.Proofs.Grammar.Programs

namespace Lox.Parser

variable {α β : Type} {tokens rest : List Token} {nested : Parser Stmt}
  {declaration : Parser (Option Stmt)} {s : Stmt} {faults : List SyntaxFault}

/-! ### Sequencing

What was read without a fault leaves no trace but its result, so in front of the one
part that has faults everything can be taken off.  What comes behind that part only adds
faults behind its own, or is not reached.
-/

/-- What was read without a fault leaves no trace but its result. -/
theorem Reads.bind_apply {p : Parser α} {a : α} {mid : List Token} (h : p.Reads tokens a mid)
    (next : α → Parser β) : (p >>= next) tokens = next a mid := by
  rw [Parser.bind_apply, andThen, h]
  rfl

/-- The faults of the second part come behind those of the first. -/
theorem bind_apply_some {p : Parser α} {next : α → Parser β} {a : α} {b : β} {mid : List Token}
    {more : List SyntaxFault} (h : p tokens = ⟨some a, faults, mid⟩)
    (hnext : next a mid = ⟨some b, more, rest⟩) :
    (p >>= next) tokens = ⟨some b, faults ++ more, rest⟩ := by
  rw [Parser.bind_apply, andThen, h]
  show Reply.mk (next a mid).result _ _ = _
  rw [hnext]

/-- Nothing comes behind a parser that gives up. -/
theorem bind_apply_none {p : Parser α} {next : α → Parser β} (h : p tokens = ⟨none, faults, rest⟩) :
    (p >>= next) tokens = ⟨none, faults, rest⟩ := by
  rw [Parser.bind_apply, andThen, h]

/-- What only changes the result keeps the faults. -/
theorem bind_pure_apply {p : Parser α} {a : α} {f : α → β}
    (h : p tokens = ⟨some a, faults, rest⟩) :
    (p >>= fun a => pure (f a)) tokens = ⟨some (f a), faults, rest⟩ := by
  rw [bind_apply_some h (pure_apply (f a) rest), List.append_nil]

/-- A symbol that does not stand where it has to is missing at the token that does. -/
theorem expectSymbol_apply_of_ne {symbol : Symbol} {token : Token}
    (h : token.kind ≠ .symbol symbol) (place : Place) (more : List Token) :
    expectSymbol symbol place (token :: more) =
      ⟨none, [⟨token, .missing symbol place⟩], token :: more⟩ := by
  have htoken : token.kind ∉ [Token.Kind.symbol symbol] := by
    rw [List.mem_singleton]
    exact h
  simp only [expectSymbol, expect, accept, Parser.bind_apply, andThen, acceptAny, fail, failAt, peek,
    if_neg htoken, List.headD_cons, List.nil_append]

/-! ### Loops and branches -/

variable {opening closing : Token} {condition : Expr} {ts us : List Token}

theorem whileStatement_apply (hopening : opening.kind = .symbol .leftParen)
    (hcondition : (Phrase.expression condition).Written ts)
    (hclosing : closing.kind = .symbol .rightParen) :
    whileStatement nested (opening :: (ts ++ closing :: us)) =
      (nested >>= fun body => pure (.loop condition body)) us := by
  have hread : expression.Reads (ts ++ closing :: us) condition (closing :: us) :=
    (reads_expression_iff (endsExpression_cons hclosing rfl)).mpr ⟨ts, rfl, hcondition⟩
  unfold whileStatement
  rw [(reads_expectSymbol.mpr ⟨rfl, hopening⟩).bind_apply, hread.bind_apply,
    (reads_expectSymbol.mpr ⟨rfl, hclosing⟩).bind_apply]

/-- The condition of an `if` and its parentheses. -/
theorem ifStatement_apply (hopening : opening.kind = .symbol .leftParen)
    (hcondition : (Phrase.expression condition).Written ts)
    (hclosing : closing.kind = .symbol .rightParen) :
    ifStatement nested (opening :: (ts ++ closing :: us)) =
      (nested >>= fun thenBranch => do
        match ← accept (.keyword .else_) with
        | some _ =>
          let elseBranch ← nested
          pure (.conditional condition thenBranch (some elseBranch))
        | none => pure (.conditional condition thenBranch none)) us := by
  have hread : expression.Reads (ts ++ closing :: us) condition (closing :: us) :=
    (reads_expression_iff (endsExpression_cons hclosing rfl)).mpr ⟨ts, rfl, hcondition⟩
  unfold ifStatement
  refine ((reads_expectSymbol.mpr ⟨rfl, hopening⟩).bind_apply _).trans ?_
  refine (hread.bind_apply _).trans ?_
  exact (reads_expectSymbol.mpr ⟨rfl, hclosing⟩).bind_apply _

theorem forStatement_apply {initializer : Option Stmt} {start increment : Option Expr}
    {semicolon : Token} {is cs ns : List Token} (hopening : opening.kind = .symbol .leftParen)
    (hinitializer : WrittenInitializer initializer is) (hcondition : WrittenOptional start cs)
    (hsemicolon : semicolon.kind = .symbol .semicolon) (hincrement : WrittenOptional increment ns)
    (hclosing : closing.kind = .symbol .rightParen) :
    forStatement nested (opening :: (is ++ (cs ++ semicolon :: (ns ++ closing :: us)))) =
      (nested >>= fun body => pure (.forLoop initializer start increment body)) us := by
  unfold forStatement
  rw [(reads_expectSymbol.mpr ⟨rfl, hopening⟩).bind_apply,
    (reads_forInitializer.mpr ⟨is, rfl, hinitializer⟩).bind_apply,
    (reads_expressionUnless_of_written hcondition hsemicolon rfl rfl).bind_apply,
    (reads_expectSymbol.mpr ⟨rfl, hsemicolon⟩).bind_apply,
    (reads_expressionUnless_of_written hincrement hclosing rfl rfl).bind_apply,
    (reads_expectSymbol.mpr ⟨rfl, hclosing⟩).bind_apply]

/-! ### Declarations in a list -/

theorem declarations_of_stop {stop : Token → Bool} (hstop : stop (tokens.headD missingEnd) = true)
    (bound : List Token) : declarations stop declaration bound tokens = ⟨some [], [], tokens⟩ := by
  cases bound with
  | nil => rfl
  | cons token bound =>
      rw [declarations]
      show (if stop (tokens.headD missingEnd) = true then _ else _ : Parser _) tokens = _
      rw [if_pos hstop]
      rfl

/-- Behind a declaration come the others, and its faults come first. -/
theorem declarations_cons {stop : Token → Bool} {first : Option Stmt} {mid : List Token}
    {more : List Stmt} {moreFaults : List SyntaxFault} {token : Token} {bound : List Token}
    (hstop : stop (tokens.headD missingEnd) = false)
    (hfirst : declaration tokens = ⟨some first, faults, mid⟩)
    (hmore : declarations stop declaration bound mid = ⟨some more, moreFaults, rest⟩) :
    declarations stop declaration (token :: bound) tokens =
      ⟨some (first.toList ++ more), faults ++ moreFaults, rest⟩ := by
  rw [declarations]
  show (if stop (tokens.headD missingEnd) = true then _ else _ : Parser _) tokens = _
  rw [if_neg (by rw [hstop]; exact Bool.false_ne_true)]
  exact bind_apply_some hfirst (bind_pure_apply hmore)

/-- The declarations of a block with the brace behind them. -/
theorem block_apply {body : List Stmt} (hclosing : closing.kind = .symbol .rightBrace)
    (hbody : bounded (declarations endsBlock declaration) tokens =
      ⟨some body, faults, closing :: rest⟩) :
    block declaration tokens = ⟨some body, faults, rest⟩ := by
  have hbrace : (expectSymbol .rightBrace .afterBlock >>= fun _ => pure body) (closing :: rest) =
      ⟨some body, [], rest⟩ := by
    rw [(reads_expectSymbol.mpr ⟨rfl, hclosing⟩).bind_apply]
    rfl
  unfold block
  rw [bind_apply_some hbody hbrace, List.append_nil]

theorem functionDeclaration_apply {name left : Token} {params : List Token} {ps : List Token}
    (hname : name.kind = .identifier) (hopening : opening.kind = .symbol .leftParen)
    (hparams : WrittenParameters params ps) (hcount : params.length ≤ maxArity)
    (hclosing : closing.kind = .symbol .rightParen) (hleft : left.kind = .symbol .leftBrace) :
    functionDeclaration declaration (name :: opening :: (ps ++ closing :: left :: us)) =
      (block declaration >>= fun body => pure (.function name params body)) us := by
  unfold functionDeclaration
  rw [(reads_expect.mpr ⟨rfl, hname⟩).bind_apply,
    (reads_expectSymbol.mpr ⟨rfl, hopening⟩).bind_apply,
    ((reads_parameters hclosing).mpr ⟨hcount, ps, rfl, hparams⟩).bind_apply,
    (reads_expectSymbol.mpr ⟨rfl, hclosing⟩).bind_apply,
    (reads_expectSymbol.mpr ⟨rfl, hleft⟩).bind_apply]

/-! ### Telling statements and declarations apart -/

/-- The first token tells what statement it is. -/
theorem statement_cons (f : Bool) (token : Token) (more : List Token) :
    statement f (token :: more) =
      match token.kind with
      | .keyword .for_ => forStatement (statement f) more
      | .keyword .if_ => ifStatement (statement f) more
      | .keyword .print_ => printStatement more
      | .keyword .return_ => returnStatement f token more
      | .keyword .while_ => whileStatement (statement f) more
      | .symbol .leftBrace =>
          (block (Parser.declaration f) >>= fun body => pure (.block body)) more
      | _ => expressionStatement (token :: more) :=
  (congrFun (statement_eq f) _).trans (statementOf_cons _ _ f token more)

section

variable {f : Bool} {keyword : Token}

theorem statement_loop (hkeyword : keyword.kind = .keyword .while_)
    (hopening : opening.kind = .symbol .leftParen)
    (hcondition : (Phrase.expression condition).Written ts)
    (hclosing : closing.kind = .symbol .rightParen) (us : List Token) :
    statement f (keyword :: opening :: (ts ++ closing :: us)) =
      (statement f >>= fun body => pure (.loop condition body)) us := by
  rw [statement_cons]
  simp only [hkeyword]
  exact whileStatement_apply hopening hcondition hclosing

theorem statement_forLoop {initializer : Option Stmt} {start increment : Option Expr}
    {semicolon : Token} {is cs ns : List Token} (hkeyword : keyword.kind = .keyword .for_)
    (hopening : opening.kind = .symbol .leftParen)
    (hinitializer : WrittenInitializer initializer is) (hcondition : WrittenOptional start cs)
    (hsemicolon : semicolon.kind = .symbol .semicolon) (hincrement : WrittenOptional increment ns)
    (hclosing : closing.kind = .symbol .rightParen) (us : List Token) :
    statement f (keyword :: opening :: (is ++ (cs ++ semicolon :: (ns ++ closing :: us)))) =
      (statement f >>= fun body => pure (.forLoop initializer start increment body)) us := by
  rw [statement_cons]
  simp only [hkeyword]
  exact forStatement_apply hopening hinitializer hcondition hsemicolon hincrement hclosing

theorem statement_conditional (hkeyword : keyword.kind = .keyword .if_)
    (hopening : opening.kind = .symbol .leftParen)
    (hcondition : (Phrase.expression condition).Written ts)
    (hclosing : closing.kind = .symbol .rightParen) (us : List Token) :
    statement f (keyword :: opening :: (ts ++ closing :: us)) =
      (statement f >>= fun thenBranch => do
        match ← accept (.keyword .else_) with
        | some _ =>
          let elseBranch ← statement f
          pure (.conditional condition thenBranch (some elseBranch))
        | none => pure (.conditional condition thenBranch none)) us := by
  rw [statement_cons]
  simp only [hkeyword]
  exact ifStatement_apply hopening hcondition hclosing

end

theorem declaration_apply (f : Bool) (tokens : List Token) :
    Parser.declaration f tokens =
      recovering (declarationBody (statement f) (Parser.declaration true)) tokens := by
  rw [declaration_eq, declarationOf_eq]

end Lox.Parser
