/-
The productions of statements and declarations.

Each production reads without a fault exactly what this file says of it.  In a
statement an expression always stands in front of a token that ends it, so there is
no doubt which tokens are its own, and every production that holds no statement is
settled here for good.  The productions that do hold statements are equivalences
too, in the parser for what is nested in them; `Programs` ties these off.
-/
import Lox.Proofs.Grammar.Clause

namespace Lox.Parser

variable {β : Type} {tokens rest : List Token} {b : β} {s : Stmt} {nested : Parser Stmt}
  {declaration : Parser (Option Stmt)}

/-! ### Expressions in statements -/

theorem endsExpression_cons {closing : Token} {symbol : Symbol}
    (hclosing : closing.kind = .symbol symbol) (hends : endsExpression (.symbol symbol) = true) :
    EndsExpression (closing :: rest) :=
  ⟨closing, rest, rfl, by rw [hclosing, hends]⟩

/-- An expression with the symbol that ends it. -/
theorem reads_expression_symbol (symbol : Symbol) {place : Place} {next : Expr → Parser β}
    (hends : endsExpression (.symbol symbol) = true) :
    (do let e ← expression
        let _ ← expectSymbol symbol place
        next e : Parser β).Reads tokens b rest ↔
      ∃ e ts closing mid, tokens = ts ++ closing :: mid ∧ (Phrase.expression e).Written ts ∧
        closing.kind = .symbol symbol ∧ (next e).Reads mid b rest := by
  simp only [reads_bind, reads_expectSymbol]
  constructor
  · intro h
    obtain ⟨e, _, he, closing, mid, ⟨rfl, hclosing⟩, hnext⟩ := h
    obtain ⟨ts, rfl, hts⟩ := (reads_expression_iff (endsExpression_cons hclosing hends)).mp he
    exact ⟨e, ts, closing, mid, rfl, hts, hclosing, hnext⟩
  · intro h
    obtain ⟨e, ts, closing, mid, rfl, hts, hclosing, hnext⟩ := h
    refine ⟨e, closing :: mid, ?_, closing, mid, ⟨rfl, hclosing⟩, hnext⟩
    exact (reads_expression_iff (endsExpression_cons hclosing hends)).mpr ⟨ts, rfl, hts⟩

theorem reads_expressionUnless {kind : Token.Kind} {value : Option Expr} :
    (expressionUnless kind).Reads tokens value rest ↔
      nextKind? tokens = some kind ∧ value = none ∧ rest = tokens ∨
        nextKind? tokens ≠ some kind ∧ ∃ e, value = some e ∧ expression.Reads tokens e rest := by
  rw [expressionUnless, reads_check_bind]
  simp only [if_true, Bool.false_eq_true, if_false, reads_bind, reads_pure]
  refine or_congr_right (and_congr_right fun _ => ?_)
  constructor
  · intro h
    obtain ⟨e, _, he, rfl, rfl⟩ := h
    exact ⟨e, rfl, he⟩
  · intro h
    obtain ⟨e, rfl, he⟩ := h
    exact ⟨e, rest, he, rfl, rfl⟩

/-- An expression that may be missing, in front of the symbol that ends it. -/
theorem reads_expressionUnless_of_written {value : Option Expr} {symbol : Symbol}
    {closing : Token} {ts mid : List Token} (hvalue : WrittenOptional value ts)
    (hclosing : closing.kind = .symbol symbol) (hends : endsExpression (.symbol symbol) = true)
    (hstarts : Phrase.startsExpression (.symbol symbol) = false) :
    (expressionUnless (.symbol symbol)).Reads (ts ++ closing :: mid) value (closing :: mid) := by
  rw [reads_expressionUnless]
  cases hvalue with
  | none => exact .inl ⟨by rw [List.nil_append, nextKind?_cons, hclosing], rfl, rfl⟩
  | @some e ts he =>
      refine .inr ⟨(he.starts.append _).nextKind?_ne hstarts, e, rfl, ?_⟩
      exact (reads_expression_iff (endsExpression_cons hclosing hends)).mpr ⟨ts, rfl, he⟩

/-- An expression that may be missing, with the symbol that ends it. -/
theorem reads_expressionUnless_symbol (symbol : Symbol) {place : Place}
    {next : Option Expr → Parser β} (hends : endsExpression (.symbol symbol) = true)
    (hstarts : Phrase.startsExpression (.symbol symbol) = false) :
    (do let value ← expressionUnless (.symbol symbol)
        let _ ← expectSymbol symbol place
        next value : Parser β).Reads tokens b rest ↔
      ∃ value ts closing mid, tokens = ts ++ closing :: mid ∧ WrittenOptional value ts ∧
        closing.kind = .symbol symbol ∧ (next value).Reads mid b rest := by
  simp only [reads_bind, reads_expectSymbol, reads_expressionUnless]
  constructor
  · rintro ⟨value, _, ⟨-, rfl, rfl⟩ | ⟨-, e, rfl, he⟩, closing, mid, ⟨rfl, hclosing⟩, hnext⟩
    · exact ⟨none, [], closing, mid, rfl, .none, hclosing, hnext⟩
    · obtain ⟨ts, rfl, hts⟩ := (reads_expression_iff (endsExpression_cons hclosing hends)).mp he
      exact ⟨some e, ts, closing, mid, rfl, .some hts, hclosing, hnext⟩
  · intro h
    obtain ⟨value, ts, closing, mid, rfl, hvalue, hclosing, hnext⟩ := h
    refine ⟨value, closing :: mid, ?_, closing, mid, ⟨rfl, hclosing⟩, hnext⟩
    exact reads_expressionUnless.mp
      (reads_expressionUnless_of_written hvalue hclosing hends hstarts)

/-! ### Simple statements -/

theorem reads_varDeclaration :
    varDeclaration.Reads tokens s rest ↔ ∃ ts, tokens = ts ++ rest ∧ WrittenVar s ts := by
  rw [varDeclaration, reads_bind]
  simp only [reads_expect, reads_accept_bind, reads_expression_symbol .semicolon rfl]
  simp only [reads_bind, reads_expectSymbol, reads_pure]
  constructor
  · rintro ⟨name, mid, ⟨rfl, hname⟩, ⟨equals, _, rfl, hequals, e, ts, closing, _, rfl, he, hclosing,
      rfl, rfl⟩ | ⟨-, closing, _, ⟨rfl, hclosing⟩, rfl, rfl⟩⟩
    · exact ⟨name :: equals :: (ts ++ [closing]), by simp, .initialized hname hequals he hclosing⟩
    · exact ⟨[name, closing], rfl, .bare hname hclosing⟩
  · intro h
    obtain ⟨ts, rfl, hs⟩ := h
    cases hs with
    | @bare name semicolon hname hend =>
        exact ⟨name, semicolon :: rest, ⟨rfl, hname⟩,
          .inr ⟨by simp [hend], semicolon, rest, ⟨rfl, hend⟩, rfl, rfl⟩⟩
    | @initialized name equals semicolon e ts hname hequals he hend =>
        exact ⟨name, equals :: (ts ++ semicolon :: rest), ⟨by simp, hname⟩,
          .inl ⟨equals, _, rfl, hequals, e, ts, semicolon, rest, rfl, he, hend, rfl, rfl⟩⟩

theorem reads_expressionStatement :
    expressionStatement.Reads tokens s rest ↔
      ∃ e ts semicolon, s = .expression e ∧ tokens = ts ++ semicolon :: rest ∧
        (Phrase.expression e).Written ts ∧ semicolon.kind = .symbol .semicolon := by
  rw [expressionStatement, reads_expression_symbol .semicolon rfl]
  simp only [reads_pure]
  constructor
  · intro h
    obtain ⟨e, ts, semicolon, _, rfl, he, hend, rfl, rfl⟩ := h
    exact ⟨e, ts, semicolon, rfl, rfl, he, hend⟩
  · intro h
    obtain ⟨e, ts, semicolon, rfl, rfl, he, hend⟩ := h
    exact ⟨e, ts, semicolon, rest, rfl, he, hend, rfl, rfl⟩

theorem reads_printStatement :
    printStatement.Reads tokens s rest ↔
      ∃ e ts semicolon, s = .print e ∧ tokens = ts ++ semicolon :: rest ∧
        (Phrase.expression e).Written ts ∧ semicolon.kind = .symbol .semicolon := by
  rw [printStatement, reads_expression_symbol .semicolon rfl]
  simp only [reads_pure]
  constructor
  · intro h
    obtain ⟨e, ts, semicolon, _, rfl, he, hend, rfl, rfl⟩ := h
    exact ⟨e, ts, semicolon, rfl, rfl, he, hend⟩
  · intro h
    obtain ⟨e, ts, semicolon, rfl, rfl, he, hend⟩ := h
    exact ⟨e, ts, semicolon, rest, rfl, he, hend, rfl, rfl⟩

theorem reads_returnStatement {insideFunction : Bool} {keyword : Token} :
    (returnStatement insideFunction keyword).Reads tokens s rest ↔
      insideFunction = true ∧ ∃ value ts semicolon, s = .return_ keyword value ∧
        tokens = ts ++ semicolon :: rest ∧ WrittenOptional value ts ∧
        semicolon.kind = .symbol .semicolon := by
  cases insideFunction with
  | false => simp [returnStatement]
  | true =>
      simp only [returnStatement, if_true, true_and]
      rw [reads_expressionUnless_symbol .semicolon rfl rfl]
      simp only [reads_pure]
      constructor
      · intro h
        obtain ⟨value, ts, semicolon, _, rfl, hvalue, hend, rfl, rfl⟩ := h
        exact ⟨value, ts, semicolon, rfl, rfl, hvalue, hend⟩
      · intro h
        obtain ⟨value, ts, semicolon, rfl, rfl, hvalue, hend⟩ := h
        exact ⟨value, ts, semicolon, rest, rfl, hvalue, hend, rfl, rfl⟩

/-! ### Loops and branches -/

theorem reads_forInitializer {initializer : Option Stmt} :
    forInitializer.Reads tokens initializer rest ↔
      ∃ ts, tokens = ts ++ rest ∧ WrittenInitializer initializer ts := by
  rw [forInitializer, reads_accept_bind]
  simp only [reads_accept_bind, reads_pure]
  simp only [reads_bind, reads_varDeclaration, reads_expressionStatement, reads_pure]
  constructor
  · rintro (⟨semicolon, _, rfl, hend, rfl, rfl⟩ | ⟨-, ⟨keyword, _, rfl, hkeyword, s, _,
      ⟨ts, rfl, hs⟩, rfl, rfl⟩ | ⟨-, s, _, ⟨e, ts, semicolon, rfl, rfl, he, hend⟩, rfl, rfl⟩⟩)
    · exact ⟨[semicolon], rfl, .none hend⟩
    · exact ⟨keyword :: ts, rfl, .var hkeyword hs⟩
    · exact ⟨ts ++ [semicolon], by simp, .expression he hend⟩
  · intro h
    obtain ⟨ts, rfl, hi⟩ := h
    cases hi with
    | @none semicolon hend => exact .inl ⟨semicolon, rest, rfl, hend, rfl, rfl⟩
    | @var keyword s ts hkeyword hs =>
        refine .inr ⟨by simp [hkeyword], .inl ⟨keyword, ts ++ rest, rfl, hkeyword, s, rest, ?_,
          rfl, rfl⟩⟩
        exact ⟨ts, rfl, hs⟩
    | @expression semicolon e ts he hend =>
        have hstarts := he.starts.append ([semicolon] ++ rest)
        rw [← List.append_assoc] at hstarts
        refine .inr ⟨hstarts.nextKind?_ne rfl, .inr ⟨hstarts.nextKind?_ne rfl, .expression e, rest,
          ?_, rfl, rfl⟩⟩
        exact ⟨e, ts, semicolon, rfl, by simp, he, hend⟩

theorem reads_forStatement :
    (forStatement nested).Reads tokens s rest ↔
      ∃ opening is initializer condition cs semicolon increment ns closing mid body,
        tokens = opening :: (is ++ (cs ++ semicolon :: (ns ++ closing :: mid))) ∧
        opening.kind = .symbol .leftParen ∧ WrittenInitializer initializer is ∧
        WrittenOptional condition cs ∧ semicolon.kind = .symbol .semicolon ∧
        WrittenOptional increment ns ∧ closing.kind = .symbol .rightParen ∧
        nested.Reads mid body rest ∧ s = .forLoop initializer condition increment body := by
  rw [forStatement, reads_bind]
  simp only [reads_expectSymbol]
  simp only [reads_bind (p := forInitializer), reads_forInitializer]
  simp only [reads_expressionUnless_symbol .semicolon rfl rfl,
    reads_expressionUnless_symbol .rightParen rfl rfl]
  simp only [reads_bind, reads_pure]
  constructor
  · rintro ⟨opening, _, ⟨rfl, hopening⟩, initializer, _, ⟨is, rfl, hi⟩, condition, cs, semicolon, _,
      rfl, hc, hsemicolon, increment, ns, closing, mid, rfl, hn, hclosing, body, _, hbody, rfl,
      rfl⟩
    exact ⟨opening, is, initializer, condition, cs, semicolon, increment, ns, closing, mid, body,
      rfl, hopening, hi, hc, hsemicolon, hn, hclosing, hbody, rfl⟩
  · rintro ⟨opening, is, initializer, condition, cs, semicolon, increment, ns, closing, mid, body,
      rfl, hopening, hi, hc, hsemicolon, hn, hclosing, hbody, rfl⟩
    exact ⟨opening, _, ⟨rfl, hopening⟩, initializer, _, ⟨is, rfl, hi⟩, condition, cs, semicolon, _,
      rfl, hc, hsemicolon, increment, ns, closing, mid, rfl, hn, hclosing, body, rest, hbody, rfl,
      rfl⟩

theorem reads_whileStatement :
    (whileStatement nested).Reads tokens s rest ↔
      ∃ opening condition ts closing mid body, tokens = opening :: (ts ++ closing :: mid) ∧
        opening.kind = .symbol .leftParen ∧ (Phrase.expression condition).Written ts ∧
        closing.kind = .symbol .rightParen ∧ nested.Reads mid body rest ∧
        s = .loop condition body := by
  rw [whileStatement, reads_bind]
  simp only [reads_expectSymbol, reads_expression_symbol .rightParen rfl]
  simp only [reads_bind, reads_pure]
  constructor
  · rintro ⟨opening, _, ⟨rfl, hopening⟩, condition, ts, closing, mid, rfl, hc, hclosing, body, _,
      hbody, rfl, rfl⟩
    exact ⟨opening, condition, ts, closing, mid, body, rfl, hopening, hc, hclosing, hbody, rfl⟩
  · intro h
    obtain ⟨opening, condition, ts, closing, mid, body, rfl, hopening, hc, hclosing, hbody, rfl⟩ := h
    exact ⟨opening, _, ⟨rfl, hopening⟩, condition, ts, closing, mid, rfl, hc, hclosing, body, rest,
      hbody, rfl, rfl⟩

theorem reads_ifStatement :
    (ifStatement nested).Reads tokens s rest ↔
      ∃ opening condition ts closing mid thenBranch last,
        tokens = opening :: (ts ++ closing :: mid) ∧ opening.kind = .symbol .leftParen ∧
        (Phrase.expression condition).Written ts ∧ closing.kind = .symbol .rightParen ∧
        nested.Reads mid thenBranch last ∧
        (nextKind? last ≠ some (.keyword .else_) ∧ rest = last ∧
            s = .conditional condition thenBranch none ∨
          ∃ divider more elseBranch, last = divider :: more ∧ divider.kind = .keyword .else_ ∧
            nested.Reads more elseBranch rest ∧
            s = .conditional condition thenBranch (some elseBranch)) := by
  rw [ifStatement, reads_bind]
  simp only [reads_expectSymbol, reads_expression_symbol .rightParen rfl]
  simp only [reads_bind (p := nested), reads_accept_bind, reads_pure]
  constructor
  · rintro ⟨opening, _, ⟨rfl, hopening⟩, condition, ts, closing, mid, rfl, hc, hclosing, thenBranch,
      last, hthen, ⟨divider, more, rfl, hdivider, elseBranch, _, helse, rfl, rfl⟩ |
      ⟨hnext, rfl, rfl⟩⟩
    · exact ⟨opening, condition, ts, closing, mid, thenBranch, _, rfl, hopening, hc, hclosing,
        hthen, .inr ⟨divider, more, elseBranch, rfl, hdivider, helse, rfl⟩⟩
    · exact ⟨opening, condition, ts, closing, mid, thenBranch, _, rfl, hopening, hc, hclosing,
        hthen, .inl ⟨hnext, rfl, rfl⟩⟩
  · rintro ⟨opening, condition, ts, closing, mid, thenBranch, last, rfl, hopening, hc, hclosing,
      hthen, h⟩
    refine ⟨opening, _, ⟨rfl, hopening⟩, condition, ts, closing, mid, rfl, hc, hclosing, thenBranch,
      last, hthen, ?_⟩
    rcases h with ⟨hnext, rfl, rfl⟩ | ⟨divider, more, elseBranch, rfl, hdivider, helse, rfl⟩
    · exact .inr ⟨hnext, rfl, rfl⟩
    · exact .inl ⟨divider, more, rfl, hdivider, elseBranch, rest, helse, rfl, rfl⟩

/-! ### Blocks and functions -/

theorem reads_declarations_cons {stop : Token → Bool} {token : Token} {bound : List Token}
    {ss : List Stmt} :
    (declarations stop declaration (token :: bound)).Reads tokens ss rest ↔
      stop (tokens.headD missingEnd) = true ∧ ss = [] ∧ rest = tokens ∨
      stop (tokens.headD missingEnd) = false ∧
        ∃ first mid more, declaration.Reads tokens first mid ∧
          (declarations stop declaration bound).Reads mid more rest ∧
          ss = first.toList ++ more := by
  rw [declarations, reads_peek_bind]
  cases hstop : stop (tokens.headD missingEnd) with
  | true => simp
  | false =>
      simp only [Bool.false_eq_true, if_false, false_and, false_or, true_and, reads_bind,
        reads_pure]
      constructor
      · intro h
        obtain ⟨first, mid, hfirst, more, _, hmore, rfl, rfl⟩ := h
        exact ⟨first, mid, more, hfirst, hmore, rfl⟩
      · intro h
        obtain ⟨first, mid, more, hfirst, hmore, rfl⟩ := h
        exact ⟨first, mid, hfirst, more, rest, hmore, rfl, rfl⟩

theorem reads_block {body : List Stmt} :
    (block declaration).Reads tokens body rest ↔
      ∃ closing, (bounded (declarations endsBlock declaration)).Reads tokens body
        (closing :: rest) ∧ closing.kind = .symbol .rightBrace := by
  rw [block]
  simp only [reads_bind, reads_expectSymbol, reads_pure]
  constructor
  · intro h
    obtain ⟨body, _, hbody, closing, _, ⟨rfl, hclosing⟩, rfl, rfl⟩ := h
    exact ⟨closing, hbody, hclosing⟩
  · intro h
    obtain ⟨closing, hbody, hclosing⟩ := h
    exact ⟨body, _, hbody, closing, rest, ⟨rfl, hclosing⟩, rfl, rfl⟩

private theorem reads_moreParameters {names ts : List Token} (h : WrittenMoreParameters names ts)
    {closing : Token} (hclosing : closing.kind = .symbol .rightParen) :
    ∀ count, count + names.length ≤ maxArity →
      (moreElementsAfter (expect .identifier .noParameterName) .tooManyParameters count).Reads
        (ts ++ closing :: rest) names (closing :: rest) := by
  induction h with
  | nil =>
      intro count _
      exact (reads_moreElementsAfter (.expect _ _)).mpr (.inl ⟨by simp [hclosing], rfl, rfl⟩)
  | @cons comma name names ts hcomma hname hmore ih =>
      intro count hcount
      simp only [List.length_cons] at hcount
      exact (reads_moreElementsAfter (.expect _ _)).mpr (.inr ⟨comma, name, names, _, _, rfl,
        hcomma, by omega, rfl, reads_expect.mpr ⟨rfl, hname⟩, ih (count + 1) (by omega)⟩)

theorem reads_parameters {params : List Token} {closing : Token}
    (hclosing : closing.kind = .symbol .rightParen) :
    (elements (expect .identifier .noParameterName) .tooManyParameters).Reads tokens params
        (closing :: rest) ↔
      params.length ≤ maxArity ∧ ∃ ps, tokens = ps ++ closing :: rest ∧
        WrittenParameters params ps := by
  constructor
  · intro hread
    have hsound : Sound (expect .identifier .noParameterName)
        fun name ts => ts = [name] ∧ name.kind = .identifier := by
      intro tokens name rest hread
      obtain ⟨rfl, hname⟩ := reads_expect.mp hread
      exact ⟨[name], rfl, rfl, hname⟩
    obtain ⟨hcount, ps, rfl, hps⟩ :=
      Sound.elements (M := WrittenMoreParameters) (.expect _ _) hsound .nil
        (fun _ _ _ _ _ hcomma hname hmore => by
          obtain ⟨rfl, hname⟩ := hname
          exact .cons hcomma hname hmore) hread
    refine ⟨hcount, ps, rfl, ?_⟩
    rcases hps with ⟨rfl, rfl⟩ | ⟨name, ts, more, us, rfl, rfl, ⟨rfl, hname⟩, hmore⟩
    · exact .nil
    · exact .cons hname hmore
  · intro h
    obtain ⟨hcount, ps, rfl, hps⟩ := h
    cases hps with
    | nil => exact reads_elements.mpr (.inl ⟨by simp [hclosing], rfl, rfl⟩)
    | @cons name names ts hname hmore =>
        refine reads_elements.mpr (.inr ⟨by simp [hname], name, names, ts ++ closing :: rest, rfl,
          reads_expect.mpr ⟨rfl, hname⟩, ?_⟩)
        exact reads_moreParameters hmore hclosing 1 (by simpa [Nat.add_comm] using hcount)

theorem reads_functionDeclaration :
    (functionDeclaration declaration).Reads tokens s rest ↔
      ∃ name opening ps params closing left mid body right,
        tokens = name :: opening :: (ps ++ closing :: left :: mid) ∧ name.kind = .identifier ∧
        opening.kind = .symbol .leftParen ∧ WrittenParameters params ps ∧
        params.length ≤ maxArity ∧ closing.kind = .symbol .rightParen ∧
        left.kind = .symbol .leftBrace ∧
        (bounded (declarations endsBlock declaration)).Reads mid body (right :: rest) ∧
        right.kind = .symbol .rightBrace ∧ s = .function name params body := by
  rw [functionDeclaration]
  simp only [reads_bind, reads_expect, reads_expectSymbol, reads_block, reads_pure]
  constructor
  · rintro ⟨name, _, ⟨rfl, hname⟩, opening, mid, ⟨rfl, hopening⟩, params, _, hparams, closing, _,
      ⟨rfl, hclosing⟩, left, last, ⟨rfl, hleft⟩, body, _, ⟨right, hbody, hright⟩, rfl, rfl⟩
    obtain ⟨hcount, ps, rfl, hps⟩ := (reads_parameters hclosing).mp hparams
    exact ⟨name, opening, ps, params, closing, left, last, body, right, rfl, hname, hopening, hps,
      hcount, hclosing, hleft, hbody, hright, rfl⟩
  · rintro ⟨name, opening, ps, params, closing, left, last, body, right, rfl, hname, hopening, hps,
      hcount, hclosing, hleft, hbody, hright, rfl⟩
    exact ⟨name, _, ⟨rfl, hname⟩, opening, _, ⟨rfl, hopening⟩, params, _,
      (reads_parameters hclosing).mpr ⟨hcount, ps, rfl, hps⟩, closing, _, ⟨rfl, hclosing⟩, left,
      last, ⟨rfl, hleft⟩, body, rest, ⟨right, hbody, hright⟩, rfl, rfl⟩

/-! ### Telling statements and declarations apart

The parser decides by the next token which production it takes, and every kind of token
goes with one.  So a statement is read if and only if it is read by the production of its
first token.
-/

theorem not_reads_statementOf_nil {f : Bool} :
    ¬ (statementOf nested declaration f).Reads [] s rest := by
  rw [statementOf, reads_peek_bind]
  show ¬ expressionStatement.Reads [] s rest
  rw [reads_expressionStatement]
  intro h
  obtain ⟨e, ts, semicolon, -, htokens, -⟩ := h
  cases ts <;> exact nomatch htokens

/-- The first token tells what statement it is. -/
theorem statementOf_cons (nested : Parser Stmt) (declaration : Parser (Option Stmt)) (f : Bool)
    (token : Token) (more : List Token) :
    statementOf nested declaration f (token :: more) =
      match token.kind with
      | .keyword .for_ => forStatement nested more
      | .keyword .if_ => ifStatement nested more
      | .keyword .print_ => printStatement more
      | .keyword .return_ => returnStatement f token more
      | .keyword .while_ => whileStatement nested more
      | .symbol .leftBrace => (block declaration >>= fun body => pure (.block body)) more
      | _ => expressionStatement (token :: more) := by
  rw [statementOf, peek_bind_cons]
  split <;> rename_i hkind <;> simp only [hkind, skip_bind_cons]

theorem reads_statementOf_cons {f : Bool} {token : Token} {more : List Token} :
    (statementOf nested declaration f).Reads (token :: more) s rest ↔
      match token.kind with
      | .keyword .for_ => (forStatement nested).Reads more s rest
      | .keyword .if_ => (ifStatement nested).Reads more s rest
      | .keyword .print_ => printStatement.Reads more s rest
      | .keyword .return_ => (returnStatement f token).Reads more s rest
      | .keyword .while_ => (whileStatement nested).Reads more s rest
      | .symbol .leftBrace =>
          ∃ body, (block declaration).Reads more body rest ∧ s = .block body
      | _ => expressionStatement.Reads (token :: more) s rest := by
  have hblock : (block declaration >>= fun body => pure (Stmt.block body)).Reads more s rest ↔
      ∃ body, (block declaration).Reads more body rest ∧ s = .block body := by
    simp only [reads_bind, reads_pure]
    constructor
    · intro h
      obtain ⟨body, _, hbody, rfl, rfl⟩ := h
      exact ⟨body, hbody, rfl⟩
    · intro h
      obtain ⟨body, hbody, rfl⟩ := h
      exact ⟨body, rest, hbody, rfl, rfl⟩
  rw [Reads, statementOf_cons]
  split <;> first | exact Iff.rfl | exact hblock

/-- What starts as an expression does is an expression statement. -/
theorem reads_statementOf_expression {f : Bool} (hstarts : Phrase.StartsExpression tokens) :
    (statementOf nested declaration f).Reads tokens s rest ↔
      expressionStatement.Reads tokens s rest := by
  obtain ⟨token, more, rfl, hkind⟩ := hstarts
  rw [reads_statementOf_cons]
  split <;> rename_i heq <;> first | exact Iff.rfl | (rw [heq] at hkind; exact nomatch hkind)

theorem reads_declarationOf {statement : Parser Stmt} (hs : Composed statement)
    (hd : Composed declaration) {result : Option Stmt} :
    (declarationOf statement declaration).Reads tokens result rest ↔
      ∃ s, result = some s ∧ (declarationBody statement declaration).Reads tokens s rest := by
  rw [declarationOf_eq, reads_recovering (.declarationBody hs hd)]

theorem reads_declarationBody_nil {statement : Parser Stmt} :
    (declarationBody statement declaration).Reads [] s rest ↔ statement.Reads [] s rest := by
  rw [declarationBody, reads_peek_bind]
  rfl

/-- The first token tells a function and a variable from a statement. -/
theorem declarationBody_cons (statement : Parser Stmt) (declaration : Parser (Option Stmt))
    (token : Token) (more : List Token) :
    declarationBody statement declaration (token :: more) =
      match token.kind with
      | .keyword .fun_ => functionDeclaration declaration more
      | .keyword .var_ => varDeclaration more
      | _ => statement (token :: more) := by
  rw [declarationBody, peek_bind_cons]
  split <;> rename_i hkind <;> simp only [hkind, skip_bind_cons]

theorem reads_declarationBody_cons {statement : Parser Stmt} {token : Token}
    {more : List Token} :
    (declarationBody statement declaration).Reads (token :: more) s rest ↔
      match token.kind with
      | .keyword .fun_ => (functionDeclaration declaration).Reads more s rest
      | .keyword .var_ => varDeclaration.Reads more s rest
      | _ => statement.Reads (token :: more) s rest := by
  rw [Reads, declarationBody_cons]
  split <;> exact Iff.rfl

end Lox.Parser
