/-
Statements, declarations and programs: what is read is what is written.

The main statements are `reads_statement_iff` and, about whole programs,
`parse_append_eq_iff`.

That what is read is written goes along the recursion of the parser, the rest is an
induction on how a clause is written.  What the parser reads as an open statement
is never followed by `else`, since it would have read on.  That is the one thing
soundness has to know about what a statement leaves, and the one thing completeness
has to ask of what follows.
-/
import Lox.Proofs.Grammar.Statements

namespace Lox.Parser

variable {tokens rest : List Token} {s : Stmt} {f : Bool} {nested : Parser Stmt}
  {declaration : Parser (Option Stmt)}

/-! ### What is read is written -/

/-- Statements are read only as they are written, and open ones only if no `else` follows. -/
def SoundStatement (f : Bool) (p : Parser Stmt) : Prop :=
  ∀ tokens s rest, p.Reads tokens s rest →
    ∃ ts isOpen, tokens = ts ++ rest ∧ (Clause.statement f isOpen s).Written ts ∧
      (isOpen = true → nextKind? rest ≠ some (.keyword .else_))

/-- Declarations are read only as they are written. -/
def SoundDeclaration (f : Bool) (p : Parser (Option Stmt)) : Prop :=
  Sound p fun result ts => ∃ s, result = some s ∧ (Clause.declaration f s).Written ts

theorem sound_declarations {stop : Token → Bool} (h : SoundDeclaration f declaration) :
    ∀ bound, Sound (declarations stop declaration bound)
      fun ss ts => (Clause.declarations f ss).Written ts := by
  intro bound
  induction bound with
  | nil =>
      intro tokens ss rest hread
      obtain ⟨rfl, rfl⟩ := reads_pure.mp hread
      exact ⟨[], rfl, .nil⟩
  | cons token bound ih =>
      intro tokens ss rest hread
      rcases reads_declarations_cons.mp hread with
        ⟨-, rfl, rfl⟩ | ⟨-, first, mid, more, hfirst, hmore, rfl⟩
      · exact ⟨[], rfl, .nil⟩
      · obtain ⟨ts, rfl, s, rfl, hts⟩ := h tokens first mid hfirst
        obtain ⟨us, rfl, hus⟩ := ih mid more rest hmore
        exact ⟨ts ++ us, by simp, .cons hts hus⟩

private theorem sound_forStatement (h : SoundStatement f nested) {keyword : Token}
    (hkeyword : keyword.kind = .keyword .for_) (hread : (forStatement nested).Reads tokens s rest) :
    ∃ ts isOpen, keyword :: tokens = ts ++ rest ∧ (Clause.statement f isOpen s).Written ts ∧
      (isOpen = true → nextKind? rest ≠ some (.keyword .else_)) := by
  obtain ⟨opening, is, initializer, condition, cs, semicolon, increment, ns, closing, mid, body,
    rfl, hopening, hi, hc, hsemicolon, hn, hclosing, hbody, rfl⟩ := reads_forStatement.mp hread
  obtain ⟨us, isOpen, rfl, hus, hnext⟩ := h mid body rest hbody
  exact ⟨_, isOpen, by simp,
    .forLoop hkeyword hopening hi hc hsemicolon hn hclosing hus, hnext⟩

private theorem sound_whileStatement (h : SoundStatement f nested) {keyword : Token}
    (hkeyword : keyword.kind = .keyword .while_)
    (hread : (whileStatement nested).Reads tokens s rest) :
    ∃ ts isOpen, keyword :: tokens = ts ++ rest ∧ (Clause.statement f isOpen s).Written ts ∧
      (isOpen = true → nextKind? rest ≠ some (.keyword .else_)) := by
  obtain ⟨opening, condition, ts, closing, mid, body, rfl, hopening, hc, hclosing, hbody, rfl⟩ :=
    reads_whileStatement.mp hread
  obtain ⟨us, isOpen, rfl, hus, hnext⟩ := h mid body rest hbody
  exact ⟨_, isOpen, by simp, .loop hkeyword hopening hc hclosing hus, hnext⟩

/-- An `else` is read with the nearest `if`, so what stands before it is not open. -/
theorem sound_ifStatement (h : SoundStatement f nested) {keyword : Token}
    (hkeyword : keyword.kind = .keyword .if_) (hread : (ifStatement nested).Reads tokens s rest) :
    ∃ ts isOpen, keyword :: tokens = ts ++ rest ∧ (Clause.statement f isOpen s).Written ts ∧
      (isOpen = true → nextKind? rest ≠ some (.keyword .else_)) := by
  obtain ⟨opening, condition, ts, closing, mid, thenBranch, last, rfl, hopening, hc, hclosing,
    hthen, hlast⟩ := reads_ifStatement.mp hread
  obtain ⟨us, thenOpen, rfl, hus, hthenNext⟩ := h mid thenBranch last hthen
  rcases hlast with ⟨hnext, rfl, rfl⟩ | ⟨divider, more, elseBranch, rfl, hdivider, helse, rfl⟩
  · exact ⟨_, true, by simp, .conditional hkeyword hopening hc hclosing hus, fun _ => hnext⟩
  · obtain ⟨vs, isOpen, rfl, hvs, hnext⟩ := h more elseBranch rest helse
    cases thenOpen with
    | true => exact absurd (by simp [hdivider]) (hthenNext rfl)
    | false =>
        exact ⟨_, isOpen, by simp, .choice hkeyword hopening hc hclosing hus hdivider hvs, hnext⟩

private theorem sound_statementOf (hs : SoundStatement f nested)
    (hd : SoundDeclaration f declaration) :
    SoundStatement f (statementOf nested declaration f) := by
  intro tokens s rest hread
  cases tokens with
  | nil => exact absurd hread not_reads_statementOf_nil
  | cons token more =>
      rw [reads_statementOf_cons] at hread
      split at hread <;> rename_i hkind
      · exact sound_forStatement hs hkind hread
      · exact sound_ifStatement hs hkind hread
      · obtain ⟨e, ts, semicolon, rfl, rfl, he, hend⟩ := reads_printStatement.mp hread
        exact ⟨_, false, by simp, .print hkind he hend, nofun⟩
      · obtain ⟨rfl, value, ts, semicolon, rfl, rfl, hvalue, hend⟩ :=
          reads_returnStatement.mp hread
        exact ⟨_, false, by simp, .return_ hkind hvalue hend, nofun⟩
      · exact sound_whileStatement hs hkind hread
      · obtain ⟨body, hbody, rfl⟩ := hread
        obtain ⟨closing, hbody, hclosing⟩ := reads_block.mp hbody
        obtain ⟨ts, rfl, hts⟩ := sound_declarations hd more more body (closing :: rest) hbody
        exact ⟨_, false, by simp, .block hkind hts hclosing, nofun⟩
      · obtain ⟨e, ts, semicolon, rfl, htokens, he, hend⟩ := reads_expressionStatement.mp hread
        exact ⟨ts ++ [semicolon], false, by simp [htokens], .expression he hend, nofun⟩

private theorem sound_declarationOf {statement : Parser Stmt} (hcs : Composed statement)
    (hcd : Composed declaration) (hs : SoundStatement f statement)
    (hd : SoundDeclaration true declaration) :
    SoundDeclaration f (declarationOf statement declaration) := by
  intro tokens result rest hread
  obtain ⟨s, rfl, hbody⟩ := (reads_declarationOf hcs hcd).mp hread
  suffices h : ∃ ts, tokens = ts ++ rest ∧ (Clause.declaration f s).Written ts by
    obtain ⟨ts, htokens, hts⟩ := h
    exact ⟨ts, htokens, s, rfl, hts⟩
  cases tokens with
  | nil =>
      obtain ⟨ts, isOpen, htokens, hts, -⟩ := hs [] s rest (reads_declarationBody_nil.mp hbody)
      exact ⟨ts, htokens, .statement hts⟩
  | cons token more =>
      rw [reads_declarationBody_cons] at hbody
      split at hbody <;> rename_i hkind
      · obtain ⟨name, opening, ps, params, closing, left, mid, body, right, rfl, hname, hopening,
          hps, hcount, hclosing, hleft, hdecls, hright, rfl⟩ := reads_functionDeclaration.mp hbody
        obtain ⟨ts, rfl, hts⟩ := sound_declarations hd mid mid body (right :: rest) hdecls
        exact ⟨_, by simp,
          .function hkind hname hopening hps hcount hclosing hleft hts hright⟩
      · obtain ⟨ts, rfl, hts⟩ := reads_varDeclaration.mp hbody
        exact ⟨token :: ts, rfl, .var hkind hts⟩
      · obtain ⟨ts, isOpen, htokens, hts, -⟩ := hs _ s rest hbody
        exact ⟨ts, htokens, .statement hts⟩

private theorem sound_within : ∀ (bound : List Token) (f : Bool),
    SoundStatement f (statementWithin bound f) ∧ SoundDeclaration f (declarationWithin bound f)
  | [], _ => by
      refine ⟨fun _ _ _ hread => absurd hread not_reads_fail, fun _ _ _ hread => ?_⟩
      obtain ⟨s, -, hread⟩ := (reads_recovering (.fail _)).mp hread
      exact absurd hread not_reads_fail
  | _ :: bound, f => by
      have same := sound_within bound f
      have inner := sound_within bound true
      have composed := Composed.within bound f
      exact ⟨sound_statementOf same.1 same.2,
        sound_declarationOf (.statementOf composed.1 composed.2 f) (Composed.within bound true).2
          (sound_statementOf same.1 same.2) inner.2⟩

private theorem sound_statement (f : Bool) : SoundStatement f (statement f) :=
  fun tokens => (sound_within tokens f).1 tokens

theorem sound_declaration (f : Bool) : SoundDeclaration f (Parser.declaration f) :=
  .bounded fun bound => (sound_within bound f).2

/-! ### What is written is read

A clause is read in front of anything that does not belong to it.  That excludes `else`
behind an open statement, and behind a declaration, which may end with one.  A list of
declarations must also be followed by something that stops it.
-/

/-- Declarations do not stop where one starts. -/
def StopsBetween (stop : Token → Bool) : Prop :=
  ∀ token, Clause.startsDeclaration token.kind = true → stop token = false

/-- What the parser for a clause does where the clause is written. -/
def ReadsClause : Clause → List Token → Prop
  | .statement f isOpen s, ts => ∀ rest,
      (isOpen = true → nextKind? rest ≠ some (.keyword .else_)) →
        (statement f).Reads (ts ++ rest) s rest
  | .declaration f s, ts => ∀ rest, nextKind? rest ≠ some (.keyword .else_) →
      (Parser.declaration f).Reads (ts ++ rest) (some s) rest
  | .declarations f ss, ts => ∀ stop, StopsBetween stop → ∀ rest,
      stop (rest.headD missingEnd) = true → nextKind? rest ≠ some (.keyword .else_) →
        ∀ bound, ts.length ≤ bound.length →
          (declarations stop (Parser.declaration f) bound).Reads (ts ++ rest) ss rest

/-- A statement is read by the production its first token tells. -/
theorem reads_statement_cons {token : Token} {more : List Token} :
    (statement f).Reads (token :: more) s rest ↔
      (statementOf (statement f) (Parser.declaration f) f).Reads (token :: more) s rest := by
  rw [← statement_eq]

theorem reads_declaration {result : Option Stmt} :
    (Parser.declaration f).Reads tokens result rest ↔
      ∃ s, result = some s ∧
        (declarationBody (statement f) (Parser.declaration true)).Reads tokens s rest := by
  rw [declaration_eq, reads_declarationOf (.statement f) (.declaration true)]

/-- What ends a block stops its declarations, and no declaration starts with it. -/
theorem stopsBetween_endsBlock : StopsBetween endsBlock := by
  intro token hstarts
  simp only [endsBlock, Token.isEnd, Bool.or_eq_false_iff, decide_eq_false_iff_not]
  constructor <;> intro hkind <;> rw [hkind] at hstarts <;> cases hstarts

private theorem stopsBetween_isEnd : StopsBetween Token.isEnd := by
  intro token hstarts
  simp only [Token.isEnd, decide_eq_false_iff_not]
  intro hkind
  rw [hkind] at hstarts
  cases hstarts

/-- The declarations of a block are read up to its closing brace. -/
theorem ReadsClause.reads_body {ss : List Stmt} {ts : List Token}
    (h : ReadsClause (.declarations f ss) ts) {closing : Token}
    (hclosing : closing.kind = .symbol .rightBrace) :
    (bounded (declarations endsBlock (Parser.declaration f))).Reads (ts ++ closing :: rest) ss
      (closing :: rest) :=
  h endsBlock stopsBetween_endsBlock (closing :: rest) (by simp [endsBlock, hclosing])
    (by simp [hclosing]) (ts ++ closing :: rest) (by simp)

/-- Behind a declaration stands another, or what follows them all. -/
theorem nextKind?_declarations_ne_else {ss : List Stmt} {ts : List Token}
    (h : (Clause.declarations f ss).Written ts)
    (hrest : nextKind? rest ≠ some (.keyword .else_)) :
    nextKind? (ts ++ rest) ≠ some (.keyword .else_) := by
  cases h with
  | nil => exact hrest
  | @cons _ s ss ts us hs hss =>
      rw [List.append_assoc]
      exact (hs.starts.append _).nextKind?_ne rfl

theorem readsClause_of_written {c : Clause} {ts : List Token} (h : c.Written ts) :
    ReadsClause c ts := by
  induction h with
  | @expression f e semicolon ts he hend =>
      intro rest _
      rw [statement_eq, List.append_assoc]
      refine (reads_statementOf_expression (he.starts.append _)).mpr ?_
      exact reads_expressionStatement.mpr ⟨e, ts, semicolon, rfl, rfl, he, hend⟩
  | @print f e keyword semicolon ts hkeyword he hend =>
      intro rest _
      rw [List.cons_append, reads_statement_cons, reads_statementOf_cons]
      simp only [hkeyword]
      exact reads_printStatement.mpr ⟨e, ts, semicolon, rfl, by simp, he, hend⟩
  | @return_ value keyword semicolon ts hkeyword hvalue hend =>
      intro rest _
      rw [List.cons_append, reads_statement_cons, reads_statementOf_cons]
      simp only [hkeyword]
      exact reads_returnStatement.mpr ⟨rfl, value, ts, semicolon, rfl, by simp, hvalue, hend⟩
  | @loop f isOpen condition body keyword opening closing ts us hkeyword hopening hcondition
      hclosing hbody ih =>
      intro rest hrest
      rw [List.cons_append, reads_statement_cons, reads_statementOf_cons]
      simp only [hkeyword]
      exact reads_whileStatement.mpr ⟨opening, condition, ts, closing, us ++ rest, body, by simp,
        hopening, hcondition, hclosing, ih rest hrest, rfl⟩
  | @forLoop f isOpen initializer condition increment body keyword opening semicolon closing is cs
      ns us hkeyword hopening hinitializer hcondition hsemicolon hincrement hclosing hbody ih =>
      intro rest hrest
      rw [List.cons_append, reads_statement_cons, reads_statementOf_cons]
      simp only [hkeyword]
      exact reads_forStatement.mpr ⟨opening, is, initializer, condition, cs, semicolon, increment,
        ns, closing, us ++ rest, body, by simp, hopening, hinitializer, hcondition, hsemicolon,
        hincrement, hclosing, ih rest hrest, rfl⟩
  | @conditional f isOpen condition thenBranch keyword opening closing ts us hkeyword hopening
      hcondition hclosing hthen ih =>
      intro rest hrest
      rw [List.cons_append, reads_statement_cons, reads_statementOf_cons]
      simp only [hkeyword]
      exact reads_ifStatement.mpr ⟨opening, condition, ts, closing, us ++ rest, thenBranch, rest,
        by simp, hopening, hcondition, hclosing, ih rest fun _ => hrest rfl,
        .inl ⟨hrest rfl, rfl, rfl⟩⟩
  | @choice f isOpen condition thenBranch elseBranch keyword opening closing divider ts us vs
      hkeyword hopening hcondition hclosing hthen hdivider helse ihthen ihelse =>
      intro rest hrest
      rw [List.cons_append, reads_statement_cons, reads_statementOf_cons]
      simp only [hkeyword]
      exact reads_ifStatement.mpr ⟨opening, condition, ts, closing, us ++ divider :: (vs ++ rest),
        thenBranch, divider :: (vs ++ rest), by simp, hopening, hcondition, hclosing,
        ihthen _ nofun, .inr ⟨divider, vs ++ rest, elseBranch, rfl, hdivider, ihelse rest hrest,
          rfl⟩⟩
  | @block f body opening closing ts hopening hbody hclosing ih =>
      intro rest _
      rw [List.cons_append, reads_statement_cons, reads_statementOf_cons]
      simp only [hopening]
      refine ⟨body, reads_block.mpr ⟨closing, ?_, hclosing⟩, rfl⟩
      rw [List.append_assoc]
      exact ih.reads_body hclosing
  | @function f name params body keyword opening closing left right ps ts hkeyword hname hopening
      hparams hcount hclosing hleft hbody hright ih =>
      intro rest _
      refine reads_declaration.mpr ⟨_, rfl, ?_⟩
      rw [List.cons_append, reads_declarationBody_cons]
      simp only [hkeyword]
      exact reads_functionDeclaration.mpr ⟨name, opening, ps, params, closing, left,
        ts ++ right :: rest, body, right, by simp, hname, hopening, hparams, hcount, hclosing,
        hleft, ih.reads_body hright, hright, rfl⟩
  | @var f s keyword ts hkeyword hs =>
      intro rest _
      refine reads_declaration.mpr ⟨_, rfl, ?_⟩
      rw [List.cons_append, reads_declarationBody_cons]
      simp only [hkeyword]
      exact reads_varDeclaration.mpr ⟨ts, rfl, hs⟩
  | @statement f isOpen s ts hs ih =>
      intro rest hrest
      refine reads_declaration.mpr ⟨_, rfl, ?_⟩
      have hread := ih rest fun _ => hrest
      obtain ⟨token, more, rfl, hkind⟩ := hs.startsStatement
      rw [List.cons_append, reads_declarationBody_cons]
      split <;> rename_i heq
      · exact absurd heq hkind.1
      · exact absurd heq hkind.2
      · exact hread
  | nil =>
      intro stop _ rest hstop _ bound _
      cases bound with
      | nil => exact reads_pure.mpr ⟨rfl, rfl⟩
      | cons token bound => exact reads_declarations_cons.mpr (.inl ⟨hstop, rfl, rfl⟩)
  | @cons f s ss ts us hs hss ihs ihss =>
      intro stop hbetween rest hstop hrest bound hbound
      have hread := ihs (us ++ rest) (nextKind?_declarations_ne_else hss hrest)
      obtain ⟨token, more, rfl, hkind⟩ := hs.starts
      cases bound with
      | nil => simp at hbound
      | cons _ bound =>
          simp only [List.cons_append, List.length_cons, List.length_append] at hbound
          rw [List.append_assoc]
          refine reads_declarations_cons.mpr (.inr ⟨hbetween token hkind, some s, us ++ rest, ss,
            hread, ?_, rfl⟩)
          exact ihss stop hbetween rest hstop hrest bound (by omega)

/-- **A statement is read from exactly the tokens it is written with, unless it is open and an
`else` follows.** -/
theorem reads_statement_iff :
    (statement f).Reads tokens s rest ↔
      ∃ ts isOpen, tokens = ts ++ rest ∧ (Clause.statement f isOpen s).Written ts ∧
        (isOpen = true → nextKind? rest ≠ some (.keyword .else_)) := by
  constructor
  · exact sound_statement f tokens s rest
  · intro h
    obtain ⟨ts, isOpen, rfl, hts, hrest⟩ := h
    exact readsClause_of_written hts rest hrest

/-! ### Whole programs -/

/-- Declarations bounded by the tokens there are go on to where they stop. -/
theorem stops_of_reads_declarations {stop : Token → Bool} (h : SoundDeclaration f declaration)
    (hmissing : stop missingEnd = true) :
    ∀ (bound tokens : List Token) (ss : List Stmt), tokens.length ≤ bound.length →
      (declarations stop declaration bound).Reads tokens ss rest →
      stop (rest.headD missingEnd) = true := by
  intro bound
  induction bound with
  | nil =>
      intro tokens ss hbound hread
      obtain ⟨rfl, rfl⟩ := reads_pure.mp hread
      rw [List.eq_nil_of_length_eq_zero (Nat.le_zero.mp hbound)]
      exact hmissing
  | cons token bound ih =>
      intro tokens ss hbound hread
      rcases reads_declarations_cons.mp hread with
        ⟨hstop, rfl, rfl⟩ | ⟨-, first, mid, more, hfirst, hmore, rfl⟩
      · exact hstop
      · obtain ⟨ts, rfl, s, rfl, hts⟩ := h tokens first mid hfirst
        obtain ⟨_, _, rfl, -⟩ := hts.starts
        simp only [List.cons_append, List.length_cons, List.length_append] at hbound
        exact ih mid more (by omega) hmore

theorem reads_program_iff {ss : List Stmt} :
    program.Reads tokens ss rest ↔
      ∃ ts, tokens = ts ++ rest ∧ (Clause.declarations false ss).Written ts ∧
        (rest.headD missingEnd).isEnd = true := by
  constructor
  · intro hread
    obtain ⟨ts, htokens, hts⟩ := sound_declarations (sound_declaration false) tokens tokens ss rest
      hread
    exact ⟨ts, htokens, hts, stops_of_reads_declarations (sound_declaration false) rfl tokens
      tokens ss (Nat.le_refl _) hread⟩
  · intro h
    obtain ⟨ts, rfl, hts, hend⟩ := h
    have hrest : nextKind? rest ≠ some (.keyword .else_) := by
      cases rest with
      | nil => exact nofun
      | cons token more =>
          rw [nextKind?_cons, Ne, Option.some.injEq]
          intro heq
          simp [Token.isEnd, heq] at hend
    exact readsClause_of_written hts _ stopsBetween_isEnd rest hend hrest (ts ++ rest) (by simp)

/-- Parsing reports nothing exactly if the program is read without a fault. -/
theorem parse_eq_iff {ss : List Stmt} :
    parse tokens = ⟨ss, []⟩ ↔ ∃ rest, program.Reads tokens ss rest := by
  simp only [parse, Parsed.mk.injEq, Reads]
  cases hreply : program tokens with
  | mk result faults rest =>
      cases result with
      | none =>
          have hfaults := Composed.program.givesReason tokens (by rw [hreply])
          rw [hreply] at hfaults
          simp [hfaults]
      | some statements => simp

/-- **Parsing reports nothing exactly if the tokens before the end mark are a way to write
declarations, and then these are what it makes of them.** -/
theorem parse_append_eq_iff {ts : List Token} {last : Token} {ss : List Stmt}
    (hts : ∀ token ∈ ts, token.isEnd = false) (hlast : last.isEnd = true) :
    parse (ts ++ [last]) = ⟨ss, []⟩ ↔ (Clause.declarations false ss).Written ts := by
  simp only [parse_eq_iff, reads_program_iff]
  constructor
  · intro h
    obtain ⟨rest, us, heq, hus, hend⟩ := h
    rcases List.append_eq_append_iff.mp heq with ⟨as, rfl, has⟩ | ⟨bs, rfl, rfl⟩
    · cases as with
      | nil => rwa [List.append_nil] at hus
      | cons token as =>
          obtain ⟨rfl, -⟩ := List.cons.inj has
          rw [hus.isEnd_eq_false last (by simp)] at hlast
          exact nomatch hlast
    · cases bs with
      | nil => rwa [List.append_nil]
      | cons token bs =>
          rw [List.cons_append, List.headD_cons, hts token (by simp)] at hend
          exact nomatch hend
  · intro hwritten
    exact ⟨[last], ts, rfl, hwritten, hlast⟩

end Lox.Parser
