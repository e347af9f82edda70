/-
Malformed statements among others.

`Clause.Inserted` says how malformed statements come to stand in a program: between,
before or after the items of any list, at the top or in braces at any depth.  It has
one rule for each way to write a clause that holds other clauses, and two for an item
of a list, which is kept if nothing was put into it and dropped otherwise.

What the parser answers then is found by induction on that relation.  Every production
goes on behind the malformed statements in it, and only passes on their faults; every
declaration around them is dropped for these; and nothing else changes.
-/
import Lox.Proofs.Grammar.Malformed

namespace Lox

open Lox.Parser

/-! ### Putting malformed statements in -/

namespace Clause

/-- The clause written with the first tokens becomes the one read from the second, when these
malformed statements are put into its lists.  A declaration with one in it is no longer in the
list it was in. -/
inductive Inserted :
    Clause → List Token → Clause → List Token → List MalformedStatement → Prop where
  | intact {f isOpen : Bool} {s : Stmt} {ts : List Token} (h : (statement f isOpen s).Written ts) :
      Inserted (.statement f isOpen s) ts (.statement f isOpen s) ts []
  | loop {f isOpen : Bool} {condition : Expr} {body body' : Stmt} {keyword opening closing : Token}
      {ts us us' : List Token} {ms : List MalformedStatement}
      (hkeyword : keyword.kind = .keyword .while_) (hopening : opening.kind = .symbol .leftParen)
      (hcondition : (Phrase.expression condition).Written ts)
      (hclosing : closing.kind = .symbol .rightParen)
      (hbody : Inserted (.statement f isOpen body) us (.statement f isOpen body') us' ms) :
      Inserted (.statement f isOpen (.loop condition body))
        (keyword :: opening :: (ts ++ closing :: us))
        (.statement f isOpen (.loop condition body'))
        (keyword :: opening :: (ts ++ closing :: us')) ms
  | forLoop {f isOpen : Bool} {initializer : Option Stmt} {condition increment : Option Expr}
      {body body' : Stmt} {keyword opening semicolon closing : Token}
      {is cs ns us us' : List Token} {ms : List MalformedStatement}
      (hkeyword : keyword.kind = .keyword .for_) (hopening : opening.kind = .symbol .leftParen)
      (hinitializer : WrittenInitializer initializer is)
      (hcondition : WrittenOptional condition cs)
      (hsemicolon : semicolon.kind = .symbol .semicolon)
      (hincrement : WrittenOptional increment ns)
      (hclosing : closing.kind = .symbol .rightParen)
      (hbody : Inserted (.statement f isOpen body) us (.statement f isOpen body') us' ms) :
      Inserted (.statement f isOpen (.forLoop initializer condition increment body))
        (keyword :: opening :: (is ++ (cs ++ semicolon :: (ns ++ closing :: us))))
        (.statement f isOpen (.forLoop initializer condition increment body'))
        (keyword :: opening :: (is ++ (cs ++ semicolon :: (ns ++ closing :: us')))) ms
  | conditional {f isOpen : Bool} {condition : Expr} {thenBranch thenBranch' : Stmt}
      {keyword opening closing : Token} {ts us us' : List Token} {ms : List MalformedStatement}
      (hkeyword : keyword.kind = .keyword .if_) (hopening : opening.kind = .symbol .leftParen)
      (hcondition : (Phrase.expression condition).Written ts)
      (hclosing : closing.kind = .symbol .rightParen)
      (hthen : Inserted (.statement f isOpen thenBranch) us (.statement f isOpen thenBranch') us'
        ms) :
      Inserted (.statement f true (.conditional condition thenBranch none))
        (keyword :: opening :: (ts ++ closing :: us))
        (.statement f true (.conditional condition thenBranch' none))
        (keyword :: opening :: (ts ++ closing :: us')) ms
  | choice {f isOpen : Bool} {condition : Expr} {thenBranch thenBranch' elseBranch elseBranch' : Stmt}
      {keyword opening closing divider : Token} {ts us us' vs vs' : List Token}
      {ms ns : List MalformedStatement}
      (hkeyword : keyword.kind = .keyword .if_) (hopening : opening.kind = .symbol .leftParen)
      (hcondition : (Phrase.expression condition).Written ts)
      (hclosing : closing.kind = .symbol .rightParen)
      (hthen : Inserted (.statement f false thenBranch) us (.statement f false thenBranch') us' ms)
      (hdivider : divider.kind = .keyword .else_)
      (helse : Inserted (.statement f isOpen elseBranch) vs (.statement f isOpen elseBranch') vs'
        ns) :
      Inserted (.statement f isOpen (.conditional condition thenBranch (some elseBranch)))
        (keyword :: opening :: (ts ++ closing :: (us ++ divider :: vs)))
        (.statement f isOpen (.conditional condition thenBranch' (some elseBranch')))
        (keyword :: opening :: (ts ++ closing :: (us' ++ divider :: vs'))) (ms ++ ns)
  | block {f : Bool} {body kept : List Stmt} {opening closing : Token} {ts ts' : List Token}
      {ms : List MalformedStatement} (hopening : opening.kind = .symbol .leftBrace)
      (hbody : Inserted (.declarations f body) ts (.declarations f kept) ts' ms)
      (hclosing : closing.kind = .symbol .rightBrace) :
      Inserted (.statement f false (.block body)) (opening :: (ts ++ [closing]))
        (.statement f false (.block kept)) (opening :: (ts' ++ [closing])) ms
  | function {f : Bool} {name : Token} {params : List Token} {body kept : List Stmt}
      {keyword opening closing left right : Token} {ps ts ts' : List Token}
      {ms : List MalformedStatement} (hkeyword : keyword.kind = .keyword .fun_)
      (hname : name.kind = .identifier) (hopening : opening.kind = .symbol .leftParen)
      (hparams : WrittenParameters params ps) (hcount : params.length ≤ maxArity)
      (hclosing : closing.kind = .symbol .rightParen) (hleft : left.kind = .symbol .leftBrace)
      (hbody : Inserted (.declarations true body) ts (.declarations true kept) ts' ms)
      (hright : right.kind = .symbol .rightBrace) :
      Inserted (.declaration f (.function name params body))
        (keyword :: name :: opening :: (ps ++ closing :: left :: (ts ++ [right])))
        (.declaration f (.function name params kept))
        (keyword :: name :: opening :: (ps ++ closing :: left :: (ts' ++ [right]))) ms
  | statement {f isOpen : Bool} {s s' : Stmt} {ts ts' : List Token} {ms : List MalformedStatement}
      (hs : Inserted (.statement f isOpen s) ts (.statement f isOpen s') ts' ms) :
      Inserted (.declaration f s) ts (.declaration f s') ts' ms
  | nil {f : Bool} : Inserted (.declarations f []) [] (.declarations f []) [] []
  | keep {f : Bool} {s : Stmt} {ss kept : List Stmt} {ts us us' : List Token}
      {ms : List MalformedStatement} (hs : (declaration f s).Written ts)
      (hss : Inserted (.declarations f ss) us (.declarations f kept) us' ms) :
      Inserted (.declarations f (s :: ss)) (ts ++ us) (.declarations f (s :: kept)) (ts ++ us') ms
  | drop {f : Bool} {s s' : Stmt} {ss kept : List Stmt} {ts ts' us us' : List Token}
      {ms ns : List MalformedStatement} (hms : ms ≠ [])
      (hs : Inserted (.declaration f s) ts (.declaration f s') ts' ms)
      (hss : Inserted (.declarations f ss) us (.declarations f kept) us' ns) :
      Inserted (.declarations f (s :: ss)) (ts ++ us) (.declarations f kept) (ts' ++ us') (ms ++ ns)
  | malformed {f : Bool} {ss kept : List Stmt} {ts ts' : List Token} {ms : List MalformedStatement}
      (m : MalformedStatement)
      (hss : Inserted (.declarations f ss) ts (.declarations f kept) ts' ms) :
      Inserted (.declarations f ss) ts (.declarations f kept) (m.tokens ++ ts') (m :: ms)

variable {c c' : Clause} {ts ts' rest : List Token} {ms : List MalformedStatement}

/-! ### First tokens -/

/-- Neither a block nor the tokens end where a declaration starts. -/
theorem StartsDeclaration.ends (h : StartsDeclaration ts) :
    ∃ token more, ts = token :: more ∧ token.kind ≠ .symbol .rightBrace ∧
      token.kind ≠ .endOfFile := by
  obtain ⟨token, more, rfl, hkind⟩ := h
  refine ⟨token, more, rfl, ?_, ?_⟩ <;> intro heq <;> rw [heq] at hkind <;>
    exact Bool.noConfusion hkind

namespace Inserted

/-- A statement or declaration with malformed statements in it starts as before. -/
theorem starts (h : c.Inserted ts c' ts' ms) :
    match c with
    | .declarations _ _ => True
    | _ => StartsDeclaration ts' := by
  induction h with
  | intact h => exact h.starts
  | loop hkeyword | forLoop hkeyword | conditional hkeyword | choice hkeyword | block hkeyword
  | function hkeyword => exact startsDeclaration_cons hkeyword rfl
  | statement hs ih => exact ih
  | nil | keep | drop | malformed => trivial

/-- A statement with malformed ones in it starts with neither of the keywords of a declaration. -/
theorem startsStatement {f isOpen : Bool} {s : Stmt}
    (h : (Clause.statement f isOpen s).Inserted ts c' ts' ms) :
    ∃ token more, ts' = token :: more ∧
      token.kind ≠ .keyword .fun_ ∧ token.kind ≠ .keyword .var_ := by
  cases h with
  | intact h => exact h.startsStatement
  | loop hkeyword | forLoop hkeyword | conditional hkeyword | choice hkeyword | block hkeyword =>
      exact ⟨_, _, rfl, by simp [hkeyword]⟩

/-- No list of declarations starts with `else`. -/
theorem nextKind?_ne_else {f : Bool} {ss : List Stmt}
    (h : (Clause.declarations f ss).Inserted ts c' ts' ms)
    (hrest : nextKind? rest ≠ some (.keyword .else_)) :
    nextKind? (ts' ++ rest) ≠ some (.keyword .else_) := by
  cases h with
  | nil => exact hrest
  | keep hs hss =>
      rw [List.append_assoc]
      exact (hs.starts.append _).nextKind?_ne rfl
  | drop hms hs hss =>
      rw [List.append_assoc]
      exact (hs.starts.append _).nextKind?_ne rfl
  | malformed m hss =>
      obtain ⟨first, more, htokens, -, -, helse⟩ := m.exists_first
      rw [htokens, List.cons_append, List.cons_append, nextKind?_cons]
      exact fun heq => helse (Option.some.inj heq)

end Inserted

end Clause

/-! ### What is read

What is answered is as without malformed statements but for the faults, so the faults
are a parameter.  No `else` may follow an open statement, nor a declaration, since it
may end with one.
-/

namespace Parser

/-- Declarations stop only where a block ends or the tokens do. -/
def StopsAtEnds (stop : Token → Bool) : Prop :=
  ∀ token, token.kind ≠ .symbol .rightBrace → token.kind ≠ .endOfFile → stop token = false

private theorem stopsAtEnds_endsBlock : StopsAtEnds endsBlock := by
  intro token hbrace hend
  unfold endsBlock Token.isEnd
  rw [decide_eq_false hbrace, decide_eq_false hend]
  rfl

private theorem stopsAtEnds_isEnd : StopsAtEnds Token.isEnd :=
  fun _ _ hend => decide_eq_false hend

/-- What the parser for a clause answers where it is read with these faults. -/
def RepliesClause (faults : List SyntaxFault) : Clause → List Token → Prop
  | .statement f isOpen s, ts => ∀ rest,
      (isOpen = true → nextKind? rest ≠ some (.keyword .else_)) →
        statement f (ts ++ rest) = ⟨some s, faults, rest⟩
  | .declaration f s, ts => ∀ rest, nextKind? rest ≠ some (.keyword .else_) →
      declarationBody (statement f) (declaration true) (ts ++ rest) = ⟨some s, faults, rest⟩
  | .declarations f ss, ts => ∀ stop, StopsAtEnds stop → ∀ rest,
      stop (rest.headD missingEnd) = true → nextKind? rest ≠ some (.keyword .else_) →
        ∀ bound, ts.length ≤ bound.length →
          declarations stop (declaration f) bound (ts ++ rest) = ⟨some ss, faults, rest⟩

variable {f : Bool} {faults : List SyntaxFault} {ts rest : List Token}

/-- The declarations of a block are read up to its closing brace. -/
theorem RepliesClause.block {ss : List Stmt} (h : RepliesClause faults (.declarations f ss) ts)
    {closing : Token} (hclosing : closing.kind = .symbol .rightBrace) :
    block (declaration f) (ts ++ closing :: rest) = ⟨some ss, faults, rest⟩ := by
  refine block_apply hclosing ?_
  have hstop : endsBlock closing = true := by
    unfold endsBlock
    rw [hclosing]
    rfl
  have hnext : nextKind? (closing :: rest) ≠ some (.keyword .else_) := by
    rw [nextKind?_cons, hclosing]
    exact nofun
  refine h endsBlock stopsAtEnds_endsBlock (closing :: rest) hstop hnext _ ?_
  rw [List.length_append]
  exact Nat.le_add_right _ _

/-- A declaration with a fault in it is dropped. -/
theorem RepliesClause.dropped {s : Stmt} (h : RepliesClause faults (.declaration f s) ts)
    (hfaults : faults ≠ []) (hrest : nextKind? rest ≠ some (.keyword .else_)) :
    declaration f (ts ++ rest) = ⟨some none, faults, rest⟩ := by
  rw [declaration_apply]
  unfold recovering
  simp only [h rest hrest]
  rw [List.isEmpty_eq_false_iff.mpr hfaults, if_neg Bool.false_ne_true]

/-- A list of declarations that starts with this one goes on behind it. -/
theorem RepliesClause.cons {ss : List Stmt} {us : List Token} {more : List SyntaxFault}
    (faults : List SyntaxFault) (first : Option Stmt) (hss : RepliesClause more (.declarations f ss) us)
    (hstarts : ∃ token rest, ts = token :: rest ∧ token.kind ≠ .symbol .rightBrace ∧
      token.kind ≠ .endOfFile)
    (hfirst : ∀ rest, nextKind? rest ≠ some (.keyword .else_) →
      declaration f (ts ++ (us ++ rest)) = ⟨some first, faults, us ++ rest⟩) :
    RepliesClause (faults ++ more) (.declarations f (first.toList ++ ss)) (ts ++ us) := by
  intro stop hends rest hstop hrest bound hbound
  obtain ⟨token, last, rfl, hbrace, hend⟩ := hstarts
  cases bound with
  | nil => exact absurd hbound (by simp)
  | cons _ bound =>
      simp only [List.cons_append, List.length_cons, List.length_append] at hbound
      rw [List.append_assoc]
      refine declarations_cons ?_ (hfirst rest hrest) ?_
      · exact hends token hbrace hend
      · exact hss stop hends rest hstop hrest bound (by omega)

end Parser

/-- The faults of malformed statements, each alone, in order. -/
def MalformedStatement.allFaults (ms : List MalformedStatement) : List SyntaxFault :=
  ms.flatMap faults

theorem MalformedStatement.allFaults_append (ms ns : List MalformedStatement) :
    allFaults (ms ++ ns) = allFaults ms ++ allFaults ns :=
  List.flatMap_append

theorem MalformedStatement.allFaults_ne_nil {ms : List MalformedStatement} (h : ms ≠ []) :
    allFaults ms ≠ [] := by
  cases ms with
  | nil => exact absurd rfl h
  | cons m ms => exact List.append_ne_nil_of_left_ne_nil m.faulty _

open MalformedStatement in
/-- **Behind malformed statements the parser goes on, and it reports what they report alone.** -/
theorem Clause.Inserted.replies {c c' : Clause} {ts ts' : List Token}
    {ms : List MalformedStatement} (h : c.Inserted ts c' ts' ms) :
    RepliesClause (allFaults ms) c' ts' := by
  induction h with
  | @intact f isOpen s ts h => exact readsClause_of_written h
  | @loop f isOpen condition body body' keyword opening closing ts us us' ms hkeyword hopening
      hcondition hclosing _ ih =>
      intro rest hrest
      simp only [List.cons_append, List.append_assoc]
      rw [statement_loop hkeyword hopening hcondition hclosing]
      exact bind_pure_apply (ih rest hrest)
  | @forLoop f isOpen initializer condition increment body body' keyword opening semicolon closing
      is cs ns us us' ms hkeyword hopening hinitializer hcondition hsemicolon hincrement hclosing _
      ih =>
      intro rest hrest
      simp only [List.cons_append, List.append_assoc]
      rw [statement_forLoop hkeyword hopening hinitializer hcondition hsemicolon hincrement hclosing]
      exact bind_pure_apply (ih rest hrest)
  | @conditional f isOpen condition thenBranch thenBranch' keyword opening closing ts us us' ms
      hkeyword hopening hcondition hclosing _ ih =>
      intro rest hrest
      have hnext := hrest rfl
      simp only [List.cons_append, List.append_assoc]
      rw [statement_conditional hkeyword hopening hcondition hclosing]
      -- No `else` follows.
      have hnone := reads_accept_of_ne hnext
      rw [bind_apply_some (ih rest fun _ => hnext) (hnone.bind_apply _), List.append_nil]
  | @choice f isOpen condition thenBranch thenBranch' elseBranch elseBranch' keyword opening closing
      divider ts us us' vs vs' ms ns hkeyword hopening hcondition hclosing _ hdivider _ ihthen
      ihelse =>
      intro rest hrest
      simp only [List.cons_append, List.append_assoc]
      rw [statement_conditional hkeyword hopening hcondition hclosing, allFaults_append]
      refine bind_apply_some (ihthen _ nofun) ?_
      rw [(reads_accept_of_kind hdivider (vs' ++ rest)).bind_apply]
      exact bind_pure_apply (ihelse rest hrest)
  | @block f body kept opening closing ts ts' ms hopening _ hclosing ih =>
      intro rest _
      rw [List.cons_append, statement_cons]
      simp only [hopening, List.append_assoc]
      exact bind_pure_apply (ih.block hclosing)
  | @function f name params body kept keyword opening closing left right ps ts ts' ms hkeyword hname
      hopening hparams hcount hclosing hleft _ hright ih =>
      intro rest _
      rw [List.cons_append, declarationBody_cons]
      simp only [hkeyword, List.cons_append, List.append_assoc]
      rw [functionDeclaration_apply hname hopening hparams hcount hclosing hleft]
      exact bind_pure_apply (ih.block hright)
  | @statement f isOpen s s' ts ts' ms hs ih =>
      intro rest hrest
      have hreply := ih rest fun _ => hrest
      obtain ⟨token, more, rfl, hfun, hvar⟩ := hs.startsStatement
      rw [List.cons_append, declarationBody_cons]
      split <;> rename_i hkind
      · exact absurd hkind hfun
      · exact absurd hkind hvar
      · exact hreply
  | nil =>
      intro stop _ rest hstop _ bound _
      exact declarations_of_stop hstop bound
  | @keep f s ss kept ts us us' ms hs hss ih =>
      have hstarts : Clause.StartsDeclaration ts := hs.starts
      refine RepliesClause.cons [] (some s) ih ?_ fun rest hrest => ?_
      · exact hstarts.ends
      · exact readsClause_of_written hs (us' ++ rest) (hss.nextKind?_ne_else hrest)
  | @drop f s s' ss kept ts ts' us us' ms ns hms hs hss ihs ihss =>
      have hstarts : Clause.StartsDeclaration ts' := hs.starts
      rw [allFaults_append]
      refine RepliesClause.cons (allFaults ms) none ihss hstarts.ends fun rest hrest => ?_
      exact ihs.dropped (allFaults_ne_nil hms) (hss.nextKind?_ne_else hrest)
  | @malformed f ss kept ts ts' ms m hss ih =>
      obtain ⟨first, more, htokens, hbrace, hend, -⟩ := m.exists_first
      refine RepliesClause.cons m.faults none ih
        ⟨first, more, htokens, hbrace, hend⟩ fun rest _ => ?_
      exact m.declaration_tokens f (ts' ++ rest)

/-! ### Programs

A whole program is read up to its end mark, where declarations stop.  So the tokens into
which statements are put are those in front of the mark, and nothing is said of what
lies behind it.
-/

/-- What a program that parses without a fault is written with, and where its tokens end. -/
theorem Parser.written_of_parse {tokens : List Token} {ss : List Stmt}
    (h : parse tokens = ⟨ss, []⟩) :
    (Clause.declarations false ss).Written (tokens.takeWhile fun token => !token.isEnd) ∧
      ((tokens.dropWhile fun token => !token.isEnd).headD missingEnd).isEnd = true := by
  obtain ⟨rest, hread⟩ := parse_eq_iff.mp h
  obtain ⟨ts, rfl, hts, hend⟩ := reads_program_iff.mp hread
  have hbefore : ∀ token ∈ ts, (!token.isEnd) = true := by
    intro token hmem
    rw [hts.isEnd_eq_false token hmem]
    rfl
  rw [List.takeWhile_append_of_pos hbefore, List.dropWhile_append_of_pos hbefore]
  cases rest with
  | nil => exact ⟨by rwa [List.takeWhile_nil, List.append_nil], rfl⟩
  | cons last more =>
      have hlast : (!last.isEnd) = false := by
        rw [List.headD_cons] at hend
        rw [hend]
        rfl
      rw [List.takeWhile_cons, List.dropWhile_cons, hlast]
      exact ⟨by rwa [if_neg Bool.false_ne_true, List.append_nil],
        by rwa [if_neg Bool.false_ne_true]⟩

/-- **Malformed statements cost only themselves and the top-level declarations around them.**
Wherever they are put into the lists of a program that parses without a fault, the declarations
without one are kept, and the faults are those of the malformed statements, each alone. -/
theorem parse_inserted {tokens : List Token} {ss : List Stmt} (h : parse tokens = ⟨ss, []⟩) :
    (Clause.declarations false ss).Written (tokens.takeWhile fun token => !token.isEnd) ∧
      ∀ kept after ms,
        (Clause.declarations false ss).Inserted (tokens.takeWhile fun token => !token.isEnd)
          (.declarations false kept) after ms →
        parse (after ++ tokens.dropWhile fun token => !token.isEnd) =
          ⟨kept, ms.flatMap MalformedStatement.faults⟩ := by
  obtain ⟨hwritten, hend⟩ := written_of_parse h
  refine ⟨hwritten, fun kept after ms hinserted => ?_⟩
  have hnext : nextKind? (tokens.dropWhile fun token => !token.isEnd) ≠
      some (.keyword .else_) := by
    generalize tokens.dropWhile _ = rest at hend
    cases rest with
    | nil => exact nofun
    | cons last more =>
        have hlast : last.kind = .endOfFile := of_decide_eq_true hend
        rw [nextKind?_cons, hlast]
        exact nofun
  have hreply := hinserted.replies Token.isEnd stopsAtEnds_isEnd _ hend hnext
    (after ++ tokens.dropWhile fun token => !token.isEnd)
    (by rw [List.length_append]; exact Nat.le_add_right _ _)
  show Parsed.mk ((declarations Token.isEnd (declaration false) _ _).result.getD [])
    (declarations Token.isEnd (declaration false) _ _).faults = _
  rw [hreply]
  rfl

/-- `) ;` -/
def strayParen : MalformedStatement where
  front := [⟨.symbol .rightParen, ")", 1⟩]
  semicolon := ⟨.symbol .semicolon, ";", 1⟩
  kind_semicolon := rfl
  simple := by decide
  opens := by decide
  not_else := by decide
  faulty := by decide

/-- `print nil;` -/
def printNil : List Token :=
  [⟨.keyword .print_, "print", 1⟩, ⟨.keyword .nil_, "nil", 1⟩, ⟨.symbol .semicolon, ";", 1⟩]

private theorem written_printNil :
    (Clause.declaration false (.print (.literal .nil))).Written printNil := by
  have hprimary : (Phrase.primary (.literal .nil)).Written [⟨.keyword .nil_, "nil", 1⟩] :=
    .atom rfl
  have hexpression : (Phrase.expression (.literal .nil)).Written [⟨.keyword .nil_, "nil", 1⟩] :=
    .operation (.operand (.operand (.operand (.operand (.operand (.operand
      (.unary (.call (.primary hprimary)))))))))
  exact .statement (.print rfl hexpression rfl)

/-- The tokens in braces. -/
def braced (ts : List Token) : List Token :=
  ⟨.symbol .leftBrace, "\x7b", 1⟩ :: (ts ++ [⟨.symbol .rightBrace, "\x7d", 1⟩])

/-- A block and a statement behind it: a stray parenthesis before the block costs nothing else, and
one at its end costs the block. -/
theorem parse_inserted_strayParen :
    parse (strayParen.tokens ++ (braced (printNil ++ strayParen.tokens) ++ printNil) ++
        [.endOfFile 1]) =
      ⟨[.print (.literal .nil)], strayParen.faults ++ strayParen.faults⟩ := by
  have hparse : parse (braced printNil ++ printNil ++ [.endOfFile 1]) =
      ⟨[.block [.print (.literal .nil)], .print (.literal .nil)], []⟩ := rfl
  have hblock : (Clause.declaration false (.block [.print (.literal .nil)])).Inserted
      (braced printNil) (.declaration false (.block [.print (.literal .nil)]))
      (braced (printNil ++ strayParen.tokens)) [strayParen] :=
    .statement (.block rfl (.keep written_printNil (.malformed strayParen .nil)) rfl)
  have hinserted : (Clause.declarations false
      [.block [.print (.literal .nil)], .print (.literal .nil)]).Inserted
      (braced printNil ++ printNil) (.declarations false [.print (.literal .nil)])
      (strayParen.tokens ++ (braced (printNil ++ strayParen.tokens) ++ printNil))
      [strayParen, strayParen] :=
    .malformed strayParen (.drop (List.cons_ne_nil _ _) hblock (.keep written_printNil .nil))
  exact (parse_inserted hparse).2 _ _ _ hinserted

end Lox
