/-
A semicolon that is missing in front of a keyword.

Where the semicolon of a top-level statement is missing and the next declaration
starts with a keyword, the statement is read as ever up to that keyword, and given up
there.  That is one fault, at the keyword.

At least one token is skipped then, and the keyword is the first.  So the declaration
that it starts is lost along with the statement in front of it, and what is left of
its tokens is skipped as well, or is parsed as if it stood by itself.  The declaration
cannot come back that way: there is one keyword less among the tokens that are left
than it takes to write it and those behind it.
-/
import Lox.Proofs.Grammar.Keywords
import Lox.Proofs.Grammar.Insertion
import Lox.Proofs.Grammar.Termination

namespace Lox

private theorem WrittenVar.ne_nil {s : Stmt} {ts : List Token} (h : WrittenVar s ts) : ts ≠ [] := by
  cases h <;> exact List.cons_ne_nil _ _

namespace Parser

variable {α β : Type} {ts us rest : List Token} {token : Token}

/-! ### Going on behind a declaration -/

/-- Behind a declaration, whether it is dropped or not, parsing goes on as if it started there. -/
theorem parse_of_declaration {first : Option Stmt} {faults : List SyntaxFault} {mid : List Token}
    (hend : token.isEnd = false) (h : declaration false (token :: rest) = ⟨some first, faults, mid⟩) :
    parse (token :: rest) =
      ⟨first.toList ++ (parse mid).statements, faults ++ (parse mid).faults⟩ := by
  -- The declaration has taken a token, so the bound that is left is enough for the others.
  have hshort : mid.length ≤ rest.length := by
    have hadvance := declaration_advances false token rest hend
    rwa [h] at hadvance
  have hfree : declarations Token.isEnd (declaration false) rest mid =
      declarations Token.isEnd (declaration false) mid mid :=
    (declarations_boundFree (fun _ => id) (.declaration false) (declaration_advances false)
      |>.agree_bounded rest) mid (Nat.lt_succ_of_le hshort)
  obtain ⟨ss, more, last, hmore⟩ := declarations_reply Token.isEnd false mid mid
  have hwhole : declarations Token.isEnd (declaration false) (token :: rest) (token :: rest) =
      ⟨some (first.toList ++ ss), faults ++ more, last⟩ :=
    declarations_cons hend h (hfree.trans hmore)
  have hmid : parse mid = ⟨ss, more⟩ := by
    show Parsed.mk ((declarations _ _ mid mid).result.getD []) (declarations _ _ mid mid).faults = _
    rw [hmore]
    rfl
  rw [hmid]
  show Parsed.mk ((declarations _ _ (token :: rest) (token :: rest)).result.getD [])
    (declarations _ _ (token :: rest) (token :: rest)).faults = _
  rw [hwhole]
  rfl

/-- Behind declarations without a fault, too. -/
theorem parse_append_of_written {ss : List Stmt} (h : (Clause.declarations false ss).Written ts)
    (hrest : nextKind? rest ≠ some (.keyword .else_)) :
    parse (ts ++ rest) = ⟨ss ++ (parse rest).statements, (parse rest).faults⟩ := by
  induction ss generalizing ts with
  | nil =>
      cases h
      rfl
  | cons s ss ih =>
      cases h with
      | @cons _ _ _ ts us hs hss =>
          have hread := readsClause_of_written hs (us ++ rest)
            (nextKind?_declarations_ne_else hss hrest)
          have hends := hs.isEnd_eq_false
          obtain ⟨token, more, rfl, -⟩ := hs.starts
          rw [List.append_assoc]
          rw [List.cons_append] at hread ⊢
          rw [parse_of_declaration (hends token List.mem_cons_self) hread, ih hss]
          rfl

/-- So the others are parsed to what comes behind the first. -/
theorem parse_of_parse_append {ss more : List Stmt} (h : (Clause.declarations false ss).Written ts)
    (hrest : nextKind? rest ≠ some (.keyword .else_))
    (hwhole : parse (ts ++ rest) = ⟨ss ++ more, []⟩) : parse rest = ⟨more, []⟩ := by
  rw [parse_append_of_written h hrest] at hwhole
  generalize parse rest = parsed at hwhole
  obtain ⟨statements, faults⟩ := parsed
  obtain ⟨hstatements, rfl⟩ := Parsed.mk.inj hwhole
  obtain rfl : statements = more := List.append_cancel_left hstatements
  rfl

/-! ### Statements that lack their semicolon

A statement that ends with a semicolon need not have it at its own end: in
`while (a) print b;` it is that of the statement inside.  So the induction is on how the
statement is written, and gets down to where the semicolon is expected.
-/

/-- The parser takes these tokens and gives up in front of the next, where a semicolon is missing. -/
def LacksSemicolon (p : Parser α) (ts : List Token) (token : Token) : Prop :=
  ∃ place, ∀ rest,
    p (ts ++ token :: rest) = ⟨none, [⟨token, .missing .semicolon place⟩], token :: rest⟩

namespace LacksSemicolon

private theorem congr {p q : Parser α} (h : q.LacksSemicolon ts token)
    (hsame : ∀ rest, p (ts ++ token :: rest) = q (ts ++ token :: rest)) :
    p.LacksSemicolon ts token := by
  obtain ⟨place, h⟩ := h
  exact ⟨place, fun rest => by rw [hsame, h]⟩

/-- Behind tokens that were taken. -/
theorem behind {p q : Parser α} (ts : List Token) (h : q.LacksSemicolon us token)
    (hsame : ∀ rest, p (ts ++ rest) = q rest) : p.LacksSemicolon (ts ++ us) token := by
  obtain ⟨place, h⟩ := h
  refine ⟨place, fun rest => ?_⟩
  rw [List.append_assoc, hsame, h]

theorem bind {p : Parser α} (h : p.LacksSemicolon ts token) (next : α → Parser β) :
    (p >>= next).LacksSemicolon ts token := by
  obtain ⟨place, h⟩ := h
  exact ⟨place, fun rest => bind_apply_none (h rest)⟩

end LacksSemicolon

/-- What no expression holds goes on none. -/
theorem endsOperation_of_inExpression (h : inExpression token.kind = false) :
    EndsOperation levels (token :: rest) := by
  refine ⟨fun heq => ne_of_inExpression h rfl (Option.some.inj heq), ?_⟩
  intro level hlevel kind hkind heq
  exact ne_of_inExpression h (inExpression_of_mem hlevel hkind) (Option.some.inj heq)

/-- The tokens end with a semicolon. -/
def EndsWithSemicolon (ts : List Token) : Prop :=
  ts.getLast?.map Token.kind = some (.symbol .semicolon)

private theorem endsWithSemicolon_concat :
    EndsWithSemicolon (ts ++ [token]) ↔ token.kind = .symbol .semicolon := by
  unfold EndsWithSemicolon
  rw [List.getLast?_concat, Option.map_some, Option.some.injEq]

namespace EndsWithSemicolon

private theorem of_append (h : EndsWithSemicolon (ts ++ us)) (hus : us ≠ []) :
    EndsWithSemicolon us := by
  unfold EndsWithSemicolon at h
  rwa [List.getLast?_append_of_ne_nil _ hus] at h

/-- No declaration is a semicolon and nothing else. -/
theorem ne_nil_of_starts (h : EndsWithSemicolon (token :: us))
    (hstarts : Clause.StartsDeclaration (token :: us)) : us ≠ [] := by
  rintro rfl
  have hkind : token.kind = .symbol .semicolon := Option.some.inj h
  exact hstarts.nextKind?_ne rfl (congrArg some hkind)

end EndsWithSemicolon

/-- What the parser for a clause does where the semicolon at the end of the clause is missing. -/
def MissesSemicolon (token : Token) : Clause → List Token → Prop
  | .statement f _ _, ts => f = false → EndsWithSemicolon ts →
      (statement f).LacksSemicolon ts.dropLast token
  | .declaration f _, ts => f = false → EndsWithSemicolon ts →
      (declarationBody (statement f) (declaration true)).LacksSemicolon ts.dropLast token
  | .declarations _ _, _ => True

/-- The semicolon at the end of a statement is that of the statement nested in it there. -/
theorem LacksSemicolon.nested {p : Parser β} {q : Parser α} {next : α → Parser β}
    {tokens : List Token → List Token} (us front : List Token)
    (htokens : ∀ rest, tokens rest = front ++ rest) (hends : EndsWithSemicolon (tokens us))
    (hus : us ≠ []) (h : EndsWithSemicolon us → q.LacksSemicolon us.dropLast token)
    (hsame : ∀ rest, p (tokens rest) = (q >>= next) rest) :
    p.LacksSemicolon (tokens us).dropLast token := by
  rw [htokens] at hends ⊢
  rw [List.dropLast_append_of_ne_nil hus]
  refine ((h (hends.of_append hus)).bind next).behind front fun rest => ?_
  rw [← htokens, hsame]

section

variable (hout : inExpression token.kind = false) (hother : token.kind ≠ .symbol .semicolon)
include hout hother

theorem LacksSemicolon.expression {e : Expr} (h : (Phrase.expression e).Written ts) (place : Place)
    (f : Expr → β) :
    LacksSemicolon (do
      let value ← Parser.expression
      let _ ← expectSymbol .semicolon place
      Pure.pure (f value)) ts token := by
  refine ⟨place, fun rest => ?_⟩
  have hequal : nextKind? (token :: rest) ≠ some (.symbol .equal) :=
    fun heq => ne_of_inExpression hout rfl (Option.some.inj heq)
  have hread : Parser.expression.Reads (ts ++ token :: rest) e (token :: rest) :=
    reads_expression_of_written h (endsOperation_of_inExpression hout) hequal
  rw [hread.bind_apply]
  exact bind_apply_none (expectSymbol_apply_of_ne hother place rest)

private theorem LacksSemicolon.varDeclaration {s : Stmt} (h : WrittenVar s ts) :
    varDeclaration.LacksSemicolon ts.dropLast token := by
  cases h with
  | @bare name last hname hend =>
      refine ⟨.afterVariableDeclaration, fun rest => ?_⟩
      have hequal : nextKind? (token :: rest) ≠ some (.symbol .equal) :=
        fun heq => ne_of_inExpression hout rfl (Option.some.inj heq)
      unfold Parser.varDeclaration
      refine ((reads_expect.mpr ⟨rfl, hname⟩).bind_apply _).trans ?_
      refine ((reads_accept_of_ne hequal).bind_apply _).trans ?_
      exact bind_apply_none (expectSymbol_apply_of_ne hother _ rest)
  | @initialized name equals last e us hname hequals he hend =>
      rw [← List.cons_append, ← List.cons_append, List.dropLast_concat]
      refine (LacksSemicolon.expression hout hother he .afterVariableDeclaration
        fun value => .var name (some value)).behind [name, equals] fun rest => ?_
      unfold Parser.varDeclaration
      refine ((reads_expect.mpr ⟨rfl, hname⟩).bind_apply _).trans ?_
      exact (reads_accept_of_kind hequals rest).bind_apply _

/-- **Outside of functions, whatever ends with a semicolon is given up in front of the token that
stands where it is missing.** -/
theorem missesSemicolon_of_written {c : Clause} (h : c.Written ts) : MissesSemicolon token c ts := by
  induction h with
  | @expression f e last es he hend =>
      intro _ _
      rw [List.dropLast_concat]
      refine (LacksSemicolon.expression hout hother he .afterExpression .expression).congr
        fun rest => ?_
      obtain ⟨first, more, rfl, hkind⟩ := he.starts
      rw [List.cons_append, statement_cons]
      split <;> rename_i heq <;> first | rfl | (rw [heq] at hkind; exact nomatch hkind)
  | @print f e keyword last es hkeyword he hend =>
      intro _ _
      rw [← List.cons_append, List.dropLast_concat]
      refine (LacksSemicolon.expression hout hother he .afterValue .print).behind [keyword]
        fun rest => ?_
      rw [List.singleton_append, statement_cons]
      simp only [hkeyword]
      rfl
  -- A `return` does not stand outside of functions.
  | return_ => exact nofun
  | @loop f isOpen condition body keyword opening closing cs us hkeyword hopening hcondition hclosing
      hbody ih =>
      intro hf hends
      exact LacksSemicolon.nested us (keyword :: opening :: (cs ++ [closing])) (fun rest => by simp)
        hends (Clause.StartsDeclaration.ne_nil hbody.starts) (ih hf)
        (statement_loop hkeyword hopening hcondition hclosing)
  | @forLoop f isOpen initializer condition increment body keyword opening semicolon closing is cs ns
      us hkeyword hopening hinitializer hcondition hsemicolon hincrement hclosing hbody ih =>
      intro hf hends
      exact LacksSemicolon.nested us
        (keyword :: opening :: (is ++ (cs ++ semicolon :: (ns ++ [closing])))) (fun rest => by simp)
        hends (Clause.StartsDeclaration.ne_nil hbody.starts) (ih hf)
        (statement_forLoop hkeyword hopening hinitializer hcondition hsemicolon hincrement hclosing)
  | @conditional f isOpen condition thenBranch keyword opening closing cs us hkeyword hopening
      hcondition hclosing hthen ih =>
      intro hf hends
      exact LacksSemicolon.nested us (keyword :: opening :: (cs ++ [closing])) (fun rest => by simp)
        hends (Clause.StartsDeclaration.ne_nil hthen.starts) (ih hf)
        (statement_conditional hkeyword hopening hcondition hclosing)
  | @choice f isOpen condition thenBranch elseBranch keyword opening closing divider cs us vs hkeyword
      hopening hcondition hclosing hthen hdivider helse ihthen ihelse =>
      intro hf hends
      have hsame : ∀ rest,
          statement f (keyword :: opening :: (cs ++ closing :: (us ++ divider :: rest))) =
            (statement f >>= fun elseBranch =>
              Pure.pure (.conditional condition thenBranch (some elseBranch))) rest := by
        intro rest
        rw [statement_conditional hkeyword hopening hcondition hclosing]
        refine ((readsClause_of_written hthen _ nofun).bind_apply _).trans ?_
        exact (reads_accept_of_kind hdivider rest).bind_apply _
      exact LacksSemicolon.nested vs (keyword :: opening :: (cs ++ closing :: (us ++ [divider])))
        (fun rest => by simp) hends (Clause.StartsDeclaration.ne_nil helse.starts) (ihelse hf) hsame
  | @block f body opening closing bs hopening hbody hclosing ih =>
      intro _ hends
      rw [← List.cons_append, endsWithSemicolon_concat, hclosing] at hends
      exact nomatch hends
  | @function f name params body keyword opening closing left right ps bs hkeyword hname hopening
      hparams hcount hclosing hleft hbody hright ih =>
      intro _ hends
      have htokens : keyword :: name :: opening :: (ps ++ closing :: left :: (bs ++ [right])) =
          keyword :: name :: opening :: (ps ++ closing :: left :: bs) ++ [right] := by simp
      rw [htokens, endsWithSemicolon_concat, hright] at hends
      exact nomatch hends
  | @var f s keyword us hkeyword hs =>
      intro _ _
      have hsame : ∀ rest, declarationBody (statement f) (declaration true) ([keyword] ++ rest) =
          Parser.varDeclaration rest := by
        intro rest
        rw [List.singleton_append, declarationBody_cons]
        simp only [hkeyword]
      rw [List.dropLast_cons_of_ne_nil hs.ne_nil]
      exact (LacksSemicolon.varDeclaration hout hother hs).behind [keyword] hsame
  | @statement f isOpen s us hs ih =>
      intro hf hends
      refine (ih hf hends).congr fun rest => ?_
      have hstarts : Clause.StartsDeclaration us := hs.starts
      obtain ⟨first, more, rfl, hfun, hvar⟩ := hs.startsStatement
      rw [List.dropLast_cons_of_ne_nil (hends.ne_nil_of_starts hstarts), List.cons_append,
        declarationBody_cons]
      split <;> rename_i hkind
      · exact absurd hkind hfun
      · exact absurd hkind hvar
      · rfl
  | nil | cons => trivial

end

/-! ### Skipping the keyword

The parser gives up in front of the keyword, and synchronizing takes the keyword before
it looks for one.  What that leads to depends on the keyword and on what is behind it.
In no case are the same statements parsed from what is left, as there is a keyword less
to write them with.
-/

/-- At least one token is skipped, and no end mark. -/
theorem spares_synchronized : ∀ (token : Token) (rest : List Token), token.isEnd = false →
    Spares rest (synchronized (token :: rest))
  | token, rest, hend => by
      rw [synchronized, if_neg (by rw [hend]; exact Bool.false_ne_true)]
      split
      · exact .refl rest
      split
      · exact .refl rest
      cases rest with
      | nil => exact .refl []
      | cons next more =>
          cases hnext : next.isEnd with
          | true =>
              rw [synchronized, if_pos hnext]
              exact .refl (next :: more)
          | false => exact (Spares.cons hnext more).trans (spares_synchronized next more hnext)

/-- What can stand in an expression can stand in a simple statement, anywhere. -/
theorem inSimple_of_inExpression {kind : Token.Kind} (h : inExpression kind = true) :
    inSimple kind = true ∧ kind ∉ opensSimple := by
  constructor
  · unfold inSimple
    split <;> first | rfl | exact nomatch h
  · intro hmem
    simp only [opensSimple, List.mem_cons, List.not_mem_nil, or_false] at hmem
    rcases hmem with rfl | rfl | rfl <;> exact nomatch h

/-- A keyword with nothing but an expression behind it is skipped with its semicolon. -/
theorem synchronized_keyword {semicolon : Token} (hkeyword : inSimple token.kind = true)
    (hts : ∀ token ∈ ts, inExpression token.kind = true)
    (hsemicolon : semicolon.kind = .symbol .semicolon) (rest : List Token) :
    synchronized (token :: (ts ++ semicolon :: rest)) = rest :=
  synchronized_semicolon hsemicolon rest (token :: ts)
    (List.forall_mem_cons.mpr ⟨hkeyword, fun t hmem => (inSimple_of_inExpression (hts t hmem)).1⟩)
    fun t hmem => (inSimple_of_inExpression (hts t hmem)).2

/-- Where a declaration of a variable or what prints a value is given up at its keyword, it is
skipped, and nothing else is. -/
theorem synchronized_of_reads {s : Stmt} {mid : List Token}
    (hkind : token.kind = .keyword .print_ ∨ token.kind = .keyword .var_)
    (h : (declaration false).Reads (token :: rest) (some s) mid) :
    synchronized (token :: rest) = mid := by
  have hkeyword : inSimple token.kind = true := by
    rcases hkind with hkind | hkind <;> rw [hkind] <;> rfl
  obtain ⟨s', -, hbody⟩ := reads_declaration.mp h
  rw [reads_declarationBody_cons] at hbody
  rcases hkind with hkind | hkind
  · simp only [hkind] at hbody
    rw [reads_statement_cons, reads_statementOf_cons] at hbody
    simp only [hkind] at hbody
    obtain ⟨e, ts, semicolon, -, rfl, he, hsemicolon⟩ := reads_printStatement.mp hbody
    exact synchronized_keyword hkeyword he.inExpression hsemicolon mid
  · simp only [hkind] at hbody
    obtain ⟨ts, rfl, hvar⟩ := reads_varDeclaration.mp hbody
    cases hvar with
    | @bare name semicolon hname hend =>
        have hin : ∀ token ∈ [name], inExpression token.kind = true :=
          List.forall_mem_singleton.mpr (by rw [hname]; rfl)
        exact synchronized_keyword hkeyword hin hend mid
    | @initialized name equals semicolon e es hname hequals he hend =>
        have hin : ∀ token ∈ name :: equals :: es, inExpression token.kind = true :=
          List.forall_mem_cons.mpr ⟨by rw [hname]; rfl,
            List.forall_mem_cons.mpr ⟨by rw [hequals]; rfl, he.inExpression⟩⟩
        have h := synchronized_keyword hkeyword hin hend mid
        rwa [List.cons_append, List.cons_append, List.append_cons, ← List.cons_append,
          ← List.cons_append] at h

/-- The first declaration is read alone, and the others behind it. -/
theorem reads_of_parse_cons {s : Stmt} {ss : List Stmt} (hend : token.isEnd = false)
    (h : parse (token :: rest) = ⟨s :: ss, []⟩) :
    ∃ mid, (declaration false).Reads (token :: rest) (some s) mid ∧ parse mid = ⟨ss, []⟩ := by
  rcases declaration_cases false (token :: rest) with
    ⟨first, mid, hread⟩ | ⟨faults, mid, hfaults, hdropped⟩
  · have hparse := (parse_of_declaration hend hread).symm.trans h
    generalize hmid : parse mid = parsed at hparse
    obtain ⟨statements, more⟩ := parsed
    obtain ⟨⟨rfl, rfl⟩, rfl⟩ : (first = s ∧ statements = ss) ∧ more = [] := by
      simpa using hparse
    exact ⟨mid, hread, hmid⟩
  · have hparse := (parse_of_declaration hend hdropped).symm.trans h
    have hnone : faults ++ (parse mid).faults = [] := congrArg Parsed.faults hparse
    exact absurd (List.append_eq_nil_iff.mp hnone).1 hfaults

/-- **What starts with such a keyword is not parsed to the same when the keyword is skipped**, with
whatever tokens behind it. -/
theorem parse_ne_of_spares {left : List Token} {ss : List Stmt}
    (hopens : token.opensStatement = true) (hleft : Spares rest left)
    (h : parse (token :: rest) = ⟨ss, []⟩) : parse left ≠ ⟨ss, []⟩ := by
  intro hsame
  -- Both are written with as many keywords as the statements have, but one has the token more.
  have hcount := (written_of_parse h).1.openings.trans (written_of_parse hsame).1.openings.symm
  obtain ⟨skipped, rfl, hskipped⟩ := hleft
  have hbefore : ∀ t ∈ token :: skipped, (!t.isEnd) = true :=
    List.forall_mem_cons.mpr ⟨by rw [Token.isEnd_of_opensStatement hopens]; rfl,
      fun t hmem => by rw [hskipped t hmem]; rfl⟩
  rw [← List.cons_append, List.takeWhile_append_of_pos hbefore, Token.openings_append,
    Token.openings_cons, if_pos hopens] at hcount
  omega

/-! ### Programs -/

/-- Tokens behind which it makes a difference what follows hold no end mark. -/
theorem isEnd_eq_false_of_parse_ne {tail tail' : List Token}
    (h : parse (ts ++ tail) ≠ parse (ts ++ tail')) : ∀ token ∈ ts, token.isEnd = false := by
  intro token hmem
  by_contra hend
  obtain ⟨front, back, rfl⟩ := List.append_of_mem hmem
  refine h ?_
  rw [List.append_assoc, List.append_assoc]
  exact parse_append_tail front _ _ (Bool.of_not_eq_false hend) rfl

/-- Where more statements come behind, the first of them are written with all of their tokens. -/
theorem written_of_parse_front {ss after : List Stmt} {s : Stmt} {back : List Token}
    (hend : token.isEnd = false)
    (hwhole : parse (ts ++ token :: back) = ⟨ss ++ s :: after, []⟩)
    (hfront : parse (ts ++ [token]) = ⟨ss, []⟩) :
    (Clause.declarations false ss).Written (ts ++ [token]) := by
  have hne : parse (ts ++ token :: back) ≠ parse (ts ++ [token]) := by
    rw [hwhole, hfront]
    simp
  have hts := isEnd_eq_false_of_parse_ne hne
  have hbefore : ∀ t ∈ ts ++ [token], (!t.isEnd) = true :=
    List.forall_mem_append.mpr ⟨fun t hmem => by rw [hts t hmem]; rfl,
      List.forall_mem_singleton.mpr (by rw [hend]; rfl)⟩
  have hwritten := (written_of_parse hfront).1
  rwa [← List.append_nil (ts ++ [token]), List.takeWhile_append_of_pos hbefore, List.takeWhile_nil,
    List.append_nil] at hwritten

/-- A last statement that ends with a semicolon is given up where the semicolon is missing, and
those before it are parsed as ever. -/
theorem parse_lacksSemicolon {ss : List Stmt} {s : Stmt} {semicolon : Token}
    (h : (Clause.declarations false (ss ++ [s])).Written (ts ++ [semicolon]))
    (hsemicolon : semicolon.kind = .symbol .semicolon) (hopens : token.opensStatement = true) :
    ∃ place, ∀ rest, parse (ts ++ token :: rest) =
      ⟨ss ++ (parse (synchronized (token :: rest))).statements,
        ⟨token, .missing .semicolon place⟩ :: (parse (synchronized (token :: rest))).faults⟩ := by
  obtain ⟨front, us, htokens, hfront, hlast⟩ := h.append_inv
  cases hlast with
  | @cons _ _ _ vs _ hs hnil =>
      cases hnil
      rw [List.append_nil] at htokens
      have hstarts : Clause.StartsDeclaration vs := hs.starts
      have hconcat : EndsWithSemicolon (front ++ vs) := by
        rw [← htokens, endsWithSemicolon_concat, hsemicolon]
      have hends : EndsWithSemicolon vs := hconcat.of_append hstarts.ne_nil
      have hts : ts = front ++ vs.dropLast := by
        rw [← List.dropLast_append_of_ne_nil hstarts.ne_nil, ← htokens, List.dropLast_concat]
      obtain ⟨place, hlacks⟩ :=
        missesSemicolon_of_written (Token.inExpression_of_opensStatement hopens)
          (Token.ne_semicolon_of_opensStatement hopens) hs rfl hends
      refine ⟨place, fun rest => ?_⟩
      have hdropped : declaration false (vs.dropLast ++ token :: rest) =
          ⟨some none, [⟨token, .missing .semicolon place⟩], synchronized (token :: rest)⟩ := by
        rw [declaration_apply, recovering, hlacks]
      have hend := hs.isEnd_eq_false
      obtain ⟨first, more, rfl, -⟩ := id hstarts
      have helse : nextKind? (first :: more.dropLast ++ token :: rest) ≠ some (.keyword .else_) :=
        hstarts.nextKind?_ne rfl
      rw [List.dropLast_cons_of_ne_nil (hends.ne_nil_of_starts hstarts)] at hts hdropped
      rw [hts, List.append_assoc, parse_append_of_written hfront helse]
      rw [List.cons_append] at hdropped ⊢
      rw [parse_of_declaration (hend first List.mem_cons_self) hdropped]
      rfl

end Parser

open Lox.Parser

/-- **A semicolon that is missing in front of a keyword costs two statements or more.**  Where a
top-level statement ends with a semicolon and the next declaration starts with a keyword, and the
semicolon is left out, there is a fault at the keyword, and the statement is lost.  But the keyword
is skipped too, and what is left behind it is parsed by itself.  So the other statements never come
with that one fault: the next declaration is always lost or followed by faults of its own.  If it
declares a variable or prints, it is lost, and nothing else is. -/
theorem parse_missingSemicolon {front back : List Token} {semicolon keyword : Token}
    {ss after : List Stmt} {s next : Stmt}
    (hwhole : parse (front ++ semicolon :: keyword :: back) = ⟨ss ++ s :: next :: after, []⟩)
    (hfront : parse (front ++ [semicolon]) = ⟨ss ++ [s], []⟩)
    (hsemicolon : semicolon.kind = .symbol .semicolon) (hkeyword : keyword.opensStatement = true) :
    synchronized (keyword :: back) <:+ back ∧
      ∃ place,
        parse (front ++ keyword :: back) =
          ⟨ss ++ (parse (synchronized (keyword :: back))).statements,
            ⟨keyword, .missing .semicolon place⟩ ::
              (parse (synchronized (keyword :: back))).faults⟩ ∧
        (∀ fault, parse (front ++ keyword :: back) ≠ ⟨ss ++ next :: after, [fault]⟩) ∧
        (keyword.kind = .keyword .print_ ∨ keyword.kind = .keyword .var_ →
          parse (front ++ keyword :: back) =
            ⟨ss ++ after, [⟨keyword, .missing .semicolon place⟩]⟩) := by
  have hwritten : (Clause.declarations false (ss ++ [s])).Written (front ++ [semicolon]) := by
    rw [List.append_cons ss s] at hwhole
    exact written_of_parse_front (by rw [Token.isEnd, hsemicolon]; rfl) hwhole hfront
  have hbehind : parse (keyword :: back) = ⟨next :: after, []⟩ := by
    have helse : nextKind? (keyword :: back) ≠ some (.keyword .else_) := by
      intro heq
      rw [Token.opensStatement, Option.some.inj heq] at hkeyword
      exact Bool.noConfusion hkeyword
    rw [List.append_cons front, List.append_cons ss] at hwhole
    exact parse_of_parse_append hwritten helse hwhole
  obtain ⟨place, hparse⟩ := parse_lacksSemicolon hwritten hsemicolon hkeyword
  have hend := Token.isEnd_of_opensStatement hkeyword
  have hspares := spares_synchronized keyword back hend
  refine ⟨hspares.suffix, place, hparse back, ?_, ?_⟩
  · intro fault hsame
    rw [hparse back, Parsed.mk.injEq, List.append_cancel_left_eq, List.cons.injEq] at hsame
    refine parse_ne_of_spares hkeyword hspares hbehind ?_
    generalize parse (synchronized (keyword :: back)) = parsed at hsame
    obtain ⟨statements, faults⟩ := parsed
    obtain ⟨rfl, -, rfl⟩ := hsame
    rfl
  · intro hkind
    obtain ⟨mid, hread, hmid⟩ := reads_of_parse_cons hend hbehind
    rw [hparse back, synchronized_of_reads hkind hread, hmid]

/-- `print` -/
def printKeyword : Token := ⟨.keyword .print_, "print", 1⟩

/-- `print true` -/
def printTrue : List Token := [printKeyword, ⟨.keyword .true_, "true", 1⟩]

/-- `false; print nil;` -/
def falseThenPrintNil : List Token :=
  ⟨.keyword .false_, "false", 1⟩ :: ⟨.symbol .semicolon, ";", 1⟩ :: printNil

/-- Of `print true print false; print nil;` only the last statement is left. -/
theorem parse_missingSemicolon_print : ∃ place,
    parse (printTrue ++ printKeyword :: falseThenPrintNil) =
      ⟨[.print (.literal .nil)], [⟨printKeyword, .missing .semicolon place⟩]⟩ := by
  have hwhole : parse (printTrue ++ ⟨.symbol .semicolon, ";", 1⟩ :: printKeyword ::
      falseThenPrintNil) = ⟨[] ++ .print (.literal (.bool true)) ::
        .print (.literal (.bool false)) :: [.print (.literal .nil)], []⟩ := rfl
  have hfront : parse (printTrue ++ [⟨.symbol .semicolon, ";", 1⟩]) =
      ⟨[] ++ [.print (.literal (.bool true))], []⟩ := rfl
  obtain ⟨-, place, -, -, hprint⟩ := parse_missingSemicolon hwhole hfront rfl rfl
  exact ⟨place, hprint (.inl rfl)⟩

/-- It is not true that a missing semicolon costs one statement. -/
theorem missingSemicolon_costs_more :
    ¬ ∀ (front back : List Token) (semicolon keyword : Token) (ss after : List Stmt)
        (s next : Stmt),
      parse (front ++ semicolon :: keyword :: back) = ⟨ss ++ s :: next :: after, []⟩ →
      parse (front ++ [semicolon]) = ⟨ss ++ [s], []⟩ →
      semicolon.kind = .symbol .semicolon → keyword.opensStatement = true →
        ∃ cause, parse (front ++ keyword :: back) = ⟨ss ++ next :: after, [⟨keyword, cause⟩]⟩ := by
  intro h
  obtain ⟨cause, hone⟩ := h printTrue falseThenPrintNil ⟨.symbol .semicolon, ";", 1⟩ printKeyword []
    [.print (.literal .nil)] (.print (.literal (.bool true))) (.print (.literal (.bool false)))
    rfl rfl rfl rfl
  have hlost : parse (printTrue ++ printKeyword :: falseThenPrintNil) =
      ⟨[.print (.literal .nil)], [⟨printKeyword, .missing .semicolon .afterValue⟩]⟩ := rfl
  rw [hlost] at hone
  exact nomatch congrArg (·.statements.length) hone

end Lox
