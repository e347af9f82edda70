/-
Parsing counterparts.

Two lists of tokens that are counterparts one by one, up to where they come to an
end, are parsed alike: the trees match, the faults have the same causes and lie at
counterparts, and what is left is counterparts again.  The parser never asks for the
line of a token, so this is proved production by production, along the way in which
they are put together.

It also says that no parser takes the end mark or sees behind it: whatever comes
there, as long as both lists come to an end, is left as it was.  The bounds of loops
count those tokens too, but they are never felt.
-/
import Lox.Proofs.Grammar.Progress
import Lox.Proofs.Grammar.Unparsing
import Lox.Proofs.Pairing.Trees

namespace Lox

open Lox.Parser (missingEnd)

variable {R : Token.Pairing} {α β γ δ : Type}

/-- How two lists of tokens come to an end: with end marks that are counterparts and anything
behind those, where a mark may also be missing. -/
structure Endings (R : Token.Pairing) where
  /-- What is left in the first list where it ends: its end mark, and anything behind. -/
  tail : List Token
  /-- The same of the second list. -/
  tail' : List Token
  /-- The first token of it is an end mark, or takes the place of one. -/
  isEnd : (tail.headD missingEnd).isEnd = true
  /-- The end marks are counterparts. -/
  pairs : R.Pairs (tail.headD missingEnd) (tail'.headD missingEnd)

/-- The replies to tokens before an end. -/
structure Reply.Matches (E : Endings R) (A : α → β → Prop) (ts : List Token) (reply : Reply α)
    (reply' : Reply β) : Prop where
  /-- There are results on both sides, which are related, or none. -/
  result : Option.Rel A reply.result reply'.result
  /-- As many faults with the same causes, at counterparts. -/
  faults : List.Forall₂ (SyntaxFault.Matches R) reply.faults reply'.faults
  /-- What is left ends alike.  In front of the end it is the back of what there was. -/
  rest : ∃ left left', left <:+ ts ∧ List.Forall₂ R.Pairs left left' ∧
    reply.rest = left ++ E.tail ∧ reply'.rest = left' ++ E.tail'

variable {E : Endings R} {A : α → β → Prop} {B : γ → δ → Prop} {ts ts' : List Token}

theorem Reply.Matches.widen {reply : Reply α} {reply' : Reply β} {us : List Token}
    (h : reply.Matches E A ts reply') (hsuffix : ts <:+ us) : reply.Matches E A us reply' := by
  obtain ⟨hresult, hfaults, left, left', hleft, hrest⟩ := h
  exact ⟨hresult, hfaults, left, left', hleft.trans hsuffix, hrest⟩

/-- The next tokens are counterparts, also where the lists end. -/
theorem Endings.pairs_headD (h : List.Forall₂ R.Pairs ts ts') :
    R.Pairs ((ts ++ E.tail).headD missingEnd) ((ts' ++ E.tail').headD missingEnd) := by
  cases h with
  | nil => exact E.pairs
  | cons h _ => exact h

theorem Endings.isEnd' (E : Endings R) : (E.tail'.headD missingEnd).isEnd = true := by
  rw [← Token.Pairing.isEnd_eq E.pairs]
  exact E.isEnd

namespace Parser

/-- Two parsers reply alike to counterparts. -/
def Matches (E : Endings R) (A : α → β → Prop) (p : Parser α) (q : Parser β) : Prop :=
  ∀ ts ts', List.Forall₂ R.Pairs ts ts' →
    (p (ts ++ E.tail)).Matches E A ts (q (ts' ++ E.tail'))

/-- The parser replies alike to counterparts. -/
abbrev Respects (E : Endings R) (A : α → α → Prop) (p : Parser α) : Prop := Matches E A p p

/-- Two parsers reply alike behind this token, which they may skip unless it is the end. -/
inductive MatchesAt (E : Endings R) (A : α → β → Prop) (token : Token) :
    Parser α → Parser β → Prop where
  | skip {p : Parser α} {q : Parser β} (hend : token.isEnd = false) (h : Matches E A p q) :
      MatchesAt E A token (Parser.skip >>= fun _ => p) (Parser.skip >>= fun _ => q)
  | stay {p : Parser α} {q : Parser β} (h : Matches E A p q) : MatchesAt E A token p q

theorem MatchesAt.apply {p : Parser α} {q : Parser β}
    (h : MatchesAt E A ((ts ++ E.tail).headD missingEnd) p q) (hts : List.Forall₂ R.Pairs ts ts') :
    (p (ts ++ E.tail)).Matches E A ts (q (ts' ++ E.tail')) := by
  cases h with
  | stay h => exact h ts ts' hts
  | skip hend h =>
      cases hts with
      | nil =>
          rw [List.nil_append, E.isEnd] at hend
          exact Bool.noConfusion hend
      | cons _ hmore => exact (h _ _ hmore).widen (List.suffix_cons _ _)

/-- Tokens that were taken because of their kind. -/
structure Taken (R : Token.Pairing) (kinds : List Token.Kind) (t t' : Token) : Prop where
  /-- The tokens are counterparts. -/
  pairs : R.Pairs t t'
  /-- The first has one of the kinds asked for, and so has the second. -/
  kind_mem : t.kind ∈ kinds

namespace Matches

/-! ### Elementary parsers -/

theorem pure {a : α} {b : β} (h : A a b) : Matches E A (Pure.pure a) (Pure.pure b) :=
  fun ts ts' hts => ⟨.some h, .nil, ts, ts', List.suffix_refl _, hts, rfl, rfl⟩

theorem reportAt {token token' : Token} (h : R.Pairs token token') (cause : SyntaxCause) :
    Matches E (fun _ _ => True) (reportAt token cause) (reportAt token' cause) :=
  fun ts ts' hts =>
    ⟨.some trivial, .cons ⟨h, rfl⟩ .nil, ts, ts', List.suffix_refl _, hts, rfl, rfl⟩

theorem failAt {token token' : Token} (h : R.Pairs token token') (cause : SyntaxCause) :
    Matches E A (failAt token cause) (failAt token' cause) :=
  fun ts ts' hts => ⟨.none, .cons ⟨h, rfl⟩ .nil, ts, ts', List.suffix_refl _, hts, rfl, rfl⟩

theorem check {kind : Token.Kind} (hkind : kind ≠ .endOfFile) : Respects E Eq (check kind) := by
  have hend : ∀ {tail : List Token}, (tail.headD missingEnd).isEnd = true →
      tail.head?.any (·.kind = kind) = false := by
    intro tail hend
    cases tail with
    | nil => rfl
    | cons mark _ =>
        rw [List.headD_cons, Token.isEnd, decide_eq_true_eq] at hend
        simp [hend, hkind.symm]
  intro ts ts' hts
  refine ⟨.some ?_, .nil, ts, ts', List.suffix_refl _, hts, rfl, rfl⟩
  cases hts with
  | nil => simp only [List.nil_append, hend E.isEnd, hend E.isEnd']
  | cons h _ => simp only [List.cons_append, List.head?_cons, Option.any_some, R.kind_eq h]

private theorem acceptAny {kinds : List Token.Kind} (hkinds : .endOfFile ∉ kinds) :
    Respects E (Option.Rel (Taken R kinds)) (acceptAny kinds) := by
  have hend : ∀ {tail : List Token}, (tail.headD missingEnd).isEnd = true →
      Parser.acceptAny kinds tail = ⟨some none, [], tail⟩ := by
    intro tail hend
    cases tail with
    | nil => rfl
    | cons mark _ =>
        rw [List.headD_cons, Token.isEnd, decide_eq_true_eq] at hend
        rw [Parser.acceptAny, if_neg (by rwa [hend])]
  intro ts ts' hts
  cases hts with
  | nil =>
      rw [List.nil_append, List.nil_append, hend E.isEnd, hend E.isEnd']
      exact ⟨.some .none, .nil, [], [], List.suffix_refl _, .nil, rfl, rfl⟩
  | @cons t t' ts ts' h hmore =>
      rw [List.cons_append, List.cons_append, Parser.acceptAny, Parser.acceptAny, ← R.kind_eq h]
      by_cases hkind : t.kind ∈ kinds
      · rw [if_pos hkind, if_pos hkind]
        exact ⟨.some (.some ⟨h, hkind⟩), .nil, ts, ts', List.suffix_cons _ _, hmore, rfl, rfl⟩
      · rw [if_neg hkind, if_neg hkind]
        exact ⟨.some .none, .nil, t :: ts, t' :: ts', List.suffix_refl _, .cons h hmore, rfl, rfl⟩

/-! ### Putting parsers together

Behind an end mark the lists need not have anything in common.  So a token may be
skipped only if it is known to be no end mark, and a bound, which counts the tokens
behind the end as well, must not be felt.
-/

theorem bind {p : Parser α} {q : Parser β} {next : α → Parser γ} {next' : β → Parser δ}
    (h : Matches E A p q) (hnext : ∀ a b, A a b → Matches E B (next a) (next' b)) :
    Matches E B (p >>= next) (q >>= next') := by
  intro ts ts' hts
  obtain ⟨hresult, hfaults, left, left', hsuffix, hleft, hrest, hrest'⟩ := h ts ts' hts
  rw [bind_apply, bind_apply, andThen, andThen]
  generalize p (ts ++ E.tail) = reply at hresult hfaults hrest ⊢
  generalize q (ts' ++ E.tail') = reply' at hresult hfaults hrest' ⊢
  obtain ⟨result, faults, rest⟩ := reply
  obtain ⟨result', faults', rest'⟩ := reply'
  simp only at hresult hfaults hrest hrest' ⊢
  subst hrest hrest'
  cases hresult with
  | none => exact ⟨.none, hfaults, left, left', hsuffix, hleft, rfl, rfl⟩
  | some hab =>
      obtain ⟨hresult, hmore, last, last', hlast, htokens⟩ := hnext _ _ hab left left' hleft
      exact ⟨hresult, List.rel_append hfaults hmore, last, last', hlast.trans hsuffix, htokens⟩

/-- With more tokens behind the end the bound is longer, but that is never felt. -/
theorem bounded {loop : (bound : List Token) → Parser α} {loop' : (bound : List Token) → Parser β}
    (h : ∀ bound, Matches E A (loop bound) (loop' bound)) (hfree : BoundFree loop)
    (hfree' : BoundFree loop') : Matches E A (bounded loop) (bounded loop') := by
  intro ts ts' hts
  -- A bound long enough for both.
  have hboth := h ((ts ++ E.tail) ++ (ts' ++ E.tail')) ts ts' hts
  rwa [hfree.agree_bounded _ (ts ++ E.tail) (by simp only [List.length_append]; omega),
    hfree'.agree_bounded _ (ts' ++ E.tail') (by simp only [List.length_append]; omega)] at hboth

theorem look {f : Token → Parser α} {g : Token → Parser β}
    (h : ∀ t t', R.Pairs t t' → MatchesAt E A t (f t) (g t')) :
    Matches E A (peek >>= f) (peek >>= g) :=
  fun _ _ hts => (h _ _ (E.pairs_headD hts)).apply hts

theorem fail (cause : SyntaxCause) : Matches E A (fail cause) (fail cause) :=
  look fun _ _ h => .stay (failAt h cause)

/-- What is done depends on whether a token of this kind could be taken. -/
theorem acceptBind {kinds : List Token.Kind} {f : Option Token → Parser α}
    {g : Option Token → Parser β} (hkinds : .endOfFile ∉ kinds)
    (hnone : Matches E A (f none) (g none))
    (hsome : ∀ t t', Taken R kinds t t' → Matches E A (f (some t)) (g (some t'))) :
    Matches E A (Parser.acceptAny kinds >>= f) (Parser.acceptAny kinds >>= g) :=
  (acceptAny hkinds).bind fun _ _ h => by
    cases h with
    | none => exact hnone
    | some h => exact hsome _ _ h

theorem expect {kind : Token.Kind} (hkind : kind ≠ .endOfFile) (cause : SyntaxCause) :
    Respects E R.Pairs (expect kind cause) :=
  acceptBind (by rw [List.mem_singleton]; exact hkind.symm) (fail cause) fun _ _ h => pure h.pairs

theorem expectSymbol (symbol : Symbol) (place : Place) :
    Respects E R.Pairs (expectSymbol symbol place) :=
  expect Token.Kind.noConfusion _

/-! ### Lists with commas -/

private theorem limit (count : Nat) (tooMany : SyntaxCause) :
    Respects E (fun _ _ => True) (limit count tooMany) := by
  unfold Parser.limit
  split
  · exact look fun _ _ h => .stay (reportAt h tooMany)
  · exact pure trivial

section Elements

variable {C : α → α → Prop} {element : Parser α}

private theorem moreElements (h : Respects E C element) (tooMany : SyntaxCause) :
    ∀ bound count,
      Respects E (List.Forall₂ C) (moreElements element tooMany bound count)
  | [], _ => pure .nil
  | _ :: bound, count =>
      acceptBind (by simp) (pure .nil) fun _ _ _ =>
        (limit _ _).bind fun _ _ _ => h.bind fun _ _ hfirst =>
          (moreElements h tooMany bound (count + 1)).bind fun _ _ hmore =>
            pure (.cons hfirst hmore)

theorem elements (hc : Composed element) (h : Respects E C element) (tooMany : SyntaxCause) :
    Respects E (List.Forall₂ C) (elements element tooMany) :=
  (check Token.Kind.noConfusion).bind fun found _ hfound => by
    subst hfound
    cases found with
    | true => exact pure .nil
    | false =>
        have hfree := moreElements_boundFree hc tooMany 1
        exact h.bind fun _ _ hfirst =>
          (bounded (fun bound => moreElements h tooMany bound 1) hfree hfree).bind
            fun _ _ hmore => pure (.cons hfirst hmore)

end Elements

/-! ### Expressions -/

private theorem atom?_matches {t t' : Token} (h : R.Pairs t t') :
    Option.Rel (Expr.Matches R) (atom? t) (atom? t') := by
  unfold atom?
  rw [← R.kind_eq h]
  split
  · exact .some (.literal _)
  · exact .some (.literal _)
  · exact .some (.literal _)
  · exact .some (.literal _)
  · exact .some (.literal _)
  · exact .some (.var h)
  · exact .none

variable {nested operand : Parser Expr}

private theorem grouped (h : Respects E (Expr.Matches R) nested) :
    Respects E (Expr.Matches R) (grouped nested) :=
  acceptBind (by simp) (fail _) fun _ _ _ =>
    h.bind fun _ _ hinner => (expectSymbol _ _).bind fun _ _ _ => pure (.grouping hinner)

private theorem primary (h : Respects E (Expr.Matches R) nested) :
    Respects E (Expr.Matches R) (primary nested) := by
  refine look fun t t' ht => ?_
  have hatom := atom?_matches ht
  have hend : ∀ e, atom? t = some e → t.isEnd = false := fun _ => Composed.isEnd_of_atom?
  generalize atom? t = e at hatom hend ⊢
  generalize atom? t' = e' at hatom ⊢
  cases hatom with
  | none => exact .stay (grouped h)
  | some hatom => exact .skip (hend _ rfl) (pure hatom)

private theorem calls (hc : Composed nested) (h : Respects E (Expr.Matches R) nested) :
    ∀ bound callee callee', callee.Matches R callee' →
      Matches E (Expr.Matches R) (calls nested bound callee) (calls nested bound callee')
  | [], _, _, hcallee => pure hcallee
  | _ :: bound, _, _, hcallee =>
      acceptBind (by simp) (pure hcallee) fun _ _ _ =>
        (elements hc h _).bind fun _ _ harguments => (expectSymbol _ _).bind fun _ _ hparen =>
          calls hc h bound _ _ (.call hcallee hparen harguments)

private theorem call (hc : Composed nested) (h : Respects E (Expr.Matches R) nested) :
    Respects E (Expr.Matches R) (call nested) :=
  (primary h).bind fun callee callee' hcallee =>
    bounded (fun bound => calls hc h bound callee callee' hcallee) (calls_boundFree hc callee)
      (calls_boundFree hc callee')

private theorem unaryWithin (hc : Composed nested) (h : Respects E (Expr.Matches R) nested) :
    ∀ bound, Respects E (Expr.Matches R) (unaryWithin nested bound)
  | [] => call hc h
  | _ :: bound =>
      acceptBind (by simp [unaryOperators]) (call hc h) fun _ _ hop =>
        (unaryWithin hc h bound).bind fun _ _ hright => by
          have hkind := hop.kind_mem
          rw [unaryOperators, List.mem_pair] at hkind
          exact pure (.unary hop.pairs hkind hright)

private theorem unary (hc : Composed nested) (h : Respects E (Expr.Matches R) nested) :
    Respects E (Expr.Matches R) (unary nested) :=
  bounded (unaryWithin hc h) (unaryWithin_boundFree hc) (unaryWithin_boundFree hc)

/-- Operands and operators that match make operations that match. -/
theorem node {level : Level} {tighter : List Level} {left left' right right' : Expr}
    {op op' : Token} (hlevel : level :: tighter <:+ levels) (hleft : left.Matches R left')
    (hop : Taken R level.operators op op') (hright : right.Matches R right') :
    (level.node left op right).Matches R (level.node left' op' right') := by
  rcases strength_of_mem hlevel hop.kind_mem with ⟨hnode, hkind⟩ | ⟨hnode, hkind⟩ <;> rw [hnode]
  · exact .logical hleft hop.pairs (by rw [hkind]; rfl) hright
  · exact .binary hleft hop.pairs (by rw [hkind]; rfl) hright

private theorem chain {level : Level} {tighter : List Level} (hlevel : level :: tighter <:+ levels)
    (h : Respects E (Expr.Matches R) operand) :
    ∀ bound left left', left.Matches R left' →
      Matches E (Expr.Matches R) (chain level operand bound left) (chain level operand bound left')
  | [], _, _, hleft => pure hleft
  | _ :: bound, _, _, hleft =>
      acceptBind (Phrase.operators_ne_endOfFile (Phrase.mem_levels hlevel)) (pure hleft) fun _ _ hop =>
        h.bind fun _ _ hright => chain hlevel h bound _ _ (node hlevel hleft hop hright)

private theorem operation (hc : Composed nested) (h : Respects E (Expr.Matches R) nested) :
    ∀ lv : List Level, lv <:+ levels → Respects E (Expr.Matches R) (operation nested lv)
  | [], _ => unary hc h
  | _ :: tighter, hlevels =>
      have hoperand := operation hc h tighter ((List.suffix_cons _ _).trans hlevels)
      have hfree := chain_boundFree (Composed.operation hc tighter)
      hoperand.bind fun left left' hleft =>
        bounded (fun bound => chain hlevels hoperand bound left left' hleft) (hfree left)
          (hfree left')

private theorem assignment (hc : Composed nested) (h : Respects E (Expr.Matches R) nested) :
    Respects E (Expr.Matches R) (assignment nested) := by
  refine (operation hc h levels (List.suffix_refl _)).bind fun target target' htarget =>
    acceptBind (by simp) (pure htarget) fun equals equals' hequals =>
      h.bind fun value value' hvalue => ?_
  have hreport : Matches E (Expr.Matches R)
      (Parser.reportAt equals .invalidTarget >>= fun _ => Pure.pure target)
      (Parser.reportAt equals' .invalidTarget >>= fun _ => Pure.pure target') :=
    (reportAt hequals.pairs _).bind fun _ _ _ => pure htarget
  cases htarget with
  | var hname => exact pure (.assign hname hvalue)
  | _ => exact hreport

private theorem expressionWithin : ∀ bound, Respects E (Expr.Matches R) (expressionWithin bound)
  | [] => fail (α := Expr) .noExpression
  | _ :: bound => assignment (.expressionWithin bound) (expressionWithin bound)

/-- **An expression is parsed alike from counterparts.** -/
theorem expression : Respects E (Expr.Matches R) expression :=
  bounded expressionWithin expressionWithin_boundFree expressionWithin_boundFree

/-! ### Simple statements

From here on each production is gone through once, in the order of the grammar.  A
production puts its trees together only where its parts have results, and then the parts
match.
-/

theorem varDeclaration : Respects E (Stmt.Matches R) varDeclaration :=
  (expect Token.Kind.noConfusion _).bind fun _ _ hname =>
    acceptBind (by simp)
      ((expectSymbol _ _).bind fun _ _ _ => pure (.var hname .none)) fun _ _ _ =>
      expression.bind fun _ _ hvalue =>
        (expectSymbol _ _).bind fun _ _ _ => pure (.var hname (.some hvalue))

theorem expressionStatement : Respects E (Stmt.Matches R) expressionStatement :=
  expression.bind fun _ _ hvalue => (expectSymbol _ _).bind fun _ _ _ => pure (.expression hvalue)

private theorem printStatement : Respects E (Stmt.Matches R) printStatement :=
  expression.bind fun _ _ hvalue => (expectSymbol _ _).bind fun _ _ _ => pure (.print hvalue)

theorem expressionUnless {kind : Token.Kind} (hkind : kind ≠ .endOfFile) :
    Respects E (Option.Rel (Expr.Matches R)) (expressionUnless kind) :=
  (check hkind).bind fun found _ hfound => by
    subst hfound
    cases found with
    | true => exact pure .none
    | false => exact expression.bind fun _ _ hvalue => pure (.some hvalue)

private theorem returnStatement (insideFunction : Bool) {keyword keyword' : Token}
    (h : R.Pairs keyword keyword') :
    Matches E (Stmt.Matches R) (returnStatement insideFunction keyword)
      (returnStatement insideFunction keyword') := by
  cases insideFunction with
  | true =>
      exact (expressionUnless Token.Kind.noConfusion).bind fun _ _ hvalue =>
        (expectSymbol _ _).bind fun _ _ _ => pure (.return_ h hvalue)
  | false => exact failAt h _

/-! ### Loops, branches and functions -/

private theorem forInitializer : Respects E (Option.Rel (Stmt.Matches R)) forInitializer :=
  acceptBind (by simp)
    (acceptBind (by simp)
      (expressionStatement.bind fun _ _ hstatement => pure (.some hstatement)) fun _ _ _ =>
      varDeclaration.bind fun _ _ hdeclaration => pure (.some hdeclaration)) fun _ _ _ => pure .none

section Statements

variable {statement : Parser Stmt} {declaration : Parser (Option Stmt)}

private theorem forStatement (h : Respects E (Stmt.Matches R) statement) :
    Respects E (Stmt.Matches R) (forStatement statement) :=
  (expectSymbol _ _).bind fun _ _ _ => forInitializer.bind fun _ _ hinitializer =>
    (expressionUnless Token.Kind.noConfusion).bind fun _ _ hcondition =>
      (expectSymbol _ _).bind fun _ _ _ =>
        (expressionUnless Token.Kind.noConfusion).bind fun _ _ hincrement =>
          (expectSymbol _ _).bind fun _ _ _ => h.bind fun _ _ hbody =>
            pure (.forLoop hinitializer hcondition hincrement hbody)

private theorem whileStatement (h : Respects E (Stmt.Matches R) statement) :
    Respects E (Stmt.Matches R) (whileStatement statement) :=
  (expectSymbol _ _).bind fun _ _ _ => expression.bind fun _ _ hcondition =>
    (expectSymbol _ _).bind fun _ _ _ => h.bind fun _ _ hbody => pure (.loop hcondition hbody)

private theorem ifStatement (h : Respects E (Stmt.Matches R) statement) :
    Respects E (Stmt.Matches R) (ifStatement statement) :=
  (expectSymbol _ _).bind fun _ _ _ => expression.bind fun _ _ hcondition =>
    (expectSymbol _ _).bind fun _ _ _ => h.bind fun _ _ hthen =>
      acceptBind (by simp) (pure (.conditional hcondition hthen .none)) fun _ _ _ =>
        h.bind fun _ _ helse => pure (.conditional hcondition hthen (.some helse))

/-- Where declarations stop depends on the kind of the token only. -/
def StopsByKind (stop : Token → Bool) : Prop :=
  ∀ t t' : Token, t.kind = t'.kind → stop t = stop t'

theorem declarations {stop : Token → Bool} (hstop : StopsByKind stop)
    (h : Respects E (Option.Rel (Stmt.Matches R)) declaration) :
    ∀ bound, Respects E (List.Forall₂ (Stmt.Matches R)) (declarations stop declaration bound)
  | [] => pure .nil
  | _ :: bound => look fun t t' ht => by
      rw [hstop t t' (R.kind_eq ht)]
      cases stop t' with
      | true => exact .stay (pure .nil)
      | false =>
          refine .stay (h.bind fun first first' hfirst =>
            (declarations hstop h bound).bind fun more more' hmore => pure ?_)
          cases hfirst with
          | none => exact hmore
          | some hfirst => exact .cons hfirst hmore

theorem block (hc : Composed declaration) (hadvance : Advances declaration)
    (h : Respects E (Option.Rel (Stmt.Matches R)) declaration) :
    Respects E (List.Forall₂ (Stmt.Matches R)) (block declaration) := by
  have hstop : StopsByKind endsBlock := fun t t' hkind => by
    rw [endsBlock, endsBlock, Token.isEnd, Token.isEnd, hkind]
  have hfree : BoundFree (Parser.declarations endsBlock declaration) :=
    declarations_boundFree (fun token hend => by rw [endsBlock, hend, Bool.or_true]) hc hadvance
  exact (bounded (declarations hstop h) hfree hfree).bind fun _ _ hbody =>
    (expectSymbol _ _).bind fun _ _ _ => pure hbody

private theorem functionDeclaration (hc : Composed declaration) (hadvance : Advances declaration)
    (h : Respects E (Option.Rel (Stmt.Matches R)) declaration) :
    Respects E (Stmt.Matches R) (functionDeclaration declaration) :=
  (expect Token.Kind.noConfusion _).bind fun _ _ hname => (expectSymbol _ _).bind fun _ _ _ =>
    (elements (.expect _ _) (expect Token.Kind.noConfusion _) _).bind fun _ _ hparams =>
      (expectSymbol _ _).bind fun _ _ _ => (expectSymbol _ _).bind fun _ _ _ =>
        (block hc hadvance h).bind fun _ _ hbody => pure (.function hname hparams hbody)

/-! ### Statements and declarations -/

private theorem statementOf (hs : Respects E (Stmt.Matches R) statement) (hc : Composed declaration)
    (hadvance : Advances declaration) (hd : Respects E (Option.Rel (Stmt.Matches R)) declaration)
    (insideFunction : Bool) :
    Respects E (Stmt.Matches R) (statementOf statement declaration insideFunction) := by
  refine look fun t t' ht => ?_
  have hend : t.kind ≠ .endOfFile → t.isEnd = false := fun hkind => by
    rw [Token.isEnd, decide_eq_false hkind]
  rw [← R.kind_eq ht]
  split
  · exact .skip (hend (by simp [*])) (forStatement hs)
  · exact .skip (hend (by simp [*])) (ifStatement hs)
  · exact .skip (hend (by simp [*])) printStatement
  · exact .skip (hend (by simp [*])) (returnStatement insideFunction ht)
  · exact .skip (hend (by simp [*])) (whileStatement hs)
  · exact .skip (hend (by simp [*]))
      ((block hc hadvance hd).bind fun _ _ hbody => pure (.block hbody))
  · exact .stay expressionStatement

private theorem declarationBody (hs : Respects E (Stmt.Matches R) statement)
    (hc : Composed declaration)
    (hadvance : Advances declaration) (hd : Respects E (Option.Rel (Stmt.Matches R)) declaration) :
    Respects E (Stmt.Matches R) (declarationBody statement declaration) := by
  refine look fun t t' ht => ?_
  have hend : t.kind ≠ .endOfFile → t.isEnd = false := fun hkind => by
    rw [Token.isEnd, decide_eq_false hkind]
  rw [← R.kind_eq ht]
  split
  · exact .skip (hend (by simp [*])) (functionDeclaration hc hadvance hd)
  · exact .skip (hend (by simp [*])) varDeclaration
  · exact .stay hs

/-- Whether a declaration starts depends on the kind of the next token, and none starts at the
end. -/
theorem startsDeclaration_head?_eq (h : List.Forall₂ R.Pairs ts ts') :
    (ts ++ E.tail).head?.any startsDeclaration = (ts' ++ E.tail').head?.any startsDeclaration := by
  have hend : ∀ {tail : List Token}, (tail.headD missingEnd).isEnd = true →
      tail.head?.any startsDeclaration = false := by
    intro tail hend
    cases tail with
    | nil => rfl
    | cons mark _ =>
        rw [List.headD_cons, Token.isEnd, decide_eq_true_eq] at hend
        rw [List.head?_cons, Option.any_some, startsDeclaration, hend]
  cases h with
  | nil => rw [List.nil_append, List.nil_append, hend E.isEnd, hend E.isEnd']
  | cons h _ =>
      simp only [List.cons_append, List.head?_cons, Option.any_some, startsDeclaration, R.kind_eq h]

/-- Counterparts are synchronized to counterparts. -/
theorem synchronized_matches (h : List.Forall₂ R.Pairs ts ts') :
    ∃ left left', left <:+ ts ∧ List.Forall₂ R.Pairs left left' ∧
      synchronized (ts ++ E.tail) = left ++ E.tail ∧
      synchronized (ts' ++ E.tail') = left' ++ E.tail' := by
  have hend : ∀ {tail : List Token}, (tail.headD missingEnd).isEnd = true →
      synchronized tail = tail := by
    intro tail hend
    cases tail with
    | nil => rfl
    | cons mark _ =>
        rw [List.headD_cons] at hend
        rw [synchronized, if_pos hend]
  induction h with
  | nil => exact ⟨[], [], List.suffix_refl _, .nil, hend E.isEnd, hend E.isEnd'⟩
  | @cons t t' ts ts' h hmore ih =>
      simp only [List.cons_append, synchronized, ← Token.Pairing.isEnd_eq h, ← R.kind_eq h,
        ← startsDeclaration_head?_eq hmore]
      split
      · exact ⟨t :: ts, t' :: ts', List.suffix_refl _, .cons h hmore, rfl, rfl⟩
      split
      · exact ⟨ts, ts', List.suffix_cons _ _, hmore, rfl, rfl⟩
      split
      · exact ⟨ts, ts', List.suffix_cons _ _, hmore, rfl, rfl⟩
      · obtain ⟨left, left', hsuffix, hleft⟩ := ih
        exact ⟨left, left', hsuffix.trans (List.suffix_cons _ _), hleft⟩

private theorem recovering (h : Respects E (Stmt.Matches R) statement) :
    Respects E (Option.Rel (Stmt.Matches R)) (recovering statement) := by
  intro ts ts' hts
  obtain ⟨hresult, hfaults, left, left', hsuffix, hleft, hrest, hrest'⟩ := h ts ts' hts
  unfold Parser.recovering
  generalize statement (ts ++ E.tail) = reply at hresult hfaults hrest ⊢
  generalize statement (ts' ++ E.tail') = reply' at hresult hfaults hrest' ⊢
  obtain ⟨result, faults, rest⟩ := reply
  obtain ⟨result', faults', rest'⟩ := reply'
  simp only at hresult hfaults hrest hrest' ⊢
  subst hrest hrest'
  cases hresult with
  | none =>
      obtain ⟨last, last', hlast, htokens, hsync, hsync'⟩ := synchronized_matches (E := E) hleft
      exact ⟨.some .none, hfaults, last, last', hlast.trans hsuffix, htokens, hsync, hsync'⟩
  | some hs =>
      refine ⟨.some ?_, hfaults, left, left', hsuffix, hleft, rfl, rfl⟩
      cases hfaults with
      | nil => exact .some hs
      | cons _ _ => exact .none

end Statements

/-! ### Nesting -/

private theorem within : ∀ (bound : List Token) (insideFunction : Bool),
    Respects E (Stmt.Matches R) (statementWithin bound insideFunction) ∧
      Respects E (Option.Rel (Stmt.Matches R)) (declarationWithin bound insideFunction)
  | [], _ => ⟨fail (α := Stmt) .noExpression, recovering (fail .noExpression)⟩
  | _ :: bound, insideFunction => by
      have same := within bound insideFunction
      have inner := within bound true
      have statement : Respects E (Stmt.Matches R) _ :=
        statementOf same.1 (Composed.within bound insideFunction).2
          (declarationWithin_advances insideFunction bound) same.2 insideFunction
      exact ⟨statement, recovering (declarationBody statement (Composed.within bound true).2
        (declarationWithin_advances true bound) inner.2)⟩

/-- **A declaration is parsed alike from counterparts.** -/
theorem declaration (insideFunction : Bool) :
    Respects E (Option.Rel (Stmt.Matches R)) (declaration insideFunction) := by
  have hfree : BoundFree fun bound => declarationWithin bound insideFunction :=
    fun n a b ha hb => (within_boundFree insideFunction n a b ha hb).2
  exact bounded (fun bound => (within bound insideFunction).2) hfree hfree

/-- **A program is parsed alike from counterparts.** -/
theorem program : Respects E (List.Forall₂ (Stmt.Matches R)) program := by
  have hstop : StopsByKind Token.isEnd := fun t t' hkind => by
    rw [Token.isEnd, Token.isEnd, hkind]
  have hfree : BoundFree (Parser.declarations Token.isEnd (Parser.declaration false)) :=
    declarations_boundFree (fun _ hend => hend) (.declaration false) (declaration_advances false)
  exact bounded (declarations hstop (declaration false)) hfree hfree

end Matches

end Parser

/-- **Counterparts are parsed into statements that match, with faults that match.** -/
theorem parse_matches (E : Endings R) (h : List.Forall₂ R.Pairs ts ts') :
    List.Forall₂ (Stmt.Matches R) (parse (ts ++ E.tail)).statements
        (parse (ts' ++ E.tail')).statements ∧
      List.Forall₂ (SyntaxFault.Matches R) (parse (ts ++ E.tail)).faults
        (parse (ts' ++ E.tail')).faults := by
  obtain ⟨hresult, hfaults, -⟩ := Parser.Matches.program (E := E) ts ts' h
  refine ⟨?_, hfaults⟩
  simp only [parse]
  generalize (Parser.program (ts ++ E.tail)).result = statements at hresult ⊢
  generalize (Parser.program (ts' ++ E.tail')).result = statements' at hresult ⊢
  cases hresult with
  | none => exact .nil
  | some h => exact h

end Lox
