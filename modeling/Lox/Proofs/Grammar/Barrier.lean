/-
Tokens that expressions do not pass.

There are kinds of tokens no expression holds, the semicolon first of all.  Whatever
else stands before such a token, right or wrong, a parser for expressions stops at it
at the latest, and what comes behind it makes no difference: not to the result, not
to the faults, and not to which tokens are left in front of it.  That is `Local`.

It holds of the elementary parsers that do not take tokens of that kind, and survives
putting parsers together.  A loop is local although its bound is as long as all the
tokens, since bounds are never felt.
-/
import Lox.Proofs.Grammar.Reads

namespace Lox.Parser

variable {α β : Type} {kind : Token.Kind}

/-- In front of a token of this kind the parser does the same whatever comes behind, and it
leaves that token. -/
def Local (kind : Token.Kind) (p : Parser α) : Prop :=
  ∀ (ts : List Token) (barrier : Token), barrier.kind = kind →
    ∃ result faults left, left <:+ ts ∧
      ∀ rest, p (ts ++ barrier :: rest) = ⟨result, faults, left ++ barrier :: rest⟩

namespace Local

/-! ### Elementary parsers -/

theorem pure (a : α) : Local kind (Pure.pure a : Parser α) :=
  fun ts _ _ => ⟨some a, [], ts, List.suffix_refl _, fun _ => rfl⟩

theorem reportAt (token : Token) (cause : SyntaxCause) : Local kind (reportAt token cause) :=
  fun ts _ _ => ⟨some (), [⟨token, cause⟩], ts, List.suffix_refl _, fun _ => rfl⟩

private theorem failAt (token : Token) (cause : SyntaxCause) :
    Local kind (failAt token cause : Parser α) :=
  fun ts _ _ => ⟨none, [⟨token, cause⟩], ts, List.suffix_refl _, fun _ => rfl⟩

theorem peek : Local kind Parser.peek := by
  intro ts barrier _
  refine ⟨some (ts.headD barrier), [], ts, List.suffix_refl _, fun rest => ?_⟩
  cases ts <;> rfl

private theorem check (other : Token.Kind) : Local kind (check other) := by
  intro ts barrier _
  refine ⟨some ((ts.headD barrier).kind = other), [], ts, List.suffix_refl _, fun rest => ?_⟩
  cases ts <;> rfl

theorem acceptAny {kinds : List Token.Kind} (hkinds : kind ∉ kinds) :
    Local kind (acceptAny kinds) := by
  intro ts barrier hbarrier
  cases ts with
  | nil =>
      refine ⟨some none, [], [], List.suffix_refl _, fun rest => ?_⟩
      show (if barrier.kind ∈ kinds then _ else _) = _
      rw [hbarrier, if_neg hkinds]
      rfl
  | cons token ts =>
      by_cases htoken : token.kind ∈ kinds
      · refine ⟨some (some token), [], ts, List.suffix_cons _ _, fun rest => ?_⟩
        show (if token.kind ∈ kinds then _ else _) = _
        rw [if_pos htoken]
        rfl
      · refine ⟨some none, [], token :: ts, List.suffix_refl _, fun rest => ?_⟩
        show (if token.kind ∈ kinds then _ else _) = _
        rw [if_neg htoken]
        rfl

/-! ### Putting parsers together

A parser that is local leaves the barrier where it is, so what comes next starts in
front of it again, with fewer tokens or none.  That is all a sequence needs.
-/

theorem bind {p : Parser α} {next : α → Parser β} (hp : Local kind p)
    (hnext : ∀ a, Local kind (next a)) : Local kind (p >>= next) := by
  intro ts barrier hbarrier
  obtain ⟨result, faults, left, hleft, hfirst⟩ := hp ts barrier hbarrier
  cases result with
  | none =>
      refine ⟨none, faults, left, hleft, fun rest => ?_⟩
      rw [bind_apply, andThen, hfirst]
  | some a =>
      obtain ⟨result, more, last, hlast, hsecond⟩ := hnext a left barrier hbarrier
      refine ⟨result, faults ++ more, last, hlast.trans hleft, fun rest => ?_⟩
      rw [bind_apply, andThen, hfirst]
      show Reply.mk (next a _).result _ _ = _
      rw [hsecond]

/-- With more tokens behind the barrier the bound is longer, but that is never felt. -/
theorem bounded {loop : (bound : List Token) → Parser α} (h : ∀ bound, Local kind (loop bound))
    (hfree : BoundFree loop) : Local kind (bounded loop) := by
  intro ts barrier hbarrier
  obtain ⟨result, faults, left, hleft, hnothing⟩ := h (ts ++ [barrier]) ts barrier hbarrier
  refine ⟨result, faults, left, hleft, fun rest => ?_⟩
  -- The longer bound serves for both, whether there is a rest or not.
  obtain ⟨result', faults', left', -, hrest⟩ := h (ts ++ barrier :: rest) ts barrier hbarrier
  have hsame : loop (ts ++ barrier :: rest) (ts ++ [barrier]) =
      loop (ts ++ [barrier]) (ts ++ [barrier]) := by
    refine hfree.agree_bounded _ _ ?_
    simp only [List.length_append, List.length_cons, List.length_nil]
    omega
  rw [hrest, hnothing, Reply.mk.injEq, List.append_cancel_right_eq] at hsame
  show loop (ts ++ barrier :: rest) (ts ++ barrier :: rest) = _
  rw [hrest, hsame.1, hsame.2.1, hsame.2.2]

theorem fail (cause : SyntaxCause) : Local kind (fail cause : Parser α) :=
  peek.bind fun _ => failAt _ _

theorem accept {other : Token.Kind} (hother : kind ≠ other) : Local kind (accept other) :=
  acceptAny (by rwa [List.mem_singleton])

theorem expect {other : Token.Kind} (hother : kind ≠ other) (cause : SyntaxCause) :
    Local kind (expect other cause) :=
  (accept hother).bind fun
    | some _ => pure _
    | none => fail _

private theorem limit (count : Nat) (tooMany : SyntaxCause) : Local kind (limit count tooMany) := by
  unfold Parser.limit
  split
  · exact peek.bind fun _ => reportAt _ _
  · exact pure _

private theorem moreElements {element : Parser α} (hcomma : kind ≠ .symbol .comma)
    (h : Local kind element) (tooMany : SyntaxCause) :
    ∀ bound count, Local kind (moreElements element tooMany bound count)
  | [], _ => pure _
  | _ :: bound, count => (accept hcomma).bind fun
      | none => pure _
      | some _ => (limit _ _).bind fun _ => h.bind fun _ =>
          (moreElements hcomma h tooMany bound (count + 1)).bind fun _ => pure _

private theorem elements {element : Parser α} (hcomma : kind ≠ .symbol .comma)
    (hc : Composed element)
    (h : Local kind element) (tooMany : SyntaxCause) : Local kind (elements element tooMany) :=
  (check _).bind fun
    | true => pure _
    | false => h.bind fun _ =>
        (bounded (fun bound => moreElements hcomma h tooMany bound 1)
          (moreElements_boundFree hc tooMany 1)).bind fun _ => pure _

end Local

/-! ### Expressions -/

/-- Can a token of this kind stand in an expression? -/
def inExpression : Token.Kind → Bool
  | .keyword .true_ | .keyword .false_ | .keyword .nil_ | .keyword .and_ | .keyword .or_
  | .number _ | .string _ | .identifier => true
  | .symbol .leftBrace | .symbol .rightBrace | .symbol .dot | .symbol .semicolon => false
  | .symbol _ => true
  | _ => false

theorem ne_of_inExpression (hkind : inExpression kind = false) {other : Token.Kind}
    (hother : inExpression other = true) : kind ≠ other := by
  rintro rfl
  rw [hkind] at hother
  exact Bool.noConfusion hother

theorem inExpression_of_atom? {token : Token} {e : Expr} (h : atom? token = some e) :
    inExpression token.kind = true := by
  unfold atom? at h
  split at h <;> first | contradiction | simp [inExpression, *]

theorem inExpression_of_mem {level : Level} (h : level ∈ levels) (hkind : kind ∈ level.operators) :
    inExpression kind = true := by
  simp only [levels, List.mem_cons, List.not_mem_nil, or_false] at h
  rcases h with rfl | rfl | rfl | rfl | rfl | rfl <;>
    simp only [List.mem_cons, List.not_mem_nil, or_false] at hkind <;>
    rcases hkind with rfl | rfl | rfl | rfl <;> rfl

theorem inExpression_of_mem_unaryOperators (hkind : kind ∈ unaryOperators) :
    inExpression kind = true := by
  simp only [unaryOperators, List.mem_cons, List.not_mem_nil, or_false] at hkind
  rcases hkind with rfl | rfl <;> rfl

namespace Local

variable {nested operand : Parser Expr}

private theorem grouped (hkind : inExpression kind = false) (h : Local kind nested) :
    Local kind (grouped nested) :=
  (accept (ne_of_inExpression hkind rfl)).bind fun
    | some _ => h.bind fun _ => (expect (ne_of_inExpression hkind rfl) _).bind fun _ => pure _
    | none => fail _

/-- An atom is left out because it is one, which the barrier is not. -/
theorem primary (hkind : inExpression kind = false) (h : Local kind nested) :
    Local kind (primary nested) := by
  have hgrouped : ∀ (token : Token) (rest : List Token), atom? token = none →
      Parser.primary nested (token :: rest) = Parser.grouped nested (token :: rest) := by
    intro token rest hatom
    unfold Parser.primary
    rw [peek_bind_cons, hatom]
    rfl
  intro ts barrier hbarrier
  cases ts with
  | nil =>
      have hatom : atom? barrier = none := by
        cases hatom : atom? barrier with
        | none => rfl
        | some e =>
            have hin := inExpression_of_atom? hatom
            rw [hbarrier, hkind] at hin
            exact Bool.noConfusion hin
      obtain ⟨result, faults, left, hleft, hread⟩ := grouped hkind h [] barrier hbarrier
      refine ⟨result, faults, left, hleft, fun rest => ?_⟩
      rw [List.nil_append, hgrouped barrier rest hatom]
      exact hread rest
  | cons token ts =>
      cases hatom : atom? token with
      | none =>
          obtain ⟨result, faults, left, hleft, hread⟩ :=
            grouped hkind h (token :: ts) barrier hbarrier
          refine ⟨result, faults, left, hleft, fun rest => ?_⟩
          rw [List.cons_append, hgrouped token _ hatom]
          exact hread rest
      | some e =>
          refine ⟨some e, [], ts, List.suffix_cons _ _, fun rest => ?_⟩
          unfold Parser.primary
          rw [List.cons_append, peek_bind_cons, hatom]
          rfl

private theorem calls (hkind : inExpression kind = false) (hc : Composed nested)
    (h : Local kind nested) : ∀ bound callee, Local kind (calls nested bound callee)
  | [], _ => pure _
  | _ :: bound, _ => (accept (ne_of_inExpression hkind rfl)).bind fun
      | none => pure _
      | some _ => (elements (ne_of_inExpression hkind rfl) hc h _).bind fun _ =>
          (expect (ne_of_inExpression hkind rfl) _).bind fun _ => calls hkind hc h bound _

private theorem call (hkind : inExpression kind = false) (hc : Composed nested)
    (h : Local kind nested) : Local kind (call nested) :=
  (primary hkind h).bind fun callee =>
    bounded (fun bound => calls hkind hc h bound callee) (calls_boundFree hc callee)

private theorem unaryWithin (hkind : inExpression kind = false) (hc : Composed nested)
    (h : Local kind nested) : ∀ bound, Local kind (unaryWithin nested bound)
  | [] => call hkind hc h
  | _ :: bound =>
      (acceptAny fun hmem =>
        ne_of_inExpression hkind (inExpression_of_mem_unaryOperators hmem) rfl).bind fun
      | some _ => (unaryWithin hkind hc h bound).bind fun _ => pure _
      | none => call hkind hc h

private theorem unary (hkind : inExpression kind = false) (hc : Composed nested)
    (h : Local kind nested) : Local kind (unary nested) :=
  bounded (unaryWithin hkind hc h) (unaryWithin_boundFree hc)

private theorem chain {level : Level} (hlevel : kind ∉ level.operators) (h : Local kind operand) :
    ∀ bound left, Local kind (chain level operand bound left)
  | [], _ => pure _
  | _ :: bound, _ => (acceptAny hlevel).bind fun
      | none => pure _
      | some _ => h.bind fun _ => chain hlevel h bound _

private theorem joined {level : Level} (hlevel : kind ∉ level.operators) (hc : Composed operand)
    (h : Local kind operand) : Local kind (joined level operand) :=
  h.bind fun left => bounded (fun bound => chain hlevel h bound left) (chain_boundFree hc left)

private theorem operation (hkind : inExpression kind = false) (hc : Composed nested)
    (h : Local kind nested) :
    ∀ lv : List Level, (∀ level ∈ lv, kind ∉ level.operators) → Local kind (operation nested lv)
  | [], _ => unary hkind hc h
  | _ :: tighter, hlevels =>
      joined (hlevels _ List.mem_cons_self) (.operation hc tighter)
        (operation hkind hc h tighter fun _ hmem => hlevels _ (List.mem_cons_of_mem _ hmem))

private theorem assignment (hkind : inExpression kind = false) (hc : Composed nested)
    (h : Local kind nested) : Local kind (assignment nested) := by
  have hlevels : ∀ level ∈ levels, kind ∉ level.operators := fun _ hlevel hmem =>
    ne_of_inExpression hkind (inExpression_of_mem hlevel hmem) rfl
  refine (operation hkind hc h levels hlevels).bind fun target =>
    (accept (ne_of_inExpression hkind rfl)).bind fun
      | none => pure _
      | some _ => h.bind fun value => ?_
  cases target
  case var => exact pure _
  all_goals exact (reportAt _ _).bind fun _ => pure _

private theorem expressionWithin (hkind : inExpression kind = false) :
    ∀ bound, Local kind (expressionWithin bound)
  | [] => fail (α := Expr) .noExpression
  | _ :: bound => assignment hkind (.expressionWithin bound) (expressionWithin hkind bound)

/-- **An expression stops at a token that no expression holds, and does not see behind it.** -/
theorem expression (hkind : inExpression kind = false) : Local kind expression :=
  bounded (expressionWithin hkind) expressionWithin_boundFree

end Local

end Lox.Parser
