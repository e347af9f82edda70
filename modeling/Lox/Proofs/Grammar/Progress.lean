/-
Declarations make progress.

An expression that is parsed has taken a token, since a primary has, and so has every
statement with a result.  A declaration that was given up may have taken none, but
then synchronizing skips one.  Either way a declaration that starts before the end of
the program leaves fewer tokens than it was given.

That is the measure of the loop over declarations.  With it the loop's bound is never
felt either, which for the other loops needed no more than the token that each of
their rounds accepts.
-/
import Lox.Grammar.Bound

namespace Lox.Parser

variable {α β : Type}

/-- A result costs a token: the parser leaves fewer whenever it has one. -/
def Spends (p : Parser α) : Prop :=
  ∀ tokens, (p tokens).result ≠ none → (p tokens).rest.length < tokens.length

/-- Behind this token, which counts as left, a result costs it at least. -/
def SpendsBehind (token : Token) (p : Parser α) : Prop :=
  ∀ rest : List Token, (p (token :: rest)).result ≠ none →
    (p (token :: rest)).rest.length ≤ rest.length

theorem SpendsBehind.skip {p : Parser α} (hp : Composed p) (token : Token) :
    SpendsBehind token (Parser.skip >>= fun _ => p) := by
  intro rest _
  rw [skip_bind_cons]
  exact (hp.leavesSuffix rest).length_le

namespace Spends

theorem behind {p : Parser α} (h : Spends p) (token : Token) : SpendsBehind token p :=
  fun rest hsome => Nat.le_of_lt_succ (h (token :: rest) hsome)

/-! ### Putting parsers together -/

/-- What comes first costs a token. -/
theorem bind {p : Parser α} {next : α → Parser β} (h : Spends p)
    (hnext : ∀ a, Composed (next a)) : Spends (p >>= next) := by
  intro tokens
  rw [bind_apply, andThen]
  cases hresult : (p tokens).result with
  | none => exact fun hsome => absurd rfl hsome
  | some a =>
      intro _
      have hfirst := h tokens (by rw [hresult]; exact Option.some_ne_none a)
      exact Nat.lt_of_le_of_lt ((hnext a).leavesSuffix _).length_le hfirst

/-- An accepted token is the one it costs. -/
theorem acceptAny {kinds : List Token.Kind} {next : Option Token → Parser β}
    (hnone : Spends (next none)) (hsome : ∀ token, Composed (next (some token))) :
    Spends (acceptAny kinds >>= next) := by
  intro tokens
  cases tokens with
  | nil =>
      rw [bind_apply, andThen, Parser.acceptAny]
      exact hnone []
  | cons token rest =>
      rw [bind_apply, andThen, Parser.acceptAny]
      by_cases h : token.kind ∈ kinds
      · simp only [h, if_true]
        exact fun _ => Nat.lt_succ_of_le ((hsome token).leavesSuffix rest).length_le
      · simp only [h, if_false]
        exact hnone (token :: rest)

theorem fail (cause : SyntaxCause) : Spends (fail cause : Parser α) :=
  fun _ hsome => absurd rfl hsome

theorem bounded {loop : (bound : List Token) → Parser α} (h : ∀ bound, Spends (loop bound)) :
    Spends (bounded loop) :=
  fun tokens => h tokens tokens

/-- It suffices that a token costs one, once it is known that there is a next one. -/
theorem peek {f : Token → Parser α} (hnil : Spends (f missingEnd))
    (hcons : ∀ token, SpendsBehind token (f token)) : Spends (peek >>= f) := by
  intro tokens
  cases tokens with
  | nil =>
      rw [bind_apply, andThen, Parser.peek]
      exact hnil []
  | cons token rest =>
      rw [peek_bind_cons]
      exact fun hsome => Nat.lt_succ_of_le (hcons token rest hsome)

/-! ### Expressions -/

variable {nested operand : Parser Expr}

private theorem primary (h : Composed nested) : Spends (primary nested) := by
  have hgrouped : Spends (Parser.grouped nested) :=
    acceptAny (fail _) fun _ => h.bind fun _ => (Composed.expectSymbol _ _).bind fun _ => .pure _
  refine peek hgrouped fun token => ?_
  cases atom? token with
  | some e => exact .skip (.pure e) token
  | none => exact hgrouped.behind token

private theorem call (h : Composed nested) : Spends (call nested) :=
  (primary h).bind fun _ => .bounded fun bound => .calls h bound _

private theorem unary (h : Composed nested) : Spends (unary nested) :=
  bounded fun
    | [] => call h
    | _ :: bound =>
        acceptAny (call h) fun _ => (Composed.unaryWithin h bound).bind fun _ => .pure _

private theorem operation (h : Composed nested) : ∀ levels, Spends (operation nested levels)
  | [] => unary h
  | _ :: tighter =>
      (operation h tighter).bind fun _ =>
        .bounded fun bound => .chain (Composed.operation h tighter) bound _

private theorem assignment (h : Composed nested) : Spends (assignment nested) :=
  (operation h _).bind fun target => (Composed.accept _).bind fun
    | none => .pure _
    | some _ => h.bind fun _ => by
        cases target
        case var => exact .pure _
        all_goals exact (Composed.reportAt _ _).bind fun _ => .pure _

private theorem expression : Spends expression :=
  bounded fun
    | [] => fail (α := Expr) .noExpression
    | _ :: bound => assignment (.expressionWithin bound)

/-! ### Statements and declarations -/

private theorem expressionStatement : Spends expressionStatement :=
  expression.bind fun _ => (Composed.expectSymbol _ _).bind fun _ => .pure _

private theorem statementOf {nested : Parser Stmt} {declaration : Parser (Option Stmt)}
    (hs : Composed nested) (hd : Composed declaration) (insideFunction : Bool) :
    Spends (statementOf nested declaration insideFunction) := by
  refine peek expressionStatement fun token => ?_
  split
  · exact .skip (.forStatement hs) token
  · exact .skip (.ifStatement hs) token
  · exact .skip .printStatement token
  · exact .skip (.returnStatement _ _) token
  · exact .skip (.whileStatement hs) token
  · exact .skip ((Composed.block hd).bind fun _ => .pure _) token
  · exact expressionStatement.behind token

private theorem declarationBody {statement : Parser Stmt} {inFunction : Parser (Option Stmt)}
    (hs : Spends statement) (hd : Composed inFunction) :
    Spends (declarationBody statement inFunction) := by
  refine peek hs fun token => ?_
  split
  · exact .skip (.functionDeclaration hd) token
  · exact .skip .varDeclaration token
  · exact hs.behind token

end Spends

/-! ### Declarations

A declaration that was dropped has a result all the same, namely none, and it may have
taken no token before it gave up.  Then synchronizing takes one, as long as there is one
to take.
-/

/-- Synchronizing skips at least one token before the end of the program. -/
theorem length_synchronized {token : Token} (h : token.isEnd = false) :
    ∀ rest : List Token, (synchronized (token :: rest)).length ≤ rest.length := by
  intro rest
  unfold synchronized
  rw [if_neg (by rw [h]; exact Bool.false_ne_true)]
  split
  · exact Nat.le_refl _
  split
  · exact Nat.le_refl _
  · exact (synchronized_suffix rest).length_le

/-- The parser leaves fewer tokens than it is given, unless it starts at the end. -/
def Advances (p : Parser α) : Prop :=
  ∀ (token : Token) (rest : List Token), token.isEnd = false →
    (p (token :: rest)).rest.length ≤ rest.length

private theorem Spends.recovering {p : Parser Stmt} (hp : Composed p) (h : Spends p) :
    Advances (recovering p) := by
  intro token rest hend
  unfold Parser.recovering
  simp only
  cases hresult : (p (token :: rest)).result with
  | some s =>
      exact Nat.le_of_lt_succ (h (token :: rest) (by rw [hresult]; exact Option.some_ne_none s))
  | none =>
      -- Either nothing was taken, and synchronizing skips the token, or the token was.
      rcases List.suffix_cons_iff.mp (hp.leavesSuffix (token :: rest)) with hall | hsome
      · simp only [hall]
        exact length_synchronized hend rest
      · exact Nat.le_trans (synchronized_suffix _).length_le hsome.length_le

/-- **A declaration that starts before the end of the program takes a token.** -/
theorem declarationWithin_advances (insideFunction : Bool) :
    ∀ bound, Advances (declarationWithin bound insideFunction)
  | [] => Spends.recovering (.fail _) (.fail _)
  | _ :: bound => by
      have same := Composed.within bound insideFunction
      have inner := (Composed.within bound true).2
      exact Spends.recovering
        (.declarationBody (.statementOf same.1 same.2 insideFunction) inner)
        (.declarationBody (.statementOf same.1 same.2 insideFunction) inner)

theorem declaration_advances (insideFunction : Bool) : Advances (declaration insideFunction) :=
  fun token rest => declarationWithin_advances insideFunction (token :: rest) token rest

/-- A list of declarations that stops at the end of the program does not feel its bound. -/
theorem declarations_boundFree {stop : Token → Bool} {declaration : Parser (Option Stmt)}
    (hstop : ∀ token : Token, token.isEnd = true → stop token = true) (h : Composed declaration)
    (hadvance : Advances declaration) : BoundFree (declarations stop declaration) := by
  have hnil : ∀ bound, declarations stop declaration bound [] = ⟨some [], [], []⟩
    | [] => rfl
    | _ :: bound => by
        rw [declarations]
        show (if stop missingEnd = true then _ else _ : Parser _) [] = _
        rw [if_pos (hstop missingEnd rfl)]
        rfl
  refine boundFree_of_rounds (p := fun (_ : Unit) bound => declarations stop declaration bound)
    (fun _ a b => by rw [hnil, hnil]) ?_ ()
  intro n a b same _ x y
  refine .peek ?_ fun token => ?_
  · simp only [hstop missingEnd rfl, if_true]
  · cases hend : stop token with
    | true => exact .refl _
    | false =>
        have htoken : token.isEnd = false := by
          cases hisEnd : token.isEnd with
          | false => rfl
          | true => rw [hstop token hisEnd] at hend; exact Bool.noConfusion hend
        have hmore (first : Option Stmt) : AgreeBelow (n + 1)
            (declarations stop declaration a >>= fun more => pure (first.toList ++ more))
            (declarations stop declaration b >>= fun more => pure (first.toList ++ more)) :=
          (same ()).bind (.declarations h a) fun _ => .refl _
        intro rest short
        have hleft := Nat.lt_of_le_of_lt (hadvance token rest htoken) short
        show (declaration >>= _) (token :: rest) = (declaration >>= _) (token :: rest)
        rw [bind_apply, bind_apply, andThen, andThen]
        cases (declaration (token :: rest)).result with
        | none => rfl
        | some first => simp only [hmore first _ hleft]

end Lox.Parser
