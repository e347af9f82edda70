/-
What parsers leave, and why they give up.

Every parser of the grammar leaves the end of what it was given: it takes tokens
from the front, and never puts one back or invents one.  And no parser gives up
without a word: a reply without a result has a fault in it.  Both hold of the
elementary parsers and survive putting parsers together, so both are inductions on
`Composed`.
-/
import Lox.Grammar.Composed

namespace Lox.Parser

variable {α : Type}

/-! ### Tokens left -/

/-- What a parser leaves is the end of what it was given. -/
def LeavesSuffix (p : Parser α) : Prop := ∀ tokens, (p tokens).rest <:+ tokens

theorem synchronized_suffix : ∀ tokens, synchronized tokens <:+ tokens
  | [] => List.suffix_refl _
  | token :: rest => by
      unfold synchronized
      split
      · exact List.suffix_refl _
      split
      · exact List.suffix_cons _ _
      split
      · exact List.suffix_cons _ _
      · exact (synchronized_suffix rest).trans (List.suffix_cons _ _)

theorem acceptAny_rest_suffix (kinds : List Token.Kind) : LeavesSuffix (acceptAny kinds)
  | [] => List.suffix_refl _
  | token :: rest => by
      unfold acceptAny
      by_cases h : token.kind ∈ kinds
      · simp only [h, if_true]; exact List.suffix_cons _ _
      · simp only [h, if_false]; exact List.suffix_refl _

theorem Composed.leavesSuffix {p : Parser α} (h : Composed p) : LeavesSuffix p := by
  induction h with
  | pure | check | reportAt | failAt => exact fun _ => List.suffix_refl _
  | acceptAny kinds => exact acceptAny_rest_suffix kinds
  | bind hp hnext ihp ihnext =>
      intro tokens
      rw [bind_apply, andThen]
      split
      · exact ihp tokens
      · exact (ihnext _ _).trans (ihp tokens)
  | bounded h ih => exact fun tokens => ih tokens tokens
  | look skips next hf hend hnext ih =>
      intro tokens
      show (andThen Parser.peek _ tokens).rest <:+ tokens
      simp only [andThen, Parser.peek, hf]
      split
      · exact (ih _ _).trans (List.drop_suffix 1 tokens)
      · exact ih _ tokens
  | recovering h ih =>
      intro tokens
      unfold Parser.recovering
      simp only
      split
      · exact ih tokens
      · exact (synchronized_suffix _).trans (ih tokens)

/-! ### Faults reported -/

/-- A parser that gives up has reported a fault. -/
def GivesReason (p : Parser α) : Prop :=
  ∀ tokens, (p tokens).result = none → (p tokens).faults ≠ []

theorem acceptAny_result_isSome (kinds : List Token.Kind) :
    ∀ tokens, ((acceptAny kinds) tokens).result ≠ none
  | [] => by simp [acceptAny]
  | token :: rest => by
      unfold acceptAny
      by_cases h : token.kind ∈ kinds <;> simp [h]

theorem Composed.givesReason {p : Parser α} (h : Composed p) : GivesReason p := by
  induction h with
  | pure | check | reportAt => intro tokens hnone; exact absurd hnone (Option.some_ne_none _)
  | failAt => exact fun _ _ => List.cons_ne_nil _ _
  | acceptAny kinds => exact fun tokens hnone => absurd hnone (acceptAny_result_isSome kinds tokens)
  | @bind _ _ p next hp hnext ihp ihnext =>
      intro tokens
      rw [bind_apply, andThen]
      cases hresult : (p tokens).result with
      | none => exact fun _ => ihp tokens hresult
      | some a =>
          intro hnone
          exact List.append_ne_nil_of_right_ne_nil _ (ihnext a _ hnone)
  | bounded h ih => exact fun tokens => ih tokens tokens
  | look skips next hf hend hnext ih =>
      intro tokens
      show (andThen Parser.peek _ tokens).result = none → (andThen Parser.peek _ tokens).faults ≠ []
      simp only [andThen, Parser.peek, hf]
      split
      · exact ih _ _
      · exact ih _ tokens
  | recovering h ih =>
      intro tokens
      unfold Parser.recovering
      simp only
      split <;> exact fun hnone => absurd hnone (Option.some_ne_none _)

end Lox.Parser
