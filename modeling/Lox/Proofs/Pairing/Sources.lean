/-
Sources whose tokens are counterparts.

One source after the other is parsed and run.  If the tokens of two sources are
counterparts, and their lexical faults are related in any way, both are refused or
both are run, and the results match.  Refused sources have faults of their own tokens
only, while a program can stop in a function that an earlier source declared, so the
two kinds of faults may be paired in two ways.
-/
import Lox.Proofs.Pairing.Evaluation
import Lox.Proofs.Pairing.Parsing
import Lox.Proofs.Session.Joined

namespace Lox

/-- Results of one kind: refused for faults that match, or stopped at faults that match. -/
inductive RunResult.Matches (L : LexicalFault → LexicalFault → Prop) (S R : Token.Pairing) :
    RunResult → RunResult → Prop where
  | finished : Matches L S R .finished .finished
  | rejected {lexical lexical' : List LexicalFault} {syntactic syntactic' : List SyntaxFault}
      (hlexical : List.Forall₂ L lexical lexical')
      (hsyntactic : List.Forall₂ (SyntaxFault.Matches S) syntactic syntactic') :
      Matches L S R (.rejected lexical syntactic) (.rejected lexical' syntactic')
  | stopped {fault fault' : RuntimeFault} (hfault : fault.Matches R fault') :
      Matches L S R (.stopped fault) (.stopped fault')

variable {L : LexicalFault → LexicalFault → Prop} {S R : Token.Pairing}

/-! ### Parsing -/

private theorem parse_marked_matches {ts ts' : List Token} {mark mark' : Token}
    (hmark : mark.isEnd = true) (h : List.Forall₂ R.Pairs (ts ++ [mark]) (ts' ++ [mark'])) :
    List.Forall₂ (Stmt.Matches R) (parse (ts ++ [mark])).statements
        (parse (ts' ++ [mark'])).statements ∧
      List.Forall₂ (SyntaxFault.Matches R) (parse (ts ++ [mark])).faults
        (parse (ts' ++ [mark'])).faults := by
  have hreverse := List.rel_reverse h
  rw [List.reverse_append, List.reverse_append] at hreverse
  cases hreverse with
  | cons hpairs hmore =>
      exact parse_matches ⟨[mark], [mark'], hmark, hpairs⟩ (List.forall₂_reverse_iff.mp hmore)

variable {source other : String}

/-- Sources whose tokens are counterparts are parsed alike. -/
theorem parse_source_matches
    (h : List.Forall₂ R.Pairs (Item.tokens (scan source)) (Item.tokens (scan other))) :
    List.Forall₂ (Stmt.Matches R) (statementsOf source) (statementsOf other) ∧
      List.Forall₂ (SyntaxFault.Matches R) (parse (Item.tokens (scan source))).faults
        (parse (Item.tokens (scan other))).faults := by
  unfold statementsOf
  rw [tokens_scan, tokens_scan] at h ⊢
  exact parse_marked_matches rfl h

private theorem accepted_iff_of_matches
    (hlexical : List.Forall₂ L (Item.faults (scan source)) (Item.faults (scan other)))
    (h : List.Forall₂ S.Pairs (Item.tokens (scan source)) (Item.tokens (scan other))) :
    Accepted source ↔ Accepted other := by
  have hsyntactic := (parse_source_matches h).2
  rw [Accepted, Accepted, ← List.length_eq_zero_iff, ← List.length_eq_zero_iff,
    hlexical.length_eq, hsyntactic.length_eq, List.length_eq_zero_iff, List.length_eq_zero_iff]

/-! ### Running -/

namespace Machine

variable {m m' m₁ : Machine} {r : RunResult}

/-- Programs that match end alike on machines that match. -/
theorem Interprets.matches {program program' : List Stmt} (hm : m.Matches R m')
    (hprogram : List.Forall₂ (Stmt.Matches R) program program') (h : m.Interprets program r m₁) :
    ∃ r' m₁', m'.Interprets program' r' m₁' ∧ m₁.Matches R m₁' ∧ r.Matches L S R r' := by
  obtain ⟨fuel, hinterpret, hr⟩ := h
  have hends := (Exec.matchesWithin fuel).executeAll program program' hprogram m m' hm
  have hother := interpret_eq m' fuel program'
  rw [interpret_eq] at hinterpret
  generalize Exec.executeAll fuel program m = result at hends hinterpret
  generalize Exec.executeAll fuel program' m' = result' at hends hother
  cases hends with
  | ok hm₁ _ =>
      cases hinterpret
      exact ⟨_, _, ⟨fuel, hother, RunResult.noConfusion⟩, hm₁, .finished⟩
  | error hm₁ hstop =>
      cases hstop with
      | fault hfault =>
          cases hinterpret
          exact ⟨_, _, ⟨fuel, hother, RunResult.noConfusion⟩, hm₁, .stopped hfault⟩
      | outOfFuel =>
          cases hinterpret
          exact absurd rfl hr

/-- **Sources whose tokens are counterparts end alike on machines that match.** -/
theorem Runs.matches (hm : m.Matches R m')
    (hlexical : List.Forall₂ L (Item.faults (scan source)) (Item.faults (scan other)))
    (hstatic : List.Forall₂ S.Pairs (Item.tokens (scan source)) (Item.tokens (scan other)))
    (htokens : List.Forall₂ R.Pairs (Item.tokens (scan source)) (Item.tokens (scan other)))
    (h : m.Runs source r m₁) :
    ∃ r' m₁', m'.Runs other r' m₁' ∧ m₁.Matches R m₁' ∧ r.Matches L S R r' := by
  have haccepted := accepted_iff_of_matches hlexical hstatic
  by_cases hsource : Accepted source
  · have hother := haccepted.mp hsource
    obtain ⟨r', m₁', hinterprets, hm₁, hr⟩ :=
      ((runs_of_accepted hsource).mp h).matches hm (parse_source_matches htokens).1
    exact ⟨r', m₁', (runs_of_accepted hother).mpr hinterprets, hm₁, hr⟩
  · have hother : ¬ Accepted other := fun hother => hsource (haccepted.mpr hother)
    obtain ⟨rfl, rfl⟩ := (runs_of_not_accepted hsource).mp h
    exact ⟨_, m', (runs_of_not_accepted hother).mpr ⟨rfl, rfl⟩, hm,
      .rejected hlexical (parse_source_matches hstatic).2⟩

theorem runs_of_fst (fuel : Nat) (h : (m.run fuel source).1 = r) (hr : r ≠ .unfinished) :
    m.Runs source r (m.run fuel source).2 := by
  refine ⟨fuel, ?_, hr⟩
  rw [← h]

/-- A source ends in one way at most. -/
theorem Runs.unique {r' : RunResult} {m₁' : Machine} (h : m.Runs source r m₁)
    (h' : m.Runs source r' m₁') : r = r' ∧ m₁ = m₁' := by
  by_cases haccepted : Accepted source
  · exact ((runs_of_accepted haccepted).mp h).unique ((runs_of_accepted haccepted).mp h')
  · obtain ⟨rfl, rfl⟩ := (runs_of_not_accepted haccepted).mp h
    obtain ⟨rfl, rfl⟩ := (runs_of_not_accepted haccepted).mp h'
    exact ⟨rfl, rfl⟩

end Machine

end Lox
