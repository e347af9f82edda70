/-
What a session can do wrong.

Trees that parsing gives hold an operator only where it is one, nothing of classes,
and `return` only in functions.  The functions that a session keeps in its scopes were
parsed too.  So each machine of a session matches itself, in the sense that no token
of a function in it is anything but parsed, and a run on it keeps that and stops, if
it stops, for an ordinary reason.

Since nothing outside of functions returns, a program that finishes has executed each
of its statements.
-/
import Lox.Proofs.Pairing.Sources

namespace Lox

/-! ### Ordinary faults

That a cause is ordinary is said by constructors.  The wording has to tell as much, for
a user sees nothing else: the texts are told apart by their first three characters,
since in some of them a name or a number follows that can be anything.
-/

/-- What no parsed program does wrong: an operator of the wrong kind, and what belongs to
classes. -/
def internalCauses : List RuntimeCause :=
  [.unknownUnaryOperator, .unknownBinaryOperator, .unknownLogicalOperator, .propertyAccess,
    .propertyAssignment, .superKeyword, .thisKeyword]

/-- How a text starts: by this the messages of ordinary causes are told from others. -/
def opening (text : String) : List Char := text.toList.take 3

private theorem opening_append {text : String} (h : 3 ≤ text.toList.length) (more : String) :
    opening (text ++ more) = opening text := by
  rw [opening, opening, String.toList_append, List.take_append_of_le_length h]

private theorem RuntimeCause.Ordinary.opening_message {cause : RuntimeCause} (h : cause.Ordinary) :
    opening cause.message ∈
      [opening "Undefined", opening "Operand", opening "Can only", opening "Expected"] := by
  -- With literals in the place of variables, `simp` would go through their characters.
  have assoc : ∀ a b c d e : String, a ++ b ++ c ++ d ++ e = a ++ (b ++ (c ++ (d ++ e))) := by
    simp only [String.append_assoc, implies_true]
  cases h with
  | undefinedVariable name =>
      have hmessage : (RuntimeCause.undefinedVariable name).message =
          "Undefined variable '" ++ (name ++ "'.") := String.append_assoc
      have hlong : 3 ≤ "Undefined variable '".toList.length := by decide +kernel
      rw [hmessage, opening_append hlong]
      decide +kernel
  | wrongArgumentCount expected given =>
      have hmessage : (RuntimeCause.wrongArgumentCount expected given).message =
          "Expected " ++ (toString expected ++ (" arguments but got " ++ (toString given ++ "."))) :=
        assoc _ _ _ _ _
      have hlong : 3 ≤ "Expected ".toList.length := by decide +kernel
      rw [hmessage, opening_append hlong]
      decide +kernel
  | _ => decide +kernel

/-- No ordinary cause reads like one that is internal. -/
theorem RuntimeCause.Ordinary.message_notMem {cause : RuntimeCause} (h : cause.Ordinary) :
    cause.message ∉ internalCauses.map RuntimeCause.message := by
  have hinternal : ∀ text ∈ internalCauses.map RuntimeCause.message, opening text ∉
      [opening "Undefined", opening "Operand", opening "Can only", opening "Expected"] := by
    decide +kernel
  exact fun hmem => hinternal _ hmem h.opening_message

/-! ### Programs that finish -/

namespace Machine

/-- Each of the statements is executed to its end, one after the other. -/
inductive ExecutesEach : Machine → List Stmt → Machine → Prop where
  | nil {m : Machine} : ExecutesEach m [] m
  | cons {m m₁ m' : Machine} {s : Stmt} {ss : List Stmt} {fuel : Nat}
      (hs : Exec.execute fuel s m = .ok .normal m₁) (hss : ExecutesEach m₁ ss m') :
      ExecutesEach m (s :: ss) m'

private theorem executesEach_of_executeAll {fuel : Nat} {ss : List Stmt} {m m' : Machine}
    (h : Exec.executeAll fuel ss m = .ok .normal m') : ExecutesEach m ss m' := by
  induction fuel generalizing ss m with
  | zero => cases h
  | succ fuel ih =>
      cases ss with
      | nil =>
          cases h
          exact .nil
      | cons s ss =>
          rw [Exec.executeAll] at h
          simp only [Bind.bind, EStateM.bind] at h
          cases hs : Exec.execute fuel s m with
          | error stop m₁ =>
              rw [hs] at h
              cases h
          | ok flow m₁ =>
              rw [hs] at h
              cases flow with
              | normal => exact .cons hs (ih h)
              | returned v => cases h

end Machine

private theorem Stmt.shaped_of_mem {f : Bool} : ∀ {ss : List Stmt}, ShapedList f ss →
    ∀ s ∈ ss, s.Shaped f
  | [], _, _, hmem => nomatch hmem
  | _ :: _, ⟨hfirst, hmore⟩, s, hmem => by
      rcases List.mem_cons.mp hmem with rfl | hmem
      · exact hfirst
      · exact shaped_of_mem hmore s hmem

/-! ### Sessions

Where a machine matches itself, whatever is bound on it was parsed.  A new machine does,
and a run of a source keeps it so, whether the source is refused, stops or finishes; so
every machine of a session does.
-/

/-- A machine as any number of sources run in one session leave it. -/
inductive Machine.InSession : Machine → Prop where
  | start (clock : Nat → Number) (room : Option Nat) : InSession (.start clock room)
  | run {m m' : Machine} {source : String} {r : RunResult} (h : InSession m)
      (hrun : m.Runs source r m') : InSession m'

namespace Machine

variable {m m' : Machine} {source : String} {r : RunResult}

/-- A run keeps a machine that matches itself so, and stops at a fault that does. -/
theorem Runs.matches_self (hm : m.Matches .identity m) (h : m.Runs source r m') :
    m'.Matches .identity m' ∧ r.Matches Eq .identity .identity r := by
  have htokens := Token.Pairing.identity_pairs (Item.tokens (scan source))
  have hlexical : List.Forall₂ Eq (Item.faults (scan source)) (Item.faults (scan source)) :=
    List.forall₂_same.mpr fun _ _ => rfl
  obtain ⟨r', m₁', h', hm', hr⟩ := h.matches hm hlexical htokens htokens
  obtain ⟨rfl, rfl⟩ := h.unique h'
  exact ⟨hm', hr⟩

theorem InSession.matches_self (h : m.InSession) : m.Matches .identity m := by
  induction h with
  | start clock room => exact .start clock room
  | run _ hrun ih => exact (hrun.matches_self ih).1

/-- **A session does nothing wrong but what a program can.**  A step stops only where the output is
full or for an ordinary reason, and not with a message of another; nothing outside of functions
returns; and a step that finishes has executed each statement of its source. -/
theorem InSession.runs_ordinary (h : m.InSession) (hrun : m.Runs source r m') :
    (∀ fault, r = .stopped fault → fault = .outputFull ∨
      ∃ token cause, fault = .raised token cause ∧ cause.Ordinary ∧
        cause.message ∉ internalCauses.map RuntimeCause.message) ∧
    (Accepted source → ∀ s ∈ statementsOf source, ∀ fuel, Exec.NeverReturns (Exec.execute fuel s)) ∧
    (r = .finished → m.ExecutesEach (statementsOf source) m') := by
  refine ⟨fun fault hfault => ?_, fun haccepted s hs fuel => ?_, ?_⟩
  · subst hfault
    cases (hrun.matches_self h.matches_self).2 with
    | stopped hmatches =>
        cases hmatches with
        | outputFull => exact .inl rfl
        | raised _ hcause => exact .inr ⟨_, _, rfl, hcause, hcause.message_notMem⟩
  · have hshaped := (written_of_accepted haccepted).isTree.1
    exact (Exec.outsideNeverReturns fuel).execute s (Stmt.shaped_of_mem hshaped s hs)
  · rintro rfl
    have haccepted : Accepted source := by
      by_contra hrefused
      exact nomatch ((runs_of_not_accepted hrefused).mp hrun).1
    obtain ⟨fuel, hinterpret, -⟩ := (runs_of_accepted haccepted).mp hrun
    rw [interpret_eq] at hinterpret
    have hnever := (Exec.outsideNeverReturns fuel).executeAll (statementsOf source)
      (written_of_accepted haccepted).isTree.1 m
    cases hexecute : Exec.executeAll fuel (statementsOf source) m with
    | error stop m₁ =>
        rw [hexecute] at hinterpret
        cases stop <;> exact nomatch hinterpret
    | ok flow m₁ =>
        rw [hexecute] at hinterpret
        cases hinterpret
        cases flow with
        | normal => exact executesEach_of_executeAll hexecute
        | returned v => exact absurd hexecute (hnever v _)

/-- A machine on which a function that negates `nil` was declared. -/
def negatesNil : Machine :=
  ((start (fun _ => default) none).run 9 "fun f() \x7b return -nil; \x7d").2

/-- What was declared in one step goes wrong in a later one, for an ordinary reason. -/
theorem InSession.runs_ordinary_negatesNil :
    negatesNil.InSession ∧
      (negatesNil.run 9 "f();").1 =
        .stopped (.raised ⟨.symbol .minus, "-", 1⟩ .operandNotNumber) ∧
      RuntimeCause.Ordinary .operandNotNumber := by
  have hdeclared : (Machine.start (fun _ => default) none).Runs
      "fun f() \x7b return -nil; \x7d" .finished negatesNil :=
    runs_of_fst 9 (by decide +kernel) nofun
  have hsession : negatesNil.InSession := .run (.start _ _) hdeclared
  have hstopped : (negatesNil.run 9 "f();").1 =
      .stopped (.raised ⟨.symbol .minus, "-", 1⟩ .operandNotNumber) := by decide +kernel
  refine ⟨hsession, hstopped, ?_⟩
  rcases (hsession.runs_ordinary (runs_of_fst 9 hstopped nofun)).1 _ rfl with
    hfull | ⟨token, cause, hfault, hcause, -⟩
  · exact nomatch hfull
  · cases hfault
    exact hcause

end Machine

end Lox
