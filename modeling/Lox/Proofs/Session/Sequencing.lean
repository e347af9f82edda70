/-
Programs one after the other.

A run that does not run out of fuel is an answer, and `Interprets` is the relation
between programs and answers, without the fuel.  Programs whose statements do not
return run one after the other: a program made of two is answered by the second one
on the machine that the first one leaves, unless the first one stops.  What is
parsed outside of functions does not return.
-/
import Lox.Evaluation.Fuel
import Lox.Proofs.Grammar.Shape
import Lox.Session

namespace Lox

namespace Exec

/-! ### More fuel

Two programs that run one after the other take some fuel each.  As one program they
share it, so each has to be answered with more than it takes.
-/

theorem executeAll_extends (ss : List Stmt) {n k : Nat} (le : n ≤ k) :
    Extends (executeAll n ss) (executeAll k ss) := by
  induction le with
  | refl => exact .refl _
  | step _ ih => exact ih.trans ((step _).executeAll ss)

/-- What is answered without running out of fuel is answered with any more. -/
theorem Extends.eq_of_ne {α : Type} {p q : Exec α} (h : Extends p q) {m : Machine}
    (hm : ∀ m', p m ≠ .error .outOfFuel m') : q m = p m := by
  rcases h m with ⟨m', hout⟩ | hsame
  · exact absurd hout (hm m')
  · exact hsame.symm

/-! ### Statements that do not return

A statement that returned would end the list it is in, and what comes behind it would
not run, so that two programs in a row were not one.  Bodies of functions are of no
concern here: a call hands on no return.
-/

/-- The step never ends by returning. -/
def NeverReturns (p : Exec Flow) : Prop := ∀ m v m', p m ≠ .ok (.returned v) m'

namespace NeverReturns

private theorem outOfFuel : NeverReturns (throw .outOfFuel) := fun _ _ _ => nofun

private theorem normal : NeverReturns (pure .normal) := fun _ _ _ => nofun

theorem bind {α : Type} {p : Exec α} {k : α → Exec Flow} (hk : ∀ a, NeverReturns (k a)) :
    NeverReturns (p >>= k) := by
  intro m v m'
  simp only [Bind.bind, EStateM.bind]
  cases p m with
  | ok a m₁ => exact hk a m₁ v m'
  | error stop m₁ => exact nofun

/-- After a statement that does not return, only what follows could. -/
theorem bindFlow {p : Exec Flow} {k : Flow → Exec Flow} (hp : NeverReturns p)
    (hk : NeverReturns (k .normal)) : NeverReturns (p >>= k) := by
  intro m v m'
  simp only [Bind.bind, EStateM.bind]
  cases hflow : p m with
  | ok flow m₁ =>
      cases flow with
      | normal => exact hk m₁ v m'
      | returned w => exact absurd hflow (hp m w m₁)
  | error stop m₁ => exact nofun

private theorem nested {p : Exec Flow} (h : NeverReturns p) : NeverReturns (Exec.nested p) := by
  rintro ⟨store, scope, functions, output, clock, readings⟩ v m' hnested
  have hinner := h ⟨store.pushChild scope [], store.size, functions, output, clock, readings⟩
  simp only [Exec.nested, Exec.within] at hnested
  cases hflow : p ⟨store.pushChild scope [], store.size, functions, output, clock, readings⟩ with
  | ok flow m₁ =>
      cases flow with
      | normal =>
          rw [hflow] at hnested
          cases hnested
      | returned w => exact hinner w m₁ hflow
  | error stop m₁ =>
      rw [hflow] at hnested
      cases hnested

end NeverReturns

/-- With this much fuel, statements outside of functions do not return. -/
structure OutsideNeverReturns (n : Nat) : Prop where
  execute : ∀ s : Stmt, s.Shaped false → NeverReturns (execute n s)
  executeAll : ∀ ss : List Stmt, Stmt.ShapedList false ss → NeverReturns (executeAll n ss)

private theorem outsideNeverReturns_succ {n : Nat} (ih : OutsideNeverReturns n) :
    OutsideNeverReturns (n + 1) where
  execute s hs := by
    cases s with
    | block body => exact (ih.executeAll body hs).nested
    | expression value => exact .bind fun _ => .normal
    | function name params body => exact .bind fun _ => .bind fun _ => .normal
    | conditional condition thenBranch elseBranch =>
        obtain ⟨-, hthen, -, -, helse⟩ := hs
        refine .bind fun c => ?_
        split
        · exact ih.execute thenBranch hthen
        · cases elseBranch with
          | none => exact .normal
          | some s => exact ih.execute s helse.1
    | print value => exact .bind fun _ => .bind fun _ => .normal
    | return_ keyword value => exact nomatch hs.1
    | var name initializer =>
        cases initializer with
        | none => exact .bind fun _ => .normal
        | some value => exact .bind fun _ => .bind fun _ => .normal
    | loop condition body =>
        refine .bind fun c => ?_
        split
        · exact .bindFlow (ih.execute body hs.2.1) (ih.execute (.loop condition body) hs)
        · exact .normal
  executeAll ss hss := by
    cases ss with
    | nil => exact .normal
    | cons s ss => exact .bindFlow (ih.execute s hss.1) (ih.executeAll ss hss.2)

theorem outsideNeverReturns : ∀ n, OutsideNeverReturns n
  | 0 => ⟨fun _ _ => .outOfFuel, fun _ _ => .outOfFuel⟩
  | n + 1 => outsideNeverReturns_succ (outsideNeverReturns n)

/-! ### Lists of statements -/

/-- Statements behind others, with fuel for both. -/
theorem executeAll_append (ss rest : List Stmt) (k : Nat) :
    executeAll (ss.length + (k + 1)) (ss ++ rest) =
      executeAll (ss.length + (k + 1)) ss >>= fun
        | .normal => executeAll (k + 1) rest
        | .returned v => pure (.returned v) := by
  induction ss with
  | nil => simp [executeAll]
  | cons s ss ih =>
      rw [List.length_cons, Nat.succ_add, List.cons_append, executeAll, executeAll]
      rw [bind_assoc]
      congr 1
      funext flow
      cases flow with
      | normal => exact ih
      | returned v => exact (pure_bind _ _).symm

end Exec

namespace Machine

/-! ### Answers

With more fuel an answer stays what it is, so there is one answer at most and how much
fuel it took does not matter.  Being out of fuel is no answer.
-/

/-- Run on the machine, the program ends like this, given the fuel it takes. -/
def Interprets (m : Machine) (program : List Stmt) (r : RunResult) (m' : Machine) : Prop :=
  ∃ fuel, m.interpret fuel program = (r, m') ∧ r ≠ .unfinished

theorem interpret_eq (m : Machine) (fuel : Nat) (program : List Stmt) :
    m.interpret fuel program = match Exec.executeAll fuel program m with
      | .ok _ m => (.finished, m)
      | .error (.fault fault) m => (.stopped fault, m)
      | .error .outOfFuel m => (.unfinished, m) := by
  simp only [interpret, Exec.interpret, Bind.bind, EStateM.bind]
  cases Exec.executeAll fuel program m with
  | ok flow m' => rfl
  | error stop m' => cases stop <;> rfl

theorem interpret_ne_rejected {m m' : Machine} {fuel : Nat} {program : List Stmt}
    {lexical : List LexicalFault} {syntactic : List SyntaxFault} :
    m.interpret fuel program ≠ (.rejected lexical syntactic, m') := by
  rw [interpret_eq]
  cases Exec.executeAll fuel program m with
  | ok flow m₁ => exact nofun
  | error stop m₁ => cases stop <;> exact nofun

theorem interpret_of_le {m : Machine} {program : List Stmt} {r : RunResult} {m' : Machine}
    {n k : Nat} (le : n ≤ k) (h : m.interpret n program = (r, m')) (hr : r ≠ .unfinished) :
    m.interpret k program = (r, m') := by
  rw [interpret_eq] at h ⊢
  rw [(Exec.executeAll_extends program le).eq_of_ne, h]
  intro m₁ hout
  rw [hout] at h
  exact hr (Prod.mk.inj h).1.symm

/-- There is one answer at most. -/
theorem Interprets.unique {m : Machine} {program : List Stmt} {r s : RunResult}
    {m₁ m₂ : Machine} (h₁ : m.Interprets program r m₁) (h₂ : m.Interprets program s m₂) :
    r = s ∧ m₁ = m₂ := by
  obtain ⟨n, hn, hr⟩ := h₁
  obtain ⟨k, hk, hs⟩ := h₂
  have hn' := interpret_of_le (Nat.le_add_right n k) hn hr
  have hk' := interpret_of_le (Nat.le_add_left k n) hk hs
  exact Prod.mk.inj (hn'.symm.trans hk')

theorem interprets_nil {m : Machine} {r : RunResult} {m' : Machine} :
    m.Interprets [] r m' ↔ r = .finished ∧ m' = m := by
  have hnil : m.interpret 1 [] = (.finished, m) := rfl
  constructor
  · intro h
    exact h.unique ⟨1, hnil, nofun⟩
  · rintro ⟨rfl, rfl⟩
    exact ⟨1, hnil, nofun⟩

/-- What two programs one after the other do is settled by what each does, with fuel to spare. -/
theorem interpret_append {first second : List Stmt} (h : Stmt.ShapedList false first) (m : Machine)
    (k : Nat) :
    m.interpret (first.length + (k + 1)) (first ++ second) =
      match m.interpret (first.length + (k + 1)) first with
      | (.finished, m₁) => m₁.interpret (k + 1) second
      | other => other := by
  simp only [interpret_eq, Exec.executeAll_append, Bind.bind, EStateM.bind]
  have hnever := (Exec.outsideNeverReturns (first.length + (k + 1))).executeAll first h m
  cases hfirst : Exec.executeAll (first.length + (k + 1)) first m with
  | ok flow m₁ =>
      cases flow with
      | normal => rfl
      | returned v => exact absurd hfirst (hnever v m₁)
  | error stop m₁ => cases stop <;> rfl

/-- **Two programs one after the other: the second one goes on where the first one ends.** -/
theorem interprets_append {first second : List Stmt} (h : Stmt.ShapedList false first) {m : Machine}
    {r : RunResult} {m' : Machine} :
    m.Interprets (first ++ second) r m' ↔
      (∃ m₁, m.Interprets first .finished m₁ ∧ m₁.Interprets second r m') ∨
        ∃ fault, r = .stopped fault ∧ m.Interprets first r m' := by
  constructor
  · rintro ⟨n, hn, hr⟩
    have hmore := interpret_of_le (Nat.le_add_left n (first.length + 1)) hn hr
    rw [Nat.add_assoc, Nat.add_comm 1, interpret_append h] at hmore
    cases hfirst : m.interpret (first.length + (n + 1)) first with
    | mk r₁ m₁ =>
        rw [hfirst] at hmore
        cases r₁ with
        | finished => exact .inl ⟨m₁, ⟨_, hfirst, nofun⟩, _, hmore, hr⟩
        | stopped fault =>
            cases hmore
            exact .inr ⟨fault, rfl, _, hfirst, hr⟩
        | unfinished =>
            cases hmore
            exact absurd rfl hr
        | rejected lexical syntactic => exact absurd hfirst interpret_ne_rejected
  · rintro (⟨m₁, ⟨n, hn, hfinished⟩, k, hk, hr⟩ | ⟨fault, rfl, n, hn, hr⟩)
    · refine ⟨first.length + (n + k + 1), ?_, hr⟩
      have hn' := interpret_of_le (k := first.length + (n + k + 1)) (by omega) hn hfinished
      have hk' := interpret_of_le (k := n + k + 1) (by omega) hk hr
      rw [interpret_append h, hn']
      exact hk'
    · refine ⟨first.length + (n + 1), ?_, hr⟩
      have hn' := interpret_of_le (k := first.length + (n + 1)) (by omega) hn hr
      rw [interpret_append h, hn']

/-! ### Many programs -/

/-- Programs run in turn, up to the first that stops, end like this. -/
inductive InTurn : Machine → List (List Stmt) → RunResult → Machine → Prop where
  | nil {m : Machine} : InTurn m [] .finished m
  | next {m m₁ m' : Machine} {p : List Stmt} {ps : List (List Stmt)} {r : RunResult}
      (hp : m.Interprets p .finished m₁) (hps : InTurn m₁ ps r m') : InTurn m (p :: ps) r m'
  | stop {m m' : Machine} {p : List Stmt} {ps : List (List Stmt)} {fault : RuntimeFault}
      (hp : m.Interprets p (.stopped fault) m') : InTurn m (p :: ps) (.stopped fault) m'

/-- **Programs run in turn do what they do as one program.** -/
theorem inTurn_iff {ps : List (List Stmt)} (h : ∀ p ∈ ps, Stmt.ShapedList false p) :
    ∀ {m : Machine} {r : RunResult} {m' : Machine},
      InTurn m ps r m' ↔ m.Interprets ps.flatten r m' := by
  induction ps with
  | nil =>
      intro m r m'
      rw [List.flatten_nil, interprets_nil]
      constructor
      · rintro ⟨⟩
        exact ⟨rfl, rfl⟩
      · rintro ⟨rfl, rfl⟩
        exact .nil
  | cons p ps ih =>
      intro m r m'
      obtain ⟨hp, hps⟩ := List.forall_mem_cons.mp h
      rw [List.flatten_cons, interprets_append hp]
      constructor
      · intro hturn
        cases hturn with
        | next hfirst hrest => exact .inl ⟨_, hfirst, (ih hps).mp hrest⟩
        | stop hfirst => exact .inr ⟨_, rfl, hfirst⟩
      · rintro (⟨m₁, hfirst, hrest⟩ | ⟨fault, rfl, hfirst⟩)
        · exact .next hfirst ((ih hps).mpr hrest)
        · exact .stop hfirst

end Machine

end Lox
