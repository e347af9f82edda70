/-
More fuel never changes an answer.

A run that is given one unit more does everything it did before, and differs only
where it had run out.  That holds of every function of the evaluator at once: each
passes on one unit less to the others, so the step from `n` to `n + 1` is an
induction on `n` in which every case puts together what the induction gives for
its parts.
-/
import Lox.Evaluation

namespace Lox

namespace Exec

variable {α β : Type}

/-! ### Extending a step

A run can run out of fuel at any place in a sequence, and then nothing is known of what
the other run does from there on.  So extending is stated with that as a way out, and a
sequence of steps is extended part by part.
-/

/-- The second step answers as the first does, wherever the first does not run out of fuel. -/
def Extends (p q : Exec α) : Prop :=
  ∀ m, (∃ m', p m = .error .outOfFuel m') ∨ p m = q m

namespace Extends

theorem refl (p : Exec α) : Extends p p := fun _ => .inr rfl

theorem outOfFuel (q : Exec α) : Extends (throw .outOfFuel) q := fun m => .inl ⟨m, rfl⟩

theorem bind {p q : Exec α} {f g : α → Exec β} (h : Extends p q) (hf : ∀ a, Extends (f a) (g a)) :
    Extends (p >>= f) (q >>= g) := by
  intro m
  simp only [Bind.bind, EStateM.bind]
  rcases h m with ⟨m', out⟩ | same
  · exact .inl ⟨m', by rw [out]⟩
  · rw [← same]
    cases p m with
    | ok a m' => exact hf a m'
    | error stop m' => exact .inr rfl

theorem trans {p q r : Exec α} (h : Extends p q) (h' : Extends q r) : Extends p r := by
  intro m
  rcases h m with out | same
  · exact .inl out
  · rw [same]; exact h' m

theorem within {p q : Exec α} (parent : ScopeId) (bindings : Bindings) (h : Extends p q) :
    Extends (Exec.within parent bindings p) (Exec.within parent bindings q) := by
  intro ⟨store, scope, functions, output, clock, readings⟩
  simp only [Exec.within]
  rcases h ⟨store.pushChild parent bindings, store.size, functions, output, clock, readings⟩ with
    ⟨m', out⟩ | same
  · exact .inl ⟨_, by rw [out]⟩
  · rw [← same]; exact .inr rfl

theorem nested {p q : Exec α} (h : Extends p q) : Extends (Exec.nested p) (Exec.nested q) :=
  fun m => within m.scope [] h m

end Extends

/-! ### One unit more -/

/-- What every function of the evaluator does with `n + 1` extends what it does with `n`. -/
structure Step (n : Nat) : Prop where
  evaluate : ∀ e, Extends (evaluate n e) (evaluate (n + 1) e)
  evaluateAll : ∀ es, Extends (evaluateAll n es) (evaluateAll (n + 1) es)
  call : ∀ f values, Extends (call n f values) (call (n + 1) f values)
  execute : ∀ s, Extends (execute n s) (execute (n + 1) s)
  executeAll : ∀ ss, Extends (executeAll n ss) (executeAll (n + 1) ss)

theorem step_zero : Step 0 where
  evaluate _ := .outOfFuel _
  evaluateAll _ := .outOfFuel _
  call _ _ := .outOfFuel _
  execute _ := .outOfFuel _
  executeAll _ := .outOfFuel _

theorem step_succ {n : Nat} (ih : Step n) : Step (n + 1) where
  evaluate e := by
    cases e with
    | assign name value => exact (ih.evaluate value).bind fun _ => .refl _
    | binary left op right =>
        exact (ih.evaluate left).bind fun _ => (ih.evaluate right).bind fun _ => .refl _
    | call callee paren arguments =>
        refine (ih.evaluate callee).bind fun f => (ih.evaluateAll arguments).bind fun values => ?_
        cases f.callee? with
        | none => exact .refl _
        | some f =>
            simp only
            split
            · exact ih.call f values
            · exact .refl _
    | grouping inner => exact ih.evaluate inner
    | logical left op right =>
        refine (ih.evaluate left).bind fun l => ?_
        cases decidedByLeft op.kind l with
        | none => exact .refl _
        | some decided =>
            cases decided with
            | true => exact .refl _
            | false => exact ih.evaluate right
    | unary op right => exact (ih.evaluate right).bind fun _ => .refl _
    | get | literal | set | super | this | var => exact .refl _
  evaluateAll es := by
    cases es with
    | nil => exact .refl _
    | cons e es => exact (ih.evaluate e).bind fun _ => (ih.evaluateAll es).bind fun _ => .refl _
  call f values := by
    cases f with
    | function f => exact ((ih.executeAll f.body).within _ _).bind fun _ => .refl _
    | native f => cases f; exact .refl _
  execute s := by
    cases s with
    | block body => exact (ih.executeAll body).nested
    | expression value => exact (ih.evaluate value).bind fun _ => .refl _
    | function name params body => exact .refl _
    | conditional condition thenBranch elseBranch =>
        refine (ih.evaluate condition).bind fun c => ?_
        split
        · exact ih.execute thenBranch
        · cases elseBranch with
          | none => exact .refl _
          | some s => exact ih.execute s
    | print value => exact (ih.evaluate value).bind fun _ => .refl _
    | return_ keyword value =>
        cases value with
        | none => exact .refl _
        | some value => exact (ih.evaluate value).bind fun _ => .refl _
    | var name initializer =>
        cases initializer with
        | none => exact .refl _
        | some value => exact (ih.evaluate value).bind fun _ => .refl _
    | loop condition body =>
        refine (ih.evaluate condition).bind fun c => ?_
        split
        · refine (ih.execute body).bind fun flow => ?_
          cases flow with
          | normal => exact ih.execute (.loop condition body)
          | returned v => exact .refl _
        · exact .refl _
  executeAll ss := by
    cases ss with
    | nil => exact .refl _
    | cons s ss =>
        refine (ih.execute s).bind fun flow => ?_
        cases flow with
        | normal => exact ih.executeAll ss
        | returned v => exact .refl _

theorem step : ∀ n, Step n
  | 0 => step_zero
  | n + 1 => step_succ (step n)

end Exec

end Lox
