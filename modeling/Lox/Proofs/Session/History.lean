/-
The history of a session.

A session is given source texts, or programs as they are, one after another, each with
some fuel.  Its history lists all the moments that it goes through: those of each run,
and those between the runs, at which nothing is held.  A source that is refused adds
nothing, since it runs nothing.

The history is a path, so what holds on a new machine and is preserved by every move
holds at all times, in the middle of a run and after a fault too.
-/
import Lox.Proofs.Evaluation.Moments
import Lox.Proofs.Session.Joined

namespace Lox

/-- What a session is given: a source text, or a program of any trees. -/
inductive Input where
  | source (text : String)
  | program (ss : List Stmt)

namespace Machine

/-- The machine that an input leaves. -/
def feed (m : Machine) (fuel : Nat) : Input → Machine
  | .source text => (m.run fuel text).2
  | .program ss => (m.interpret fuel ss).2

/-- The moments of running an input. -/
def moments (m : Machine) (fuel : Nat) : Input → List Moment
  | .source text =>
    if Accepted text then (Job.executeAll (statementsOf text)).trace fuel m else []
  | .program ss => (Job.executeAll ss).trace fuel m

/-- The moments of a session, in order. -/
def history (m : Machine) : List (Nat × Input) → List Moment
  | [] => [.holding m []]
  | (fuel, input) :: inputs => m.moments fuel input ++ (m.feed fuel input).history inputs

private theorem machine_finish (n : Nat) (ss : List Stmt) (m : Machine) :
    ((Job.executeAll ss).finish n m).machine = (m.interpret n ss).2 := by
  rw [snd_interpret]
  show (Moment.ofResult _ (Exec.executeAll n ss m)).machine = _
  rw [Moment.machine_ofResult]
  cases hresult : Exec.executeAll n ss m with
  | ok flow m₁ =>
      rw [Exec.interpret, Exec.bind_of_ok hresult]
      rfl
  | error stop m₁ =>
      rw [Exec.interpret, Exec.bind_of_error hresult]
      rfl

/-- After a program, whatever was held is let go. -/
theorem path_program (m : Machine) (n : Nat) (ss : List Stmt) {moments : List Moment}
    {last : Moment} (h : Moment.Path (.holding (m.interpret n ss).2 []) moments last) :
    Moment.Path (.holding m []) ((Job.executeAll ss).trace n m ++ moments) last := by
  refine ((Job.executeAll ss).path n m).append ?_ h
  rw [← machine_finish]
  exact .stop

/-- **The history of a session is a path from the machine on which it begins.** -/
theorem history_path (inputs : List (Nat × Input)) : ∀ m : Machine,
    ∃ last, Moment.Path (.holding m []) (m.history inputs) last := by
  induction inputs with
  | nil => exact fun m => ⟨_, .single _⟩
  | cons entry inputs ih =>
      obtain ⟨fuel, input⟩ := entry
      intro m
      obtain ⟨last, hlast⟩ := ih (m.feed fuel input)
      refine ⟨last, ?_⟩
      rw [history]
      cases input with
      | program ss => exact path_program m fuel ss hlast
      | source text =>
          by_cases h : Accepted text
          · rw [moments, if_pos h]
            rw [feed, run_of_accepted h] at hlast ⊢
            exact path_program m fuel _ hlast
          · rw [moments, if_neg h, List.nil_append]
            rw [feed, run_of_not_accepted h] at hlast ⊢
            exact hlast

end Machine

namespace Moment.Path

variable {a b : Moment} {moments : List Moment}

theorem getLast?_eq (h : Path a moments b) : moments.getLast? = some b := by
  induction h with
  | single a => rfl
  | cons _ _ ih => rw [List.getLast?_cons, ih, Option.getD_some]

/-- What moves preserve holds at every moment. -/
theorem invariant {I : Moment → Prop} (hstep : ∀ {a b : Moment}, a.Move b → I a → I b)
    (h : Path a moments b) (ha : I a) : ∀ moment ∈ moments, I moment := by
  induction h with
  | single a => exact List.forall_mem_singleton.mpr ha
  | cons hmove _ ih => exact List.forall_mem_cons.mpr ⟨ha, ih (hstep hmove ha)⟩

/-- What every move does to the machine, any number of moves does. -/
theorem pairwise {R : Machine → Machine → Prop}
    (htrans : ∀ {m₁ m₂ m₃ : Machine}, R m₁ m₂ → R m₂ m₃ → R m₁ m₃)
    (hstep : ∀ {a b : Moment}, a.Move b → R a.machine b.machine) (h : Path a moments b) :
    moments.Pairwise fun a b => R a.machine b.machine := by
  induction h with
  | single a => exact List.pairwise_singleton _ a
  | @cons a b c moments hmove hmore ih =>
      refine List.pairwise_cons.mpr ⟨?_, ih⟩
      exact hmore.invariant (fun hnext h => htrans h (hstep hnext)) (hstep hmove)

end Moment.Path

end Lox
