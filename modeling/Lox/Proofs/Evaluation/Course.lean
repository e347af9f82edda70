/-
The course of a run.

A function of the evaluator says how a run ends, and nothing of what the machine was
like on the way.  But a run is made of runs: whatever is evaluated or executed has
parts, each of which runs on the machine that the parts before it leave, with a unit
of fuel less.  `Job.stages` lists them in the order in which they run.  A part that
does not come to run, since one before it stops or since a condition decides otherwise,
is not on the list.

So what happens in the middle of a run happens in a stage of a stage.
`Job.ComesToPrint` says in this way which texts a run comes to print, and on which
machines.
-/
import Lox.Proofs.Evaluation.Law

namespace Lox

/-- What a function of the evaluator is given to do. -/
inductive Job where
  | evaluate (e : Expr)
  | evaluateAll (es : List Expr)
  | call (f : Callee) (values : List Value)
  | execute (s : Stmt)
  | executeAll (ss : List Stmt)

/-! ### Stages

The stages of a job are read off the evaluator, clause by clause.  Where the evaluator
goes on with the result of a step, the list goes on with what comes `after` it, and
that is nothing if the step stops.  A proof about runs follows the two side by side,
and does not have to ask which part comes when.
-/

/-- A part of a job, the machine it runs on, and what is held while it runs. -/
structure Stage where
  /-- What is done in the part. -/
  job : Job
  /-- The machine as the parts before have left it. -/
  machine : Machine
  /-- The operands and arguments that have been evaluated and wait to be used. -/
  held : List Value
  /-- The scopes to come back to when the part has run. -/
  suspended : List ScopeId

/-- A part while which nothing is held. -/
def Stage.alone (job : Job) (m : Machine) : Stage := ⟨job, m, [], []⟩

/-- What comes after a step, if it does not stop. -/
def Exec.after {α β : Type} (k : α → Machine → List β) : EStateM.Result Stop Machine α → List β
  | .ok a m => k a m
  | .error _ _ => []

open Exec (after) in
/-- The parts of a job that is given `n + 1` units of fuel. -/
def Job.stages (n : Nat) (m : Machine) : Job → List Stage
  | evaluate (.assign _ value) => [.alone (.evaluate value) m]
  | evaluate (.binary left _ right) =>
    .alone (.evaluate left) m :: after (fun l m₁ => [⟨.evaluate right, m₁, [l], []⟩])
      (Exec.evaluate n left m)
  | evaluate (.call callee _ arguments) =>
    .alone (.evaluate callee) m :: after
      (fun f m₁ => ⟨.evaluateAll arguments, m₁, [f], []⟩ :: after
        (fun values m₂ => match f.callee? with
          | some f => if values.length = f.arity then [.alone (.call f values) m₂] else []
          | none => [])
        (Exec.evaluateAll n arguments m₁))
      (Exec.evaluate n callee m)
  | evaluate (.grouping inner) => [.alone (.evaluate inner) m]
  | evaluate (.logical left op right) =>
    .alone (.evaluate left) m :: after
      (fun l m₁ =>
        if decidedByLeft op.kind l = some false then [⟨.evaluate right, m₁, [l], []⟩] else [])
      (Exec.evaluate n left m)
  | evaluate (.unary _ right) => [.alone (.evaluate right) m]
  | evaluate _ => []
  | evaluateAll [] => []
  | evaluateAll (e :: es) =>
    .alone (.evaluate e) m :: after (fun v m₁ => [⟨.evaluateAll es, m₁, [v], []⟩])
      (Exec.evaluate n e m)
  | call (.function f) values =>
    [⟨.executeAll f.body, m.enter f.scope (f.arguments values), [.function f], [m.scope]⟩]
  | call (.native _) _ => []
  | execute (.block body) => [⟨.executeAll body, m.enter m.scope [], [], [m.scope]⟩]
  | execute (.expression value) => [.alone (.evaluate value) m]
  | execute (.function _ _ _) => []
  | execute (.conditional condition thenBranch elseBranch) =>
    .alone (.evaluate condition) m :: after
      (fun c m₁ =>
        if c.truthy then [.alone (.execute thenBranch) m₁]
        else elseBranch.toList.map fun s => .alone (.execute s) m₁)
      (Exec.evaluate n condition m)
  | execute (.print value) => [.alone (.evaluate value) m]
  | execute (.return_ _ value) => value.toList.map fun e => .alone (.evaluate e) m
  | execute (.var _ initializer) => initializer.toList.map fun e => .alone (.evaluate e) m
  | execute (.loop condition body) =>
    .alone (.evaluate condition) m :: after
      (fun c m₁ =>
        if c.truthy then .alone (.execute body) m₁ :: after
          (fun flow m₂ => match flow with
            | .normal => [.alone (.execute (.loop condition body)) m₂]
            | .returned _ => [])
          (Exec.execute n body m₁)
        else [])
      (Exec.evaluate n condition m)
  | executeAll [] => []
  | executeAll (s :: ss) =>
    .alone (.execute s) m :: after
      (fun flow m₁ => match flow with
        | .normal => [.alone (.executeAll ss) m₁]
        | .returned _ => [])
      (Exec.execute n s m)

namespace Exec

variable {α β : Type} {p : Exec α} {k : α → Exec β} {m m₁ : Machine}

theorem bind_of_ok {a : α} (h : p m = .ok a m₁) : (p >>= k) m = k a m₁ := by
  simp only [Bind.bind, EStateM.bind, h]

theorem bind_of_error {stop : Stop} (h : p m = .error stop m₁) :
    (p >>= k) m = .error stop m₁ := by
  simp only [Bind.bind, EStateM.bind, h]

end Exec

/-! ### Prints -/

/-- Given this much fuel, the run of a job comes to print a text on this machine, whether or
not there is room for it. -/
inductive Job.ComesToPrint : Nat → Job → Machine → String → Machine → Prop where
  | print {n : Nat} {value : Expr} {m m₁ : Machine} {v : Value}
      (hvalue : Exec.evaluate n value m = .ok v m₁) :
      ComesToPrint (n + 1) (.execute (.print value)) m (v.text ++ "\n") m₁
  | stage {n : Nat} {job : Job} {stage : Stage} {m s : Machine} {text : String}
      (hstage : stage ∈ job.stages n m) (h : stage.job.ComesToPrint n stage.machine text s) :
      ComesToPrint (n + 1) job m text s

/-- The run of a program comes to print a text on this machine. -/
def Machine.ComesToPrint (m : Machine) (program : List Stmt) (text : String) (s : Machine) : Prop :=
  ∃ fuel, Job.ComesToPrint fuel (.executeAll program) m text s

end Lox
