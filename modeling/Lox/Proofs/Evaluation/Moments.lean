/-
The moments of a run.

A machine is not all there is in the middle of a run.  Operands and arguments that are
evaluated already are held until they are used, a function is held as long as its body
runs, and there are the scopes to come back to.  A `Moment` is a machine with what is
held beside it, and `Job.trace` lists the moments of a run in the order in which they
come: where each of its parts starts, where it ends, and where a declaration has just
made its function.

From one moment to the next there is a single elementary step, `Moment.Move`.  So
`Job.path` is the only place where the cases of the evaluator are gone through: what a
move preserves a run preserves, in all its moments and not just at its end.
-/
import Lox.Proofs.Evaluation.Course
import Lox.Proofs.Scopes.Reach
import Lox.Proofs.Session.Joined

namespace Lox

/-! ### Moments -/

/-- A moment of a run. -/
structure Moment where
  /-- The machine at this moment. -/
  machine : Machine
  /-- The values held outside of scopes: operands, arguments, what is called, returned or about
  to be bound. -/
  held : List Value
  /-- The scopes to come back to. -/
  suspended : List ScopeId
  /-- The function that a declaration has made just now. -/
  made : Option Closure

namespace Moment

/-- Nothing is held but these values. -/
def holding (m : Machine) (held : List Value) : Moment := ⟨m, held, [], none⟩

/-- The end of a step, at which its results are held. -/
def ofResult {α : Type} (values : α → List Value) : EStateM.Result Stop Machine α → Moment
  | .ok a m => holding m (values a)
  | .error _ m => holding m []

/-- The function is somewhere: bound in a scope, whichever that is, or held. -/
def Around (moment : Moment) (f : Closure) : Prop :=
  (∃ i name, (name, .function f) ∈ moment.machine.store.bindings i) ∨ .function f ∈ moment.held

theorem machine_ofResult {α : Type} (values : α → List Value) (r : EStateM.Result Stop Machine α) :
    (ofResult values r).machine = Exec.left r := by
  cases r <;> rfl

theorem made_ofResult {α : Type} (values : α → List Value) (r : EStateM.Result Stop Machine α) :
    (ofResult values r).made = none := by
  cases r <;> rfl

end Moment

/-- The callee as a value. -/
def Callee.value : Callee → Value
  | function f => .function f
  | native f => .native f

private theorem Callee.value_of_callee? {v : Value} {f : Callee} (h : v.callee? = some f) :
    f.value = v := by
  cases v with
  | function g => cases h; rfl
  | native g => cases h; rfl
  | _ => exact nomatch h

namespace Job

/-- The values that a job is given. -/
def given : Job → List Value
  | call f values => f.value :: values
  | _ => []

/-- The moment at which a job starts on a machine. -/
def start (m : Machine) (job : Job) : Moment := .holding m job.given

/-- The moment at which a job ends that is given this much fuel. -/
def finish (n : Nat) (m : Machine) : Job → Moment
  | evaluate e => .ofResult (fun v => [v]) (Exec.evaluate n e m)
  | evaluateAll es => .ofResult id (Exec.evaluateAll n es m)
  | call f values => .ofResult (fun v => [v]) (Exec.call n f values m)
  | execute s => .ofResult (fun flow => flow.value?.toList) (Exec.execute n s m)
  | executeAll ss => .ofResult (fun flow => flow.value?.toList) (Exec.executeAll n ss m)

theorem made_finish (n : Nat) (m : Machine) (job : Job) : (job.finish n m).made = none := by
  cases job <;> exact Moment.made_ofResult _ _

end Job

/-! ### Moments of a stage

What happens while a stage runs happens while the whole runs.  Only that the whole holds
more: operands evaluated before the stage, and the scope that the stage has left.
-/

namespace Stage

/-- A moment of the part as one of the whole. -/
def during (stage : Stage) (moment : Moment) : Moment :=
  { moment with
    held := moment.held ++ stage.held
    suspended := moment.suspended ++ stage.suspended }

/-- The moment at which the part starts. -/
def opening (stage : Stage) : Moment := stage.during (stage.job.start stage.machine)

/-- The moment at which the part ends. -/
def ending (n : Nat) (stage : Stage) : Moment := stage.during (stage.job.finish n stage.machine)

end Stage

/-! ### The trace of a run

A trace is told by the stages of a job alone: the moments of each in turn, with what the
job holds meanwhile.  Executing a declaration has no stages, and yet there is a moment
in the middle, at which the function is made and not bound.
-/

/-- The moment at which a declaration has made its function, and not bound it yet. -/
def Moment.declared (m : Machine) (name : Token) (params : List Token) (body : List Stmt) :
    Moment :=
  let f := m.newFunction name params body
  ⟨m.countFunction, [.function f], [], some f⟩

/-- The last moments of a job, when all of its parts have ended. -/
def Job.closing (n : Nat) (m : Machine) : Job → List Moment
  | execute (.function name params body) =>
    [.declared m name params body, (execute (.function name params body)).finish n m]
  | job => [job.finish n m]

/-- The moments of a job that is given this much fuel, in order. -/
def Job.trace : Nat → Job → Machine → List Moment
  | 0, job, m => [job.start m, job.finish 0 m]
  | n + 1, job, m =>
    job.start m ::
      ((job.stages n m).flatMap fun stage => (trace n stage.job stage.machine).map stage.during) ++
        job.closing (n + 1) m

/-- The moments of a part are moments of the whole. -/
theorem Job.during_mem_trace {n : Nat} {job : Job} {m : Machine} (stage : Stage) {moment : Moment}
    (hstage : stage ∈ job.stages n m) (h : moment ∈ stage.job.trace n stage.machine) :
    stage.during moment ∈ job.trace (n + 1) m := by
  refine List.mem_append_left _ (List.mem_cons_of_mem _ ?_)
  exact List.mem_flatMap.mpr ⟨stage, hstage, List.mem_map_of_mem h⟩

/-! ### Moves

A move is more than a change of the machine.  It can bind, hold or call only a function
that was held or could be seen, and come back only to a scope that was waiting.  Without
that a function could turn up from nowhere, and nothing would be preserved.
-/

namespace Moment

/-- The function is bound where a program that stands here can see it. -/
def Sees (moment : Moment) (f : Closure) : Prop :=
  ∃ j ∈ moment.machine.store.chain moment.machine.scope,
    ∃ name, (name, .function f) ∈ moment.machine.store.bindings j

/-- An elementary step of the machine, with the function that it makes. -/
inductive Change (moment : Moment) : Machine → Option Closure → Prop where
  | stay : Change moment moment.machine none
  | print (text : String) : Change moment (moment.machine.print text) none
  | tick : Change moment moment.machine.tick none
  | write {j : ScopeId} {name : String} {v : Value}
      (hj : j = moment.machine.scope ∨ j ∈ moment.machine.store.chain moment.machine.scope)
      (hv : ∀ f, v = .function f → .function f ∈ moment.held) :
      Change moment (moment.machine.write j name v) none
  | enter {parent : ScopeId} {bindings : Bindings}
      (hparent : parent = moment.machine.scope ∨ ∃ f, .function f ∈ moment.held ∧ f.scope = parent)
      (hbindings : ∀ name f, (name, .function f) ∈ bindings → .function f ∈ moment.held) :
      Change moment (moment.machine.enter parent bindings) none
  | resume {scope : ScopeId} (hscope : scope ∈ moment.suspended) :
      Change moment (moment.machine.resume scope) none
  | make (name : Token) (params : List Token) (body : List Stmt) :
      Change moment moment.machine.countFunction
        (some (moment.machine.newFunction name params body))

/-- What leads from one moment to the next. -/
structure Move (a b : Moment) : Prop where
  /-- The machine does an elementary step. -/
  change : a.Change b.machine b.made
  /-- A function that is held was held before, is one that can be seen, or was just made. -/
  held : ∀ f, .function f ∈ b.held → .function f ∈ a.held ∨ a.Sees f ∨ b.made = some f
  /-- A scope to come back to was one before, or is the one that is left. -/
  suspended : ∀ c ∈ b.suspended, c ∈ a.suspended ∨ c = a.machine.scope

/-- From the first of the moments to the last by moves. -/
inductive Path : Moment → List Moment → Moment → Prop where
  | single (a : Moment) : Path a [a] a
  | cons {a b c : Moment} {moments : List Moment} (hmove : a.Move b) (h : Path b moments c) :
      Path a (a :: moments) c

/-! ### Making moves

Between two stages of a job at most one elementary step is done.  Each lemma is one way
to get from the end of a stage to the moment that comes next, and says what must have
been held for it.
-/

variable {a b c d : Moment} {moments more : List Moment}

private theorem Change.during (stage : Stage) {m : Machine} {made : Option Closure}
    (h : a.Change m made) : (stage.during a).Change m made := by
  have hheld : ∀ {f}, .function f ∈ a.held → .function f ∈ (stage.during a).held :=
    fun hf => List.mem_append_left _ hf
  cases h with
  | stay => exact .stay
  | print text => exact .print text
  | tick => exact .tick
  | write hj hv => exact .write hj fun f hf => hheld (hv f hf)
  | enter hparent hbindings =>
      exact .enter (hparent.imp_right fun ⟨f, hf, heq⟩ => ⟨f, hheld hf, heq⟩)
        fun name f hmem => hheld (hbindings name f hmem)
  | resume hscope => exact .resume (List.mem_append_left _ hscope)
  | make name params body => exact .make name params body

/-- A move in a part is one in the whole. -/
theorem Move.during (stage : Stage) (h : a.Move b) : (stage.during a).Move (stage.during b) := by
  refine ⟨h.change.during stage, fun f hf => ?_, fun c hc => ?_⟩
  · rcases List.mem_append.mp hf with hf | hf
    · exact (h.held f hf).imp_left (List.mem_append_left _)
    · exact .inl (List.mem_append_right _ hf)
  · rcases List.mem_append.mp hc with hc | hc
    · exact (h.suspended c hc).imp_left (List.mem_append_left _)
    · exact .inl (List.mem_append_right _ hc)

/-- Nothing happens, and nothing but what is held goes on being held. -/
theorem Move.stay (hmachine : b.machine = a.machine) (hmade : b.made = none)
    (hheld : ∀ f, .function f ∈ b.held → .function f ∈ a.held)
    (hsuspended : ∀ c ∈ b.suspended, c ∈ a.suspended) : a.Move b := by
  refine ⟨?_, fun f hf => .inl (hheld f hf), fun c hc => .inl (hsuspended c hc)⟩
  rw [hmachine, hmade]
  exact .stay

/-- After a change, values are held that were held before or can be seen. -/
theorem Move.changed {m : Machine} {values : List Value} (hchange : a.Change m none)
    (h : ∀ f, .function f ∈ values → .function f ∈ a.held ∨ a.Sees f) :
    a.Move (.holding m values) :=
  ⟨hchange, fun f hf => (h f hf).imp_right .inl, fun _ hc => absurd hc List.not_mem_nil⟩

/-- After a change, nothing is held. -/
theorem Move.released {m : Machine} (hchange : a.Change m none) : a.Move (.holding m []) :=
  .changed hchange fun _ hf => absurd hf List.not_mem_nil

/-- What is held on is held already, if it is a function at all. -/
theorem Move.holding {values : List Value}
    (h : ∀ f, .function f ∈ values → .function f ∈ a.held) :
    a.Move (.holding a.machine values) :=
  .changed .stay fun f hf => .inl (h f hf)

/-- A step that stops leaves nothing held. -/
theorem Move.stop : a.Move (.holding a.machine []) := .released .stay

/-- A value that is no function may come from anywhere. -/
theorem Move.plain {v : Value} (hv : ∀ f, v ≠ .function f) : a.Move (.holding a.machine [v]) :=
  .holding fun f hf => absurd (List.mem_singleton.mp hf).symm (hv f)

/-- No operation gives a function. -/
theorem Move.ofOutcome (op : Token) {outcome : Outcome} (h : outcome.Plain) :
    a.Move (.ofResult (fun v => [v]) (Exec.ofOutcome op outcome a.machine)) := by
  cases outcome with
  | error cause => exact .stop
  | ok v =>
      refine .plain fun f hf => ?_
      subst hf
      have hrelated := h _ rfl fun _ _ => False
      cases hrelated with
      | function hfalse => exact hfalse

theorem Move.fetch (name : Token) :
    a.Move (.ofResult (fun v => [v]) (Exec.fetch name a.machine)) := by
  unfold Exec.fetch
  cases hget : a.machine.store.get? a.machine.scope name.lexeme with
  | none => exact .stop
  | some v =>
      obtain ⟨j, hj, hbound⟩ := Store.get?_eq_some hget
      refine .changed .stay fun f hf => .inr ?_
      obtain rfl := List.mem_singleton.mp hf
      exact ⟨j, hj, name.lexeme, Bindings.mem_of_get? hbound⟩

theorem Move.assign (name : Token) {v : Value} (hv : v ∈ a.held) :
    a.Move (.ofResult (fun v => [v]) ((do Exec.assign name v; pure v : Exec Value) a.machine)) := by
  cases hresolve : a.machine.store.resolve? a.machine.scope name.lexeme with
  | none =>
      have hassign : Exec.assign name v a.machine =
          .error (.fault (.raised name (.undefinedVariable name.lexeme))) a.machine := by
        rw [Exec.assign_apply, hresolve]
        rfl
      rw [Exec.bind_of_error hassign]
      exact .stop
  | some j =>
      have hassign : Exec.assign name v a.machine = .ok () (a.machine.write j name.lexeme v) := by
        rw [Exec.assign_apply, hresolve]
      rw [Exec.bind_of_ok hassign]
      refine .changed (.write (.inr (Store.mem_chain_of_resolve? hresolve)) fun f hf => hf ▸ hv)
        fun f hf => .inl ?_
      rwa [List.mem_singleton.mp hf]

theorem Move.define (name : Token) {v : Value} (hv : ∀ f, v = .function f → .function f ∈ a.held) :
    a.Move (.ofResult (fun flow => flow.value?.toList)
      ((do Exec.define name v; pure Flow.normal : Exec Flow) a.machine)) :=
  .released (.write (.inl rfl) hv)

theorem Move.emit (text : String) :
    a.Move (.ofResult (fun flow => flow.value?.toList)
      ((do Exec.emit text; pure Flow.normal : Exec Flow) a.machine)) := by
  have hprint : a.Move (.holding (a.machine.print text) []) := .released (.print text)
  cases hfits : (a.machine.output.write text).2 with
  | true =>
      have hemit : Exec.emit text a.machine = .ok () (a.machine.print text) := by
        rw [Exec.emit_apply, hfits]
      rw [Exec.bind_of_ok hemit]
      exact hprint
  | false =>
      have hemit : Exec.emit text a.machine =
          .error (.fault .outputFull) (a.machine.print text) := by
        rw [Exec.emit_apply, hfits]
      rw [Exec.bind_of_error hemit]
      exact hprint

/-- The scope to come back to is the current one again. -/
theorem Move.resume {scope : ScopeId} {values : List Value} (hscope : scope ∈ a.suspended)
    (h : ∀ f, .function f ∈ values → .function f ∈ a.held) :
    a.Move (.holding (a.machine.resume scope) values) :=
  .changed (.resume hscope) fun f hf => .inl (h f hf)

/-- The scope that is left for a new one is one to come back to. -/
theorem Move.enter {parent : ScopeId} {bindings : Bindings} {held : List Value}
    (hparent : parent = a.machine.scope ∨ ∃ f, .function f ∈ a.held ∧ f.scope = parent)
    (hbindings : ∀ name f, (name, .function f) ∈ bindings → .function f ∈ a.held)
    (hheld : ∀ f, .function f ∈ held → .function f ∈ a.held) :
    a.Move ⟨a.machine.enter parent bindings, held, [a.machine.scope], none⟩ :=
  ⟨.enter hparent hbindings, fun f hf => .inl (hheld f hf), fun _ hc =>
    .inr (List.mem_singleton.mp hc)⟩

/-- A function that is around was so before, or was just made. -/
theorem Move.around (h : a.Move b) {f : Closure} (hf : b.Around f) :
    a.Around f ∨ b.made = some f := by
  rcases hf with ⟨i, name, hbound⟩ | hheld
  · left
    have hchange := h.change
    generalize b.machine = m, b.made = made at hchange hbound
    cases hchange with
    | stay | print | tick | resume | make => exact .inl ⟨i, name, hbound⟩
    | write _ hv =>
        exact (Machine.mem_bindings_write hbound).imp (fun h => ⟨i, name, h⟩) fun h => hv f h.symm
    | enter _ hbindings =>
        rcases Machine.mem_bindings_enter hbound with ⟨-, hnew⟩ | ⟨-, hold⟩
        · exact .inr (hbindings name f hnew)
        · exact .inl ⟨i, name, hold⟩
  · rcases h.held f hheld with hheld | ⟨i, -, name, hbound⟩ | hmade
    · exact .inl (.inr hheld)
    · exact .inl (.inl ⟨i, name, hbound⟩)
    · exact .inr hmade

/-! ### Paths in a row and in a part -/

theorem Path.append (h : Path a moments b) (hmove : b.Move c) (h' : Path c more d) :
    Path a (moments ++ more) d := by
  induction h with
  | single a => exact .cons hmove h'
  | cons hfirst _ ih => exact .cons hfirst (ih hmove)

theorem Path.during (stage : Stage) (h : Path a moments b) :
    Path (stage.during a) (moments.map stage.during) (stage.during b) := by
  induction h with
  | single a => exact .single _
  | cons hfirst _ ih => exact .cons (hfirst.during stage) ih

end Moment

/-! ### The path of a run

The stages of a job are told by `Job.stages` as a list, and the evaluator runs them as a
sequence of steps.  `Leads` goes along both: a stage in front of the list is the first
step of the sequence, and if it stops there are no others.
-/

open Moment

/-- Through all of the stages there is a path if there is one through each, with a move from each
to the next. -/
def Leads (n : Nat) : Moment → List Stage → Moment → Prop
  | a, [], b => a.Move b
  | a, stage :: stages, b => a.Move stage.opening ∧ Leads n (stage.ending n) stages b

theorem Leads.path {n : Nat} (hpath : ∀ (job : Job) (m : Machine),
      Path (job.start m) (job.trace n m) (job.finish n m)) :
    ∀ {stages : List Stage} {moments : List Moment} {a b c : Moment}, Path a moments b →
      Leads n b stages c →
      Path a (moments ++ ((stages.flatMap fun stage =>
        (stage.job.trace n stage.machine).map stage.during) ++ [c])) c := by
  intro stages
  induction stages with
  | nil => exact fun h hmove => h.append hmove (.single _)
  | cons stage stages ih =>
      rintro moments a b c h ⟨hmove, hmore⟩
      have hlonger := h.append hmove ((hpath stage.job stage.machine).during stage)
      rw [List.flatMap_cons, List.append_assoc, ← List.append_assoc]
      exact ih hlonger hmore

namespace Leads

variable {α β : Type} {n : Nat} {a : Moment} {stage : Stage} {p : Exec α} {k : α → Exec β}
  {values : α → List Value} {results : β → List Value} {m : Machine}

/-- After the results of a step, those of what comes next.  If the step stops, so does the whole. -/
theorem bind {next : α → Machine → List Stage}
    (hending : stage.ending n = stage.during (.ofResult values (p m)))
    (hopening : a.Move stage.opening)
    (hk : ∀ v m₁, p m = .ok v m₁ →
      Leads n (stage.during (.holding m₁ (values v))) (next v m₁) (.ofResult results (k v m₁))) :
    Leads n a (stage :: Exec.after next (p m)) (.ofResult results ((p >>= k) m)) := by
  refine ⟨hopening, ?_⟩
  rw [hending]
  cases hp : p m with
  | ok v m₁ =>
      rw [Exec.bind_of_ok hp]
      exact hk v m₁ hp
  | error stop m₁ =>
      rw [Exec.bind_of_error hp]
      exact .stop

/-- The last stage, after which its results are used. -/
theorem last (hending : stage.ending n = stage.during (.ofResult values (p m)))
    (hopening : a.Move stage.opening)
    (hk : ∀ v m₁, p m = .ok v m₁ →
      (stage.during (.holding m₁ (values v))).Move (.ofResult results (k v m₁))) :
    Leads n a [stage] (.ofResult results ((p >>= k) m)) := by
  have hnone : ([] : List Stage) = Exec.after (fun _ _ => []) (p m) := by cases p m <;> rfl
  rw [hnone]
  exact bind hending hopening hk

/-- The last stage, whose results are those of the whole. -/
theorem passing (hopening : a.Move stage.opening) :
    Leads n a [stage] (stage.job.finish n stage.machine) :=
  ⟨hopening, .stay rfl (stage.job.made_finish n stage.machine)
    (fun _ hf => List.mem_append_left _ hf) fun _ hc => List.mem_append_left _ hc⟩

/-- The last stage, which ran in a scope of its own and is followed by nothing but coming back. -/
theorem returning {scope : ScopeId} {r : EStateM.Result Stop Machine β} (g : α → β)
    (hending : stage.ending n = stage.during (.ofResult values (p m)))
    (hopening : a.Move stage.opening) (hscope : scope ∈ stage.suspended)
    (hok : ∀ v m₁, p m = .ok v m₁ → r = .ok (g v) (m₁.resume scope))
    (herror : ∀ stop m₁, p m = .error stop m₁ → r = .error stop (m₁.resume scope))
    (hheld : ∀ v f, .function f ∈ results (g v) → .function f ∈ values v) :
    Leads n a [stage] (.ofResult results r) := by
  refine ⟨hopening, ?_⟩
  rw [hending]
  cases hp : p m with
  | ok v m₁ =>
      rw [hok v m₁ hp]
      exact .resume hscope fun f hf => List.mem_append_left _ (hheld v f hf)
  | error stop m₁ =>
      rw [herror stop m₁ hp]
      exact .resume hscope fun f hf => absurd hf List.not_mem_nil

end Leads

namespace Job

private theorem leads_evaluate (n : Nat) (m : Machine) (e : Expr) :
    Leads n ((evaluate e).start m) ((evaluate e).stages n m) ((evaluate e).finish (n + 1) m) := by
  cases e with
  | assign name value =>
      exact .last rfl .stop fun v m₁ _ => .assign name List.mem_cons_self
  | binary left op right =>
      refine .bind rfl .stop fun l m₁ _ => ?_
      exact .last rfl (.holding fun _ hf => hf) fun r m₂ _ =>
        .ofOutcome op (binaryOutcome_plain op.kind l r)
  | call callee paren arguments =>
      refine .bind rfl .stop fun c m₁ _ => ?_
      refine .bind rfl (.holding fun _ hf => hf) fun values m₂ _ => ?_
      cases hc : c.callee? with
      | none => exact .stop
      | some f =>
          by_cases harity : values.length = f.arity
          · simp only [if_pos harity]
            -- The callee was held while the arguments were evaluated.
            refine .passing (.holding fun g hg => ?_)
            have hg : .function g = f.value ∨ .function g ∈ values :=
              List.mem_cons.mp ((List.append_nil _).subst hg)
            rcases hg with hg | hg
            · rw [hg, Callee.value_of_callee? hc]
              exact List.mem_append_right _ List.mem_cons_self
            · exact List.mem_append_left _ hg
          · simp only [if_neg harity]
            exact .stop
  | grouping inner => exact .passing .stop
  | logical left op right =>
      refine .bind rfl .stop fun l m₁ _ => ?_
      cases decidedByLeft op.kind l with
      | none => exact .stop
      | some decided =>
        cases decided with
        | true => exact .holding fun _ hf => hf
        | false => exact .passing (.holding fun _ hf => hf)
  | unary op right =>
      exact .last rfl .stop fun r m₁ _ => .ofOutcome op (unaryOutcome_plain op.kind r)
  | var name => exact .fetch name
  | literal value =>
      refine .plain fun f hf => ?_
      cases value <;> cases hf
  | get | set | super | this => exact .stop

private theorem leads_execute (n : Nat) (m : Machine) (s : Stmt)
    (hs : ∀ name params body, s ≠ .function name params body) :
    Leads n ((execute s).start m) ((execute s).stages n m) ((execute s).finish (n + 1) m) := by
  cases s with
  | block body =>
      have happly := Exec.within_apply m.scope [] (Exec.executeAll n body) m
      refine .returning id rfl (.enter (.inl rfl) (fun _ _ => List.not_mem_nil.elim)
        fun _ hf => absurd hf List.not_mem_nil) List.mem_cons_self ?_ ?_ fun _ _ => id
      · exact fun flow m₁ hbody => happly.trans (by rw [hbody]; rfl)
      · exact fun stop m₁ hbody => happly.trans (by rw [hbody])
  | expression value => exact .last rfl .stop fun v m₁ _ => .stop
  | function name params body => exact absurd rfl (hs name params body)
  | conditional condition thenBranch elseBranch =>
      refine .bind rfl .stop fun c m₁ _ => ?_
      by_cases hc : c.truthy = true
      · simp only [if_pos hc]
        exact .passing .stop
      · simp only [if_neg hc]
        cases elseBranch with
        | none => exact .stop
        | some s => exact .passing .stop
  | print value => exact .last rfl .stop fun v m₁ _ => .emit _
  | return_ keyword value =>
      cases value with
      | none => exact .plain (by rintro _ ⟨⟩)
      | some value => exact .last rfl .stop fun v m₁ _ => .holding fun _ hf => hf
  | var name initializer =>
      cases initializer with
      | none => exact .define name (by rintro _ ⟨⟩)
      | some value =>
          exact .last rfl .stop fun v m₁ _ => .define name fun f hf => hf ▸ List.mem_cons_self
  | loop condition body =>
      refine .bind rfl .stop fun c m₁ _ => ?_
      by_cases hc : c.truthy = true
      · simp only [if_pos hc]
        refine .bind rfl .stop fun flow m₂ _ => ?_
        cases flow with
        | normal => exact .passing .stop
        | returned v => exact .holding fun _ hf => hf
      · simp only [if_neg hc]
        exact .stop

private theorem leads_call (n : Nat) (m : Machine) (f : Callee) (values : List Value) :
    Leads n ((call f values).start m) ((call f values).stages n m)
      ((call f values).finish (n + 1) m) := by
  cases f with
  | native f =>
      cases f
      refine .changed .tick fun f hf => ?_
      cases List.mem_singleton.mp hf
  | function f =>
      have happly := Exec.call_apply n f values m
      refine .returning Flow.result rfl (.enter (.inr ⟨f, List.mem_cons_self, rfl⟩) ?_ ?_)
        List.mem_cons_self ?_ ?_ ?_
      · exact fun name g hg => List.mem_cons_of_mem _ (Closure.mem_of_mem_arguments hg)
      · exact fun g hg => (List.mem_singleton.mp hg) ▸ List.mem_cons_self
      · exact fun flow m₁ hbody => happly.trans (by rw [hbody])
      · exact fun stop m₁ hbody => happly.trans (by rw [hbody])
      · rintro flow g hg
        cases flow with
        | normal => cases List.mem_singleton.mp hg
        | returned v => exact hg

private theorem leads_evaluateAll (n : Nat) (m : Machine) (es : List Expr) :
    Leads n ((evaluateAll es).start m) ((evaluateAll es).stages n m)
      ((evaluateAll es).finish (n + 1) m) := by
  cases es with
  | nil => exact .stop
  | cons e es =>
      refine .bind rfl .stop fun v m₁ _ => ?_
      refine .last rfl (.holding fun _ hf => hf) fun vs m₂ _ => .holding fun f hf => ?_
      rcases List.mem_cons.mp hf with hf | hf
      · exact List.mem_append_right _ (hf ▸ List.mem_cons_self)
      · exact List.mem_append_left _ hf

private theorem leads_executeAll (n : Nat) (m : Machine) (ss : List Stmt) :
    Leads n ((executeAll ss).start m) ((executeAll ss).stages n m)
      ((executeAll ss).finish (n + 1) m) := by
  cases ss with
  | nil => exact .stop
  | cons s ss =>
      refine .bind rfl .stop fun flow m₁ _ => ?_
      cases flow with
      | normal => exact .passing .stop
      | returned v => exact .holding fun _ hf => hf

/-- A declaration makes its function, and then binds it. -/
theorem path_declaration (n : Nat) (m : Machine) (name : Token) (params : List Token)
    (body : List Stmt) :
    Path ((execute (.function name params body)).start m)
      ((execute (.function name params body)).trace (n + 1) m)
      ((execute (.function name params body)).finish (n + 1) m) := by
  have hmake : (start m (execute (.function name params body))).Move
      (declared m name params body) :=
    ⟨.make name params body, fun f hf => .inr (.inr (by cases List.mem_singleton.mp hf; rfl)),
      fun _ hc => .inl hc⟩
  have hdefine : (declared m name params body).Move
      (finish (n + 1) m (execute (.function name params body))) :=
    .define name fun f hf => hf ▸ List.mem_cons_self
  exact .cons hmake (.cons hdefine (.single _))

/-- **A run goes from its start to its end by elementary steps**, through all the moments of its
trace and in their order. -/
theorem path (n : Nat) : ∀ (job : Job) (m : Machine),
    Path (job.start m) (job.trace n m) (job.finish n m) := by
  induction n with
  | zero =>
      intro job m
      cases job <;> exact .cons .stop (.single _)
  | succ n ih =>
      intro job m
      have hleads : ∀ {job : Job}, job.closing (n + 1) m = [job.finish (n + 1) m] →
          Leads n (job.start m) (job.stages n m) (job.finish (n + 1) m) →
          Path (job.start m) (job.trace (n + 1) m) (job.finish (n + 1) m) := by
        intro job hclosing h
        have hpath := h.path ih (.single (job.start m))
        rwa [trace, hclosing]
      cases job with
      | evaluate e => exact hleads rfl (leads_evaluate n m e)
      | evaluateAll es => exact hleads rfl (leads_evaluateAll n m es)
      | call f values => exact hleads rfl (leads_call n m f values)
      | executeAll ss => exact hleads rfl (leads_executeAll n m ss)
      | execute s =>
          cases s with
          | function name params body => exact path_declaration n m name params body
          | _ => exact hleads rfl (leads_execute n m _ (by rintro _ _ _ ⟨⟩))

end Job

end Lox
