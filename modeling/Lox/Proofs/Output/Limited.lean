/-
Output without enough room for it.

A limit on the output shows in one step only, printing, and there it stops the run.
Nothing handles a fault, so the run of a program with a limit is that of the program
without one up to the first print that does not fit.  If all prints fit then it is the
whole run, and the machines differ in nothing but the room that is left.

`Limits` says that of one step of the evaluator, with what the step prints if it has
room.  It is closed under doing one step after the other: if the limit is not reached
in the first, what is left of it is the limit of the second.  Which print did not fit
is told by `Job.ComesToPrint`, of the run without a limit.
-/
import Lox.Proofs.Evaluation.Course
import Lox.Proofs.Session.Printing
import Lox.Proofs.Session.Sequencing

namespace Lox

/-! ### Writing with and without room -/

namespace Output

variable {written : ByteArray} {room : Nat} {text : String}

theorem write_unlimited {output : Output} (h : output.room = none) (text : String) :
    output.write text = (⟨output.written ++ text.toUTF8, none⟩, true) := by
  obtain ⟨written, room⟩ := output
  cases h
  rfl

/-- There are no more bytes than all. -/
theorem extract_of_le {bytes : ByteArray} (h : bytes.size ≤ room) :
    bytes.extract 0 room = bytes := by
  conv_rhs => rw [← ByteArray.extract_zero_size (b := bytes)]
  conv_lhs => rw [← ByteArray.extract_zero_size (b := bytes), ByteArray.extract_extract]
  congr 1
  omega

theorem write_of_le (h : text.toUTF8.size ≤ room) :
    write ⟨written, some room⟩ text =
      (⟨written ++ text.toUTF8, some (room - text.toUTF8.size)⟩, true) := by
  simp only [write, extract_of_le h, h, decide_true]

private theorem write_of_lt (h : room < text.toUTF8.size) :
    write ⟨written, some room⟩ text = (⟨written ++ text.toUTF8.extract 0 room, some 0⟩, false) := by
  have hnone : room - text.toUTF8.size = 0 := by omega
  have hcut : ¬ text.toUTF8.size ≤ room := by omega
  simp only [write, hnone, hcut, decide_false]

end Output

/-! ### Machines with and without room

A run that does not fit is known by one print, the first that passes the limit.  What is
known of it is kept in `Machine.Overflows`: how much was printed before, that there was
room for that, and that what is printed in all goes on from there.  Running more behind
it changes nothing in that, and what was run before it only adds to the bytes before.
-/

namespace Machine

/-- The machine with room for so many bytes more, or without a limit. -/
def withRoom (m : Machine) (room : Option Nat) : Machine :=
  { m with output := { m.output with room := room } }

private theorem store_withRoom (m : Machine) (room : Option Nat) :
    (m.withRoom room).store = m.store := rfl

private theorem scope_withRoom (m : Machine) (room : Option Nat) :
    (m.withRoom room).scope = m.scope := rfl

/-- The machine after the part of a text was printed for which there was room, back in a scope. -/
def cutOff (m : Machine) (room : Nat) (text : String) (scope : ScopeId) : Machine :=
  ((m.withRoom (some room)).print text).resume scope

end Machine

/-- A run that prints `bytes` in all does not fit, and `text` is where it shows. -/
structure Machine.Overflows (m : Machine) (room : Nat) (bytes before : ByteArray) (text : String)
    (s : Machine) : Prop where
  /-- At `s` the run has printed `before`. -/
  printed : m.Printed before s
  /-- There is room for that. -/
  fits : before.size ≤ room
  /-- But not for the text that it prints next. -/
  passes : room < before.size + text.toUTF8.size
  /-- What has been printed then is where the bytes in all begin. -/
  follows : ∃ after, bytes = before ++ text.toUTF8 ++ after

namespace Machine.Overflows

variable {m m₁ s : Machine} {room : Nat} {bytes before more : ByteArray} {text : String}

/-- What would have been printed later makes no difference. -/
theorem append (h : m.Overflows room bytes before text s) (more : ByteArray) :
    m.Overflows room (bytes ++ more) before text s := by
  obtain ⟨after, hafter⟩ := h.follows
  refine { h with follows := ⟨after ++ more, ?_⟩ }
  rw [hafter, ByteArray.append_assoc]

/-- What was printed before takes up room. -/
theorem behind (h : m₁.Overflows (room - more.size) bytes before text s)
    (hmore : m.Printed more m₁) (hfits : more.size ≤ room) :
    m.Overflows room (more ++ bytes) (more ++ before) text s := by
  obtain ⟨after, hafter⟩ := h.follows
  have hbefore := h.fits
  have hpasses := h.passes
  refine ⟨hmore.trans h.printed, ?_, ?_, after, ?_⟩
  · rw [ByteArray.size_append]; omega
  · rw [ByteArray.size_append]; omega
  · rw [hafter, ByteArray.append_assoc, ByteArray.append_assoc, ByteArray.append_assoc]

/-- What is printed of the bytes in all is as many of the first as there is room for. -/
theorem extract_eq (h : m.Overflows room bytes before text s) :
    bytes.extract 0 room = before ++ text.toUTF8.extract 0 (room - before.size) := by
  obtain ⟨after, hafter⟩ := h.follows
  have hnone : room - (before ++ text.toUTF8).size = 0 := by
    have hpasses := h.passes
    rw [ByteArray.size_append]
    omega
  rw [hafter, ByteArray.extract_append, hnone, Nat.zero_sub, ByteArray.extract_same,
    ByteArray.append_empty, ByteArray.extract_append, Nat.zero_sub, Output.extract_of_le h.fits]

theorem cutOff_eq (h : m.Overflows room bytes before text s) (scope : ScopeId) :
    s.cutOff (room - before.size) text scope =
      { s with
        scope := scope
        output := ⟨m.output.written ++ bytes.extract 0 room, some 0⟩ } := by
  have hfits := h.fits
  have hpasses := h.passes
  have hwrite : (s.withRoom (some (room - before.size))).output.write text = _ :=
    Output.write_of_lt (by omega)
  rw [cutOff, print, hwrite, h.extract_eq, ← ByteArray.append_assoc, ← h.printed]
  rfl

end Machine.Overflows

namespace Exec

variable {α β : Type} {C D : String → Machine → Prop} {m : Machine}

/-- The same end on the machine with other room. -/
def resultWithRoom (room : Option Nat) :
    EStateM.Result Stop Machine α → EStateM.Result Stop Machine α
  | .ok a m => .ok a (m.withRoom room)
  | .error stop m => .error stop (m.withRoom room)

/-- What a step prints on a machine without a limit settles what it does on one with a limit. -/
structure LimitsAt (C : String → Machine → Prop) (p : Exec α) (m : Machine) (bytes : ByteArray) :
    Prop where
  /-- Without a limit it prints `bytes`. -/
  printed : m.Printed bytes (left (p m))
  /-- It makes no limit where there was none. -/
  unlimited : (left (p m)).output.room = none
  /-- It ends in the scope it started in, so what a limit stops later is back in that scope too. -/
  scope : (left (p m)).scope = m.scope
  /-- With room for the bytes it ends in the same way, and has used up as much room. -/
  enough : ∀ room, bytes.size ≤ room →
    p (m.withRoom (some room)) = resultWithRoom (some (room - bytes.size)) (p m)
  /-- With less it stops at the print that does not fit, which is one of those in `C`. -/
  short : ∀ room < bytes.size, ∃ before text s, C text s ∧ m.Overflows room bytes before text s ∧
    p (m.withRoom (some room)) =
      .error (.fault .outputFull) (s.cutOff (room - before.size) text m.scope)

namespace LimitsAt

variable {p : Exec α} {k : α → Exec β} {m₁ : Machine} {bytes more : ByteArray}

theorem bind_error {stop : Stop} (h : LimitsAt C p m bytes) (hp : p m = .error stop m₁) :
    LimitsAt C (p >>= k) m bytes := by
  have hbind : (p >>= k) m = .error stop m₁ := bind_of_error hp
  have hleft : left ((p >>= k) m) = left (p m) := by rw [hbind, hp]; rfl
  refine ⟨?_, ?_, ?_, fun room hroom => ?_, fun room hroom => ?_⟩
  · rw [hleft]; exact h.printed
  · rw [hleft]; exact h.unlimited
  · rw [hleft]; exact h.scope
  · have hsame := h.enough room hroom
    rw [hp] at hsame
    rw [bind_of_error hsame, hbind]
    rfl
  · obtain ⟨before, text, s, hC, hoverflows, hstop⟩ := h.short room hroom
    exact ⟨before, text, s, hC, hoverflows, bind_of_error hstop⟩

theorem bind_ok {a : α} (h : LimitsAt C p m bytes) (hp : p m = .ok a m₁)
    (hk : LimitsAt C (k a) m₁ more) : LimitsAt C (p >>= k) m (bytes ++ more) := by
  have hbind : (p >>= k) m = k a m₁ := bind_of_ok hp
  have hleft : left (p m) = m₁ := by rw [hp]; rfl
  have hprinted : m.Printed bytes m₁ := hleft ▸ h.printed
  have hscope : m₁.scope = m.scope := hleft ▸ h.scope
  have hfirst (room : Nat) (hroom : bytes.size ≤ room) :
      (p >>= k) (m.withRoom (some room)) = k a (m₁.withRoom (some (room - bytes.size))) := by
    have hsame := h.enough room hroom
    rw [hp] at hsame
    exact bind_of_ok hsame
  refine ⟨?_, ?_, ?_, fun room hroom => ?_, fun room hroom => ?_⟩
  · rw [hbind]; exact hprinted.trans hk.printed
  · rw [hbind]; exact hk.unlimited
  · rw [hbind, hk.scope, hscope]
  · rw [ByteArray.size_append] at hroom ⊢
    rw [hfirst room (by omega), hk.enough _ (by omega), hbind, Nat.sub_sub]
  · rw [ByteArray.size_append] at hroom
    by_cases hfits : bytes.size ≤ room
    · obtain ⟨before, text, s, hC, hoverflows, hstop⟩ := hk.short (room - bytes.size) (by omega)
      refine ⟨bytes ++ before, text, s, hC, hoverflows.behind hprinted hfits, ?_⟩
      rw [hfirst room hfits, hstop, hscope, ByteArray.size_append, Nat.sub_sub]
    · obtain ⟨before, text, s, hC, hoverflows, hstop⟩ := h.short room (by omega)
      exact ⟨before, text, s, hC, hoverflows.append more, bind_of_error hstop⟩

end LimitsAt

/-- A limit cuts the output of the step, and nothing else. -/
def Limits (C : String → Machine → Prop) (p : Exec α) (m : Machine) : Prop :=
  m.output.room = none → ∃ bytes, LimitsAt C p m bytes

namespace Limits

theorem imp {p : Exec α} (h : Limits C p m) (himp : ∀ text s, C text s → D text s) :
    Limits D p m := by
  intro hm
  obtain ⟨bytes, hbytes⟩ := h hm
  refine ⟨bytes, { hbytes with short := fun room hroom => ?_ }⟩
  obtain ⟨before, text, s, hC, hshort⟩ := hbytes.short room hroom
  exact ⟨before, text, s, himp text s hC, hshort⟩

/-- A step that prints nothing and does not look at the room. -/
theorem silent {p : Exec α} (houtput : (left (p m)).output = m.output)
    (hscope : (left (p m)).scope = m.scope)
    (hroom : ∀ room, p (m.withRoom room) = resultWithRoom room (p m)) : Limits C p m := by
  intro hm
  refine ⟨.empty, ?_, ?_, hscope, fun room _ => hroom _, fun room h => absurd h (Nat.not_lt_zero _)⟩
  · rw [Machine.Printed, houtput, ByteArray.append_empty]
  · rw [houtput, hm]

theorem pure (a : α) : Limits C (Pure.pure a) m := silent rfl rfl fun _ => rfl

private theorem outOfFuel : Limits C (throw .outOfFuel : Exec α) m := silent rfl rfl fun _ => rfl

theorem raise (token : Token) (cause : RuntimeCause) :
    Limits C (Exec.raise token cause : Exec α) m :=
  silent rfl rfl fun _ => rfl

private theorem ofOutcome (op : Token) (outcome : Outcome) :
    Limits C (Exec.ofOutcome op outcome) m := by
  cases outcome with
  | ok value => exact pure value
  | error cause => exact raise op cause

private theorem readClock : Limits C Exec.readClock m := silent rfl rfl fun _ => rfl

private theorem define (name : Token) (value : Value) : Limits C (Exec.define name value) m :=
  silent rfl rfl fun _ => rfl

private theorem makeFunction (name : Token) (params : List Token) (body : List Stmt) :
    Limits C (Exec.makeFunction name params body) m :=
  silent rfl rfl fun _ => rfl

private theorem fetch (name : Token) : Limits C (Exec.fetch name) m := by
  refine silent ?_ ?_ fun room => ?_
  · unfold Exec.fetch; split <;> rfl
  · unfold Exec.fetch; split <;> rfl
  · unfold Exec.fetch
    rw [Machine.store_withRoom, Machine.scope_withRoom]
    cases m.store.get? m.scope name.lexeme <;> rfl

private theorem assign (name : Token) (value : Value) : Limits C (Exec.assign name value) m := by
  refine silent ?_ ?_ fun room => ?_
  · rw [assign_apply]; split <;> rfl
  · rw [assign_apply]; split <;> rfl
  · rw [assign_apply, assign_apply, Machine.store_withRoom, Machine.scope_withRoom]
    cases m.store.resolve? m.scope name.lexeme <;> rfl

/-- The step that a limit can stop. -/
theorem emit (text : String) :
    Limits (fun text' s => text' = text ∧ s = m) (Exec.emit text) m := by
  intro hm
  have hwrite := Output.write_unlimited hm text
  have hemit : Exec.emit text m = .ok () (m.print text) := by rw [emit_apply, hwrite]
  have houtput : (m.print text).output = ⟨m.output.written ++ text.toUTF8, none⟩ := by
    rw [Machine.print, hwrite]
  refine ⟨text.toUTF8, ?_, ?_, ?_, fun room hroom => ?_, fun room hroom => ?_⟩
  · rw [hemit, Machine.Printed, left, houtput]
  · rw [hemit, left, houtput]
  · rw [hemit]; rfl
  · have hfits : (m.withRoom (some room)).output.write text = _ := Output.write_of_le hroom
    have hprint : (m.withRoom (some room)).print text =
        (m.print text).withRoom (some (room - text.toUTF8.size)) := by
      rw [Machine.print, hfits, Machine.print, hwrite]
      rfl
    rw [hemit, emit_apply, hfits, hprint, resultWithRoom]
  · have hcut : (m.withRoom (some room)).output.write text = _ := Output.write_of_lt hroom
    refine ⟨.empty, text, m, ⟨rfl, rfl⟩, ⟨m.printed_nothing, Nat.zero_le _, ?_, .empty, ?_⟩, ?_⟩
    · simpa using hroom
    · rw [ByteArray.empty_append, ByteArray.append_empty]
    · rw [emit_apply, hcut]
      rfl

/-- If the first step keeps within the limit, what is left of it is the limit of the next. -/
theorem bind {p : Exec α} {k : α → Exec β} (h : Limits C p m)
    (hk : ∀ a m₁, p m = .ok a m₁ → Limits C (k a) m₁) : Limits C (p >>= k) m := by
  intro hm
  obtain ⟨bytes, hp⟩ := h hm
  cases hfirst : p m with
  | error stop m₁ => exact ⟨bytes, hp.bind_error hfirst⟩
  | ok a m₁ =>
      have hm₁ : m₁.output.room = none := by
        have hunlimited := hp.unlimited
        rwa [hfirst] at hunlimited
      obtain ⟨more, hk⟩ := hk a m₁ hfirst hm₁
      exact ⟨bytes ++ more, hp.bind_ok hfirst hk⟩

theorem within {p : Exec α} {parent : ScopeId} {bindings : Bindings}
    (h : Limits C p (m.enter parent bindings)) : Limits C (Exec.within parent bindings p) m := by
  intro hm
  obtain ⟨bytes, hp⟩ := h hm
  have henter (room : Option Nat) : (m.withRoom room).enter parent bindings =
      (m.enter parent bindings).withRoom room := rfl
  have hleft : left (Exec.within parent bindings p m) =
      (left (p (m.enter parent bindings))).resume m.scope := by
    rw [within_apply]
    cases p (m.enter parent bindings) <;> rfl
  refine ⟨bytes, ?_, ?_, ?_, fun room hroom => ?_, fun room hroom => ?_⟩
  · rw [hleft]; exact hp.printed
  · rw [hleft]; exact hp.unlimited
  · rw [hleft]; rfl
  · rw [within_apply, within_apply, henter, hp.enough room hroom]
    cases p (m.enter parent bindings) <;> rfl
  · obtain ⟨before, text, s, hC, hoverflows, hstop⟩ := hp.short room hroom
    refine ⟨before, text, s, hC, ⟨hoverflows.printed, hoverflows.fits, hoverflows.passes,
      hoverflows.follows⟩, ?_⟩
    rw [within_apply, henter, hstop]
    rfl

private theorem nested {p : Exec α} (h : Limits C p (m.enter m.scope [])) :
    Limits C (Exec.nested p) m := by
  intro hm
  obtain ⟨bytes, hp⟩ := h.within hm
  exact ⟨bytes, hp.printed, hp.unlimited, hp.scope, hp.enough, hp.short⟩

end Limits

/-! ### Stages with a limit

A print that does not fit is one that some stage comes to, unless the job is a print
itself.  So a step whose stages are among those of a job is stopped, if it is, at a print
that the job comes to.
-/

/-- One of the stages comes to print a text on this machine. -/
def OneComesToPrint (n : Nat) (stages : List Stage) (text : String) (s : Machine) : Prop :=
  ∃ stage ∈ stages, stage.job.ComesToPrint n stage.machine text s

namespace Limits

variable {n : Nat} {part : Job} {held : List Value} {suspended : List ScopeId} {p : Exec α}
  {k : α → Exec β}

/-- What stages of a job come to print, the job comes to print. -/
theorem of_stages {job : Job} (h : Limits (OneComesToPrint n (job.stages n m)) p m) :
    Limits (job.ComesToPrint (n + 1) m) p m :=
  h.imp fun _ _ ⟨_, hstage, hcomes⟩ => .stage hstage hcomes

/-- The last stage, whose results are those of the whole. -/
theorem passing (h : Limits (part.ComesToPrint n m) p m) :
    Limits (OneComesToPrint n [⟨part, m, held, suspended⟩]) p m :=
  h.imp fun _ _ hcomes => ⟨_, List.mem_cons_self, hcomes⟩

/-- A stage, and then the stages that come after it. -/
theorem stage {next : α → Machine → List Stage} (h : Limits (part.ComesToPrint n m) p m)
    (hk : ∀ a m₁, p m = .ok a m₁ → Limits (OneComesToPrint n (next a m₁)) (k a) m₁) :
    Limits (OneComesToPrint n (⟨part, m, held, suspended⟩ :: after next (p m))) (p >>= k) m := by
  have hfirst := h.imp (D := OneComesToPrint n (⟨part, m, held, suspended⟩ :: after next (p m)))
    fun _ _ hcomes => ⟨_, List.mem_cons_self, hcomes⟩
  refine hfirst.bind fun a m₁ hp => (hk a m₁ hp).imp ?_
  rintro text s ⟨stage, hstage, hcomes⟩
  rw [hp]
  exact ⟨stage, List.mem_cons_of_mem _ hstage, hcomes⟩

/-- The last stage, behind which nothing more is printed. -/
theorem lastStage (h : Limits (part.ComesToPrint n m) p m)
    (hk : ∀ a m₁, Limits (OneComesToPrint n [⟨part, m, held, suspended⟩]) (k a) m₁) :
    Limits (OneComesToPrint n [⟨part, m, held, suspended⟩]) (p >>= k) m :=
  h.passing.bind fun a m₁ _ => hk a m₁

end Limits

/-! ### The evaluator

Each case of the evaluator is taken apart into its stages, and the elementary steps
between them print nothing.  The one exception is the `print` statement, which prints
behind its only stage.
-/

/-- With this much fuel, a limit cuts the output of every function of the evaluator, and nothing
else. -/
structure LimitsWithin (n : Nat) : Prop where
  evaluate : ∀ e m, Limits (Job.ComesToPrint n (.evaluate e) m) (evaluate n e) m
  evaluateAll : ∀ es m, Limits (Job.ComesToPrint n (.evaluateAll es) m) (evaluateAll n es) m
  call : ∀ f values m, Limits (Job.ComesToPrint n (.call f values) m) (call n f values) m
  execute : ∀ s m, Limits (Job.ComesToPrint n (.execute s) m) (execute n s) m
  executeAll : ∀ ss m, Limits (Job.ComesToPrint n (.executeAll ss) m) (executeAll n ss) m

private theorem limitsWithin_zero : LimitsWithin 0 where
  evaluate _ _ := .outOfFuel
  evaluateAll _ _ := .outOfFuel
  call _ _ _ := .outOfFuel
  execute _ _ := .outOfFuel
  executeAll _ _ := .outOfFuel

private theorem limitsWithin_succ {n : Nat} (ih : LimitsWithin n) : LimitsWithin (n + 1) where
  evaluate e m := by
    refine .of_stages ?_
    cases e with
    | assign name value =>
        exact .lastStage (ih.evaluate value m) fun v m₁ =>
          (Limits.assign name v).bind fun _ _ _ => .pure v
    | binary left op right =>
        refine .stage (ih.evaluate left m) fun l m₁ _ => ?_
        exact .lastStage (ih.evaluate right m₁) fun r m₂ => .ofOutcome op _
    | call callee paren arguments =>
        refine .stage (ih.evaluate callee m) fun v m₁ _ => ?_
        refine .stage (ih.evaluateAll arguments m₁) fun values m₂ _ => ?_
        cases hf : v.callee? with
        | none => exact .raise paren .notCallable
        | some f =>
            simp only
            split
            next => exact .passing (ih.call f values m₂)
            next => exact .raise paren _
    | get object name => exact .raise name .propertyAccess
    | grouping inner => exact .passing (ih.evaluate inner m)
    | literal value => exact .pure _
    | logical left op right =>
        refine .stage (ih.evaluate left m) fun l m₁ _ => ?_
        cases hdecided : decidedByLeft op.kind l with
        | none => exact .raise op .unknownLogicalOperator
        | some decided =>
            cases decided with
            | true => exact .pure l
            | false => exact .passing (ih.evaluate right m₁)
    | set object name value => exact .raise name .propertyAssignment
    | super keyword method => exact .raise keyword .superKeyword
    | this keyword => exact .raise keyword .thisKeyword
    | unary op right =>
        exact .lastStage (ih.evaluate right m) fun r m₁ => .ofOutcome op _
    | var name => exact .fetch name
  evaluateAll es m := by
    refine .of_stages ?_
    cases es with
    | nil => exact .pure []
    | cons e es =>
        refine .stage (ih.evaluate e m) fun v m₁ _ => ?_
        exact .lastStage (ih.evaluateAll es m₁) fun vs m₂ => .pure _
  call f values m := by
    refine .of_stages ?_
    cases f with
    | function f =>
        exact (ih.executeAll f.body _).passing.within.bind fun flow m₁ _ => .pure _
    | native f =>
        cases f
        exact Limits.readClock.bind fun now m₁ _ => .pure _
  execute s m := by
    cases s with
    | block body => exact .of_stages (ih.executeAll body _).passing.nested
    | expression value =>
        exact .of_stages (.lastStage (ih.evaluate value m) fun _ _ => .pure _)
    | function name params body =>
        exact (Limits.makeFunction name params body).bind fun f m₁ _ =>
          (Limits.define name f).bind fun _ _ _ => .pure _
    | conditional condition thenBranch elseBranch =>
        refine .of_stages (.stage (ih.evaluate condition m) fun c m₁ _ => ?_)
        split
        next => exact .passing (ih.execute thenBranch m₁)
        next =>
          cases elseBranch with
          | none => exact .pure _
          | some s => exact .passing (ih.execute s m₁)
    | print value =>
        -- The print itself is no stage.
        have hvalue : Limits (Job.ComesToPrint (n + 1) (.execute (.print value)) m)
            (evaluate n value) m := .of_stages (.passing (ih.evaluate value m))
        refine hvalue.bind fun v m₁ hv => ?_
        refine ((Limits.emit (v.text ++ "\n")).imp ?_).bind fun _ _ _ => .pure _
        rintro text s ⟨rfl, rfl⟩
        exact .print hv
    | return_ keyword value =>
        cases value with
        | none => exact .pure _
        | some value =>
            exact .of_stages (.lastStage (ih.evaluate value m) fun v m₁ => .pure _)
    | var name initializer =>
        cases initializer with
        | none => exact (Limits.define name .nil).bind fun _ _ _ => .pure _
        | some value =>
            exact .of_stages (.lastStage (ih.evaluate value m) fun v m₁ =>
              (Limits.define name v).bind fun _ _ _ => .pure _)
    | loop condition body =>
        refine .of_stages (.stage (ih.evaluate condition m) fun c m₁ _ => ?_)
        split
        next =>
          refine .stage (ih.execute body m₁) fun flow m₂ _ => ?_
          cases flow with
          | normal => exact .passing (ih.execute _ m₂)
          | returned v => exact .pure _
        next => exact .pure _
  executeAll ss m := by
    refine .of_stages ?_
    cases ss with
    | nil => exact .pure _
    | cons s ss =>
        refine .stage (ih.execute s m) fun flow m₁ _ => ?_
        cases flow with
        | normal => exact .passing (ih.executeAll ss m₁)
        | returned v => exact .pure _

theorem limitsWithin : ∀ n, LimitsWithin n
  | 0 => limitsWithin_zero
  | n + 1 => limitsWithin_succ (limitsWithin n)

end Exec

/-! ### Programs -/

namespace Machine

variable {m m' : Machine} {fuel : Nat} {program : List Stmt} {r : RunResult}

theorem left_executeAll (h : m.interpret fuel program = (r, m')) :
    Exec.left (Exec.executeAll fuel program m) = m' := by
  rw [interpret_eq] at h
  cases hend : Exec.executeAll fuel program m with
  | ok flow m₁ =>
      rw [hend] at h
      exact (Prod.mk.inj h).2
  | error stop m₁ =>
      rw [hend] at h
      cases stop <;> exact (Prod.mk.inj h).2

/-- A program that ends in the same way has the same result. -/
theorem interpret_of_resultWithRoom {m₁ : Machine} {room : Option Nat}
    (hsame : Exec.executeAll fuel program m₁ =
      Exec.resultWithRoom room (Exec.executeAll fuel program m))
    (h : m.interpret fuel program = (r, m')) :
    m₁.interpret fuel program = (r, m'.withRoom room) := by
  rw [interpret_eq] at h ⊢
  rw [hsame]
  cases hend : Exec.executeAll fuel program m with
  | ok flow m₂ =>
      rw [hend] at h
      cases h
      rfl
  | error stop m₂ =>
      rw [hend] at h
      cases stop <;> (cases h; rfl)

/-- **A limit cuts the output of a program and nothing else.**  If there is room for all that the
program prints without a limit then the result is the same, and so is the machine but for the
room.  If not, the program stops at the print that does not fit, and the machine is the one on
which the program without a limit comes to that print, back in the scope in which it started;
what is printed is the first bytes that there is room for. -/
theorem Interprets.limited (h : (m.withRoom none).Interprets program r m') (room : Nat) :
    ∃ bytes, m.Printed bytes m' ∧
      (bytes.size ≤ room → (m.withRoom (some room)).Interprets program r
        (m'.withRoom (some (room - bytes.size)))) ∧
      (room < bytes.size → ∃ before text s,
        (m.withRoom none).ComesToPrint program text s ∧ m.Overflows room bytes before text s ∧
        (m.withRoom (some room)).Interprets program (.stopped .outputFull)
          { s with
            scope := m.scope
            output := ⟨m.output.written ++ bytes.extract 0 room, some 0⟩ }) := by
  obtain ⟨fuel, hrun, hr⟩ := h
  obtain ⟨bytes, hlimits⟩ := (Exec.limitsWithin fuel).executeAll program (m.withRoom none) rfl
  refine ⟨bytes, ?_, fun hroom => ?_, fun hroom => ?_⟩
  · have hprinted := hlimits.printed
    rwa [left_executeAll hrun] at hprinted
  · exact ⟨fuel, interpret_of_resultWithRoom (hlimits.enough room hroom) hrun, hr⟩
  · obtain ⟨before, text, s, hcomes, hoverflows, hstop⟩ := hlimits.short room hroom
    refine ⟨before, text, s, ⟨fuel, hcomes⟩, ⟨hoverflows.printed, hoverflows.fits,
      hoverflows.passes, hoverflows.follows⟩, fuel, ?_, nofun⟩
    have hstop' : Exec.executeAll fuel program (m.withRoom (some room)) = _ := hstop
    rw [interpret_eq, hstop', hoverflows.cutOff_eq]
    rfl

private theorem interprets_of_fst (fuel : Nat) (h : (m.interpret fuel program).1 = r)
    (hr : r ≠ .unfinished) : m.Interprets program r (m.interpret fuel program).2 := by
  refine ⟨fuel, ?_, hr⟩
  rw [← h]

/-- A machine on which nothing has run. -/
def fresh : Machine := start (fun _ => default) none

/-- A program that prints, and prints in the argument of a call that goes wrong then. -/
def printsInArgument : List Stmt :=
  let f : Token := ⟨.identifier, "f", 1⟩
  let paren : Token := ⟨.symbol .rightParen, ")", 1⟩
  [.print (.literal (.bool true)),
    .function f [] [.print (.literal .nil)],
    .expression (.call (.var f) paren [.call (.var f) paren []])]

/-- With room for seven bytes the second print is cut, and the call does not come to go wrong. -/
theorem Interprets.limited_printsInArgument :
    (fresh.withRoom none).Interprets printsInArgument
        (.stopped (.raised ⟨.symbol .rightParen, ")", 1⟩ (.wrongArgumentCount 0 1)))
        ((fresh.withRoom none).interpret 12 printsInArgument).2 ∧
      ∃ s, (fresh.withRoom (some 7)).Interprets printsInArgument (.stopped .outputFull) s ∧
        s.output.written = "true\nni".toUTF8 := by
  have hends : (fresh.withRoom none).Interprets printsInArgument
      (.stopped (.raised ⟨.symbol .rightParen, ")", 1⟩ (.wrongArgumentCount 0 1)))
      ((fresh.withRoom none).interpret 12 printsInArgument).2 :=
    interprets_of_fst 12 (by decide +kernel) nofun
  have hwritten : ((fresh.withRoom none).interpret 12 printsInArgument).2.output.written =
      "true\nnil\n".toUTF8 := by decide +kernel
  refine ⟨hends, ?_⟩
  obtain ⟨bytes, hprinted, -, hshort⟩ := hends.limited 7
  have hbytes : "true\nnil\n".toUTF8 = bytes := by
    rw [← hwritten, hprinted]
    exact ByteArray.empty_append
  subst hbytes
  obtain ⟨before, text, s, -, -, hstopped⟩ := hshort (by decide +kernel)
  have hcut : fresh.output.written ++ "true\nnil\n".toUTF8.extract 0 7 = "true\nni".toUTF8 := by
    decide +kernel
  exact ⟨_, hstopped, hcut⟩

end Machine

end Lox
