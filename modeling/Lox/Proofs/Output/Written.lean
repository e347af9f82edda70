/-
What was written before makes no difference.

No step reads what is written.  Printing depends on the room that is left, and puts a
text behind whatever is there.  So a program can be run on a machine with other bytes
written on it: it ends in the same way, it prints the same, and the machine it leaves is
the same but for the bytes that were there before.

Both runs make the same functions, so this is a comparison in which functions count as
the same if they are equal.  What a step prints is what it prints in the first run.
-/
import Lox.Proofs.Session.Joined

namespace Lox

/-! ### Values that are equal -/

theorem Value.Related.eq {v w : Value} (h : v.Related Eq w) : v = w := by
  cases h with
  | function hf => rw [hf]
  | _ => rfl

private theorem Value.Related.eq_of_all {vs ws : List Value} (h : List.Forall₂ (Related Eq) vs ws) :
    vs = ws := by
  induction h with
  | nil => rfl
  | cons hv _ ih => rw [hv.eq, ih]

private theorem Value.related_eq_self (v : Value) : v.Related Eq v := by
  cases v with
  | nil => exact .nil
  | bool b => exact .bool b
  | number n => exact .number n
  | string s => exact .string s
  | native f => exact .native f
  | function f => exact .function rfl

/-! ### Machines with other output

The comparison is of a run with itself on a machine with other bytes written.  What was
printed since the start is kept along, for it stands behind the bytes of each of the two
machines.
-/

/-- The machine with these bytes written in the place of its own. -/
def Machine.withWritten (m : Machine) (bytes : ByteArray) : Machine :=
  { m with output := { m.output with written := bytes } }

/-- Whether a text fits depends on the room alone, and so does how much of it does. -/
theorem Output.write_withWritten (output : Output) (text : String) : ∃ bytes,
    (output.write text).1.written = output.written ++ bytes ∧ ∀ before,
      Output.write { output with written := before } text =
        ({ (output.write text).1 with written := before ++ bytes }, (output.write text).2) := by
  obtain ⟨written, room⟩ := output
  cases room with
  | none => exact ⟨_, rfl, fun _ => rfl⟩
  | some room => exact ⟨_, rfl, fun _ => rfl⟩

namespace Exec

variable {α β : Type} {A : α → α → Prop} {B : β → β → Prop} {m m₁ : Machine} {before : ByteArray}

/-- Both steps end alike.  The first prints something on the machine, and the second leaves the same
machine with this printed behind other bytes. -/
inductive SameBehind (A : α → α → Prop) (m : Machine) (before : ByteArray) :
    EStateM.Result Stop Machine α → EStateM.Result Stop Machine α → Prop where
  | ok {a b : α} (m₁ : Machine) {bytes : ByteArray} (hprinted : m.Printed bytes m₁) (h : A a b) :
      SameBehind A m before (.ok a m₁) (.ok b (m₁.withWritten (before ++ bytes)))
  | error {stop : Stop} (m₁ : Machine) {bytes : ByteArray} (hprinted : m.Printed bytes m₁) :
      SameBehind A m before (.error stop m₁) (.error stop (m₁.withWritten (before ++ bytes)))

namespace SameBehind

/-- A step that prints nothing. -/
theorem silentOk {a b : α} (m₁ : Machine) (houtput : m₁.output = m.output) (h : A a b) :
    SameBehind A m before (.ok a m₁) (.ok b (m₁.withWritten before)) := by
  have hprinted : m.Printed .empty m₁ := by rw [Machine.Printed, houtput, ByteArray.append_empty]
  have hsame : SameBehind A m before (.ok a m₁) (.ok b (m₁.withWritten (before ++ .empty))) :=
    .ok m₁ hprinted h
  rwa [ByteArray.append_empty] at hsame

/-- A step that prints nothing and stops. -/
theorem silentError {stop : Stop} (m₁ : Machine) (houtput : m₁.output = m.output) :
    SameBehind A m before (.error stop m₁) (.error stop (m₁.withWritten before)) := by
  have hprinted : m.Printed .empty m₁ := by rw [Machine.Printed, houtput, ByteArray.append_empty]
  have hsame : SameBehind A m before (.error stop m₁)
      (.error stop (m₁.withWritten (before ++ .empty))) := .error m₁ hprinted
  rwa [ByteArray.append_empty] at hsame

/-- What was printed before the first of two steps and by it was printed before the second. -/
theorem behind {bytes : ByteArray} {r r' : EStateM.Result Stop Machine α}
    (hprinted : m.Printed bytes m₁) (h : SameBehind A m₁ (before ++ bytes) r r') :
    SameBehind A m before r r' := by
  cases h with
  | ok m₂ hmore hA =>
      rw [ByteArray.append_assoc]
      exact .ok m₂ (hprinted.trans hmore) hA
  | error m₂ hmore =>
      rw [ByteArray.append_assoc]
      exact .error m₂ (hprinted.trans hmore)

theorem within {p q : Exec α} {parent : ScopeId} {bindings : Bindings}
    (h : SameBehind A (m.enter parent bindings) before (p (m.enter parent bindings))
      (q ((m.enter parent bindings).withWritten before))) :
    SameBehind A m before (Exec.within parent bindings p m)
      (Exec.within parent bindings q (m.withWritten before)) := by
  have henter : (m.withWritten before).enter parent bindings =
      (m.enter parent bindings).withWritten before := rfl
  rw [within_apply, within_apply, henter]
  generalize p (m.enter parent bindings) = r at h
  generalize q ((m.enter parent bindings).withWritten before) = r' at h
  cases h with
  | ok m₁ hprinted hA => exact .ok (m₁.resume m.scope) hprinted hA
  | error m₁ hprinted => exact .error (m₁.resume m.scope) hprinted

end SameBehind

/-- A run compared with the same run behind other bytes. -/
def rewriting : Comparison where
  World := Unit
  Grows _ _ := True
  functions _ := Eq
  Related _ A p q := ∀ m before, SameBehind (A ()) m before (p m) (q (m.withWritten before))
  grow _ hf := hf
  congruent _ := ⟨fun h => by rw [h], fun h => by rw [h], fun h => by rw [h],
    fun h h' => by rw [h, h']⟩
  pure h m _ := .silentOk m rfl (h () trivial)
  bind {_ _ _ _ _ p q k l} hp hk := by
    intro m before
    have hfirst := hp m before
    show SameBehind _ m before (EStateM.bind p k m) (EStateM.bind q l (m.withWritten before))
    rw [EStateM.bind, EStateM.bind]
    generalize p m = r at hfirst
    generalize q (m.withWritten before) = r' at hfirst
    cases hfirst with
    | @ok a b m₁ bytes hprinted hA => exact (hk () a b trivial hA m₁ _).behind hprinted
    | error m₁ hprinted => exact .error m₁ hprinted
  outOfFuel m _ := .silentError m rfl
  raise _ _ m _ := .silentError m rfl
  emit _ text m before := by
    obtain ⟨bytes, hprinted, hwrite⟩ := m.output.write_withWritten text
    have hprint : (m.withWritten before).print text =
        (m.print text).withWritten (before ++ bytes) := by
      show { m with output := (Output.write { m.output with written := before } text).1 } = _
      rw [hwrite]
      rfl
    have hfits : ((m.withWritten before).output.write text).2 = (m.output.write text).2 := by
      show (Output.write { m.output with written := before } text).2 = _
      rw [hwrite]
    rw [emit_apply, emit_apply, hprint, hfits]
    cases (m.output.write text).2 with
    | true => exact .ok (m.print text) hprinted trivial
    | false => exact .error (m.print text) hprinted
  readClock _ m _ := .silentOk m.tick rfl rfl
  fetch _ name m before := by
    show SameBehind _ m before (Exec.fetch name m) (Exec.fetch name (m.withWritten before))
    unfold Exec.fetch
    show SameBehind _ m before _ (match m.store.get? m.scope name.lexeme with
      | some v => .ok v (m.withWritten before)
      | none => raise name (.undefinedVariable name.lexeme) (m.withWritten before))
    cases m.store.get? m.scope name.lexeme with
    | none => exact .silentError m rfl
    | some v => exact .silentOk m rfl v.related_eq_self
  assign _ name v w hv m before := by
    rw [hv.eq, assign_apply, assign_apply]
    show SameBehind _ m before _ (match m.store.resolve? m.scope name.lexeme with
      | some j => .ok () ((m.write j name.lexeme w).withWritten before)
      | none => raise name (.undefinedVariable name.lexeme) (m.withWritten before))
    cases m.store.resolve? m.scope name.lexeme with
    | none => exact .silentError m rfl
    | some j => exact .silentOk (m.write j name.lexeme w) rfl trivial
  define _ name v w hv m _ := by
    rw [hv.eq]
    exact .silentOk (m.write m.scope name.lexeme w) rfl trivial
  makeFunction _ _ _ _ m _ := .silentOk m.countFunction rfl (.function rfl)
  within _ f g vs ws p q hf hvs hp m before := by
    rw [hf, Value.Related.eq_of_all hvs]
    exact .within (hp () _ before)
  nested _ p q hp m before := .within (hp () (m.enter m.scope []) before)

/-- Statements are executed alike behind other bytes. -/
theorem executeAll_withWritten (fuel : Nat) (ss : List Stmt) (m : Machine) (before : ByteArray) :
    SameBehind (Flow.Related Eq) m before (executeAll fuel ss m)
      (executeAll fuel ss (m.withWritten before)) :=
  (rewriting.evaluator fuel).executeAll () ss m before

end Exec

namespace Machine

variable {m m' : Machine} {fuel : Nat} {r : RunResult} {bytes : ByteArray}

theorem Printed.unique {more : ByteArray} (h : m.Printed bytes m') (h' : m.Printed more m') :
    bytes = more :=
  ByteArray.append_right_inj _ |>.mp (h.symm.trans h')

/-- **A program does the same whatever was written before, and prints the same behind it.** -/
theorem interpret_withWritten {program : List Stmt} (h : m.interpret fuel program = (r, m'))
    (hprinted : m.Printed bytes m') (before : ByteArray) :
    (m.withWritten before).interpret fuel program = (r, m'.withWritten (before ++ bytes)) := by
  have hsame := Exec.executeAll_withWritten fuel program m before
  rw [interpret_eq] at h ⊢
  generalize Exec.executeAll fuel program m = ends at h hsame
  generalize Exec.executeAll fuel program (m.withWritten before) = ends' at hsame
  cases hsame with
  | ok m₁ hmore _ =>
      cases h
      rw [hprinted.unique hmore]
  | @error stop m₁ _ hmore =>
      cases stop with
      | fault fault =>
          cases h
          rw [hprinted.unique hmore]
      | outOfFuel =>
          cases h
          rw [hprinted.unique hmore]

/-- The same of a source. -/
theorem run_withWritten {source : String} (h : m.run fuel source = (r, m'))
    (hprinted : m.Printed bytes m') (before : ByteArray) :
    (m.withWritten before).run fuel source = (r, m'.withWritten (before ++ bytes)) := by
  by_cases haccepted : Accepted source
  · rw [run_of_accepted haccepted] at h ⊢
    exact interpret_withWritten h hprinted before
  · rw [run_of_not_accepted haccepted] at h ⊢
    cases h
    have hnothing : bytes = .empty := hprinted.unique m.printed_nothing
    rw [hnothing, ByteArray.append_empty]

end Machine

end Lox
