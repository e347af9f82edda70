/-
Output only grows.

No step takes back what was written: after it the output is what it was, with some
bytes behind it.  Nor is a scope ever taken away or put inside other ones.  That is a
law, so it is enough to look at the elementary steps.
-/
import Lox.Proofs.Evaluation.Law
import Lox.Session

namespace Lox

/-- The machine's output is what it was, with these bytes behind it. -/
def Machine.Printed (m : Machine) (bytes : ByteArray) (m' : Machine) : Prop :=
  m'.output.written = m.output.written ++ bytes

theorem Machine.printed_nothing (m : Machine) : m.Printed .empty m := by simp [Printed]

theorem Machine.Printed.trans {m₁ m₂ m₃ : Machine} {bytes more : ByteArray}
    (h : m₁.Printed bytes m₂) (h' : m₂.Printed more m₃) : m₁.Printed (bytes ++ more) m₃ := by
  unfold Printed at *
  rw [h', h, ByteArray.append_assoc]

private theorem Output.write_appends (output : Output) (text : String) :
    ∃ bytes, (output.write text).1.written = output.written ++ bytes := by
  obtain ⟨written, room⟩ := output
  cases room with
  | none => exact ⟨_, rfl⟩
  | some room => exact ⟨_, rfl⟩

/-! ### What becomes of a machine -/

/-- A later state of a machine. -/
structure Machine.Advances (m m' : Machine) : Prop where
  /-- More may be printed. -/
  printed : ∃ bytes, m.Printed bytes m'
  /-- There may be more scopes. -/
  size : m.store.size ≤ m'.store.size
  /-- Those that were there are inside the same ones as before. -/
  chain : ∀ id < m.store.size, m'.store.chain id = m.store.chain id

namespace Machine.Advances

/-- Only the output and the store count. -/
theorem of_same {m m' : Machine} (houtput : m'.output = m.output) (hstore : m'.store = m.store) :
    m.Advances m' := by
  refine ⟨⟨.empty, ?_⟩, Nat.le_of_eq (by rw [hstore]), fun id _ => by rw [hstore]⟩
  rw [Printed, houtput, ByteArray.append_empty]

theorem trans {m₁ m₂ m₃ : Machine} (h : m₁.Advances m₂) (h' : m₂.Advances m₃) :
    m₁.Advances m₃ := by
  obtain ⟨bytes, hbytes⟩ := h.printed
  obtain ⟨more, hmore⟩ := h'.printed
  refine ⟨⟨bytes ++ more, hbytes.trans hmore⟩, Nat.le_trans h.size h'.size, fun id hid => ?_⟩
  rw [h'.chain id (Nat.lt_of_lt_of_le hid h.size), h.chain id hid]

theorem print (m : Machine) (text : String) : m.Advances (m.print text) :=
  ⟨m.output.write_appends text, Nat.le_refl _, fun _ _ => rfl⟩

theorem write (m : Machine) (id : ScopeId) (name : String) (value : Value) :
    m.Advances (m.write id name value) := by
  refine ⟨⟨.empty, ?_⟩, Nat.le_of_eq (m.size_write id name value).symm,
    fun j _ => m.chain_write id name value j⟩
  show m.output.written = m.output.written ++ ByteArray.empty
  rw [ByteArray.append_empty]

theorem enter (m : Machine) (parent : ScopeId) (bindings : Bindings) :
    m.Advances (m.enter parent bindings) := by
  have hsize := m.size_enter parent bindings
  refine ⟨⟨.empty, ?_⟩, by omega, fun id hid => ?_⟩
  · show m.output.written = m.output.written ++ ByteArray.empty
    rw [ByteArray.append_empty]
  · rw [chain_enter, if_neg (Nat.ne_of_lt hid)]

end Machine.Advances

/-- Every machine advances, whatever it runs. -/
def advancing : Law where
  Holds _ := True
  Grows := Machine.Advances
  Admits _ _ := True
  refl _ := .of_same rfl rfl
  trans := .trans
  resume _ h := h.trans (.of_same rfl rfl)
  admits _ _ := trivial
  print text _ := ⟨trivial, .print _ text⟩
  tick _ := ⟨trivial, .of_same rfl rfl⟩
  fetch _ _ _ := trivial
  write name _ _ _ := ⟨trivial, .write _ _ name _⟩
  make _ _ _ _ := ⟨trivial, .of_same rfl rfl, trivial⟩
  enter parent bindings _ _ _ := ⟨trivial, .enter _ parent bindings⟩
  leave _ _ _ := trivial

namespace Machine

/-- The machine that running a program leaves. -/
theorem snd_interpret (m : Machine) (fuel : Nat) (program : List Stmt) :
    (m.interpret fuel program).2 = Exec.left (Exec.interpret fuel program m) := by
  unfold interpret
  cases Exec.interpret fuel program m with
  | ok a m' => rfl
  | error stop m' => cases stop <;> rfl

theorem interpret_prints (m : Machine) (fuel : Nat) (program : List Stmt) :
    ∃ bytes, m.Printed bytes (m.interpret fuel program).2 := by
  rw [snd_interpret]
  exact (advancing.interpret_keeps fuel program trivial).left.2.1.printed

/-- **However a source is run, the output it leaves is the one before with bytes behind it.** -/
theorem run_prints (m : Machine) (fuel : Nat) (source : String) :
    ∃ bytes, m.Printed bytes (m.run fuel source).2 := by
  unfold run
  simp only
  split
  · exact m.interpret_prints fuel _
  · exact ⟨.empty, m.printed_nothing⟩

end Machine

end Lox
