/-
The scope a run starts in is the one it ends in.

The current scope is changed in one place only, where a block or a call gets a scope
of its own, and there it is changed back whichever way the block or call ends.  So
what runs is inside a scope as long as it runs, and afterwards the machine stands
where it stood: nested as it may be, and whether it went through, returned, failed,
or could not print.
-/
import Lox.Proofs.Session.Printing

namespace Lox

/-- The machine stands where it stood. -/
structure Machine.ComesBack (m m' : Machine) : Prop where
  /-- The current scope has the number that it had. -/
  scope : m'.scope = m.scope
  /-- No scope was taken away or put elsewhere in between, and bytes were only added. -/
  advances : m.Advances m'

namespace Exec

variable {α : Type}

theorem comesBack_of_keeps {A : Machine → α → Prop} {m : Machine}
    {r : EStateM.Result Stop Machine α} (h : advancing.Keeps A m r) : m.ComesBack (left r) :=
  ⟨h.left.2.2, h.left.2.1⟩

theorem evaluate_comesBack (m : Machine) (fuel : Nat) (e : Expr) :
    m.ComesBack (left (evaluate fuel e m)) :=
  comesBack_of_keeps (advancing.evaluate_keeps fuel e trivial)

theorem execute_comesBack (m : Machine) (fuel : Nat) (s : Stmt) :
    m.ComesBack (left (execute fuel s m)) :=
  comesBack_of_keeps (advancing.execute_keeps fuel s trivial)

theorem executeAll_comesBack (m : Machine) (fuel : Nat) (ss : List Stmt) :
    m.ComesBack (left (executeAll fuel ss m)) :=
  comesBack_of_keeps (advancing.executeAll_keeps fuel ss trivial)

/-- Statements in a scope of their own, wherever it is and whatever is bound in it. -/
theorem within_comesBack (m : Machine) (parent : ScopeId) (bindings : Bindings) (fuel : Nat)
    (ss : List Stmt) : m.ComesBack (left (within parent bindings (executeAll fuel ss) m)) := by
  have hinner := advancing.executeAll_keeps fuel ss (m := m.enter parent bindings) trivial
  have hkeeps := Law.Keeps.within (A := fun _ _ => True) (m := m) trivial
    (Machine.Advances.enter m parent bindings) (fun _ _ _ _ => trivial)
    (hinner.imp fun _ _ _ => trivial)
  exact comesBack_of_keeps hkeeps

/-- **However an expression, a statement, statements, a block, a call or a program ends, the
machine is in the scope in which it started, and only bytes were added to the output.** -/
theorem comesBack_however_it_ends (m : Machine) (fuel : Nat) :
    (∀ e, m.ComesBack (left (evaluate fuel e m))) ∧
    (∀ s, m.ComesBack (left (execute fuel s m))) ∧
    (∀ ss, m.ComesBack (left (executeAll fuel ss m))) ∧
    (∀ parent bindings ss,
      m.ComesBack (left (within parent bindings (executeAll fuel ss) m))) ∧
    (∀ f values, m.ComesBack (left (call fuel f values m))) ∧
    (∀ program, m.ComesBack (left (interpret fuel program m))) := by
  refine ⟨evaluate_comesBack m fuel, execute_comesBack m fuel, executeAll_comesBack m fuel,
    fun parent bindings ss => within_comesBack m parent bindings fuel ss,
    fun f values => ?_, fun program => ?_⟩
  · exact comesBack_of_keeps (advancing.call_keeps fuel trivial (fun _ _ => trivial)
      fun _ _ _ _ => trivial)
  · exact comesBack_of_keeps (advancing.interpret_keeps fuel program trivial)

end Exec

end Lox
