/-
Machines as they come about.

A machine that has run something is not just any state.  Its scopes form a tree with
the global one at the root, each put inside an older one for good, and the functions
it holds were made on it: their scopes exist, and their numbers are ones already
given away.  A new machine is like that, and so is the machine at every moment of a
session, since every elementary step keeps it so.
-/
import Lox.Proofs.Session.Printing

namespace Lox

/-- Scopes inside one another. -/
structure Store.Nested (s : Store) : Prop where
  /-- The global scope is inside no other. -/
  global : s.chain globalScope = [globalScope]
  /-- Every other has one directly around it, which is older.  So a chain gets to its end. -/
  inside : ∀ i : Nat, i ≠ globalScope → i < s.size →
    ∃ parent : Nat, parent < i ∧ s.chain i = i :: s.chain parent

/-- The function was made on this machine. -/
structure Machine.Made (m : Machine) (f : Closure) : Prop where
  /-- Its number is one that has been given away. -/
  id : f.id < m.functions
  /-- The scope that it captured exists. -/
  scope : f.scope < m.store.size

/-- A machine in which nothing refers to what does not exist. -/
structure Machine.WellFormed (m : Machine) : Prop where
  /-- The scopes are nested. -/
  nested : m.store.Nested
  /-- The current one is one of them. -/
  scope : m.scope < m.store.size
  /-- All functions that are bound anywhere were made here. -/
  made : ∀ i name f, (name, .function f) ∈ m.store.bindings i → m.Made f

theorem Store.bindings_eq_nil {s : Store} {i : Nat} (h : s.size ≤ i) : s.bindings i = [] := by
  have hnone : s.scopes[i]? = none := Array.getElem?_eq_none_iff.mpr h
  unfold bindings
  rw [hnone]

theorem Store.chain_eq_nil {s : Store} {i : Nat} (h : s.size ≤ i) : s.chain i = [] := by
  have hnone : s.scopes[i]? = none := Array.getElem?_eq_none_iff.mpr h
  unfold chain
  rw [hnone]

namespace Store.Nested

variable {s : Store}

theorem size_pos (h : s.Nested) : 0 < s.size := by
  have hglobal := h.global
  unfold chain at hglobal
  by_cases hsize : 0 < s.size
  · exact hsize
  · have hnone : s.scopes[globalScope]? = none := by
      rw [Array.getElem?_eq_none_iff]
      exact Nat.le_of_not_lt hsize
    rw [hnone] at hglobal
    exact nomatch hglobal

theorem define (h : s.Nested) (id : ScopeId) (name : String) (value : Value) :
    (s.define id name value).Nested := by
  constructor
  · rw [chain_define]
    exact h.global
  · intro i hi hsize
    rw [size_define] at hsize
    obtain ⟨parent, hparent, hchain⟩ := h.inside i hi hsize
    exact ⟨parent, hparent, by rw [chain_define, chain_define, hchain]⟩

theorem pushChild (h : s.Nested) {parent : Nat} (hparent : parent < s.size)
    (bindings : Bindings) : (s.pushChild parent bindings).Nested := by
  have hpos := h.size_pos
  have hold : ∀ i : Nat, i < s.size → (s.pushChild parent bindings).chain i = s.chain i := by
    intro i hi
    unfold Store.pushChild
    rw [chain_push, if_neg (Nat.ne_of_lt hi)]
  constructor
  · rw [hold globalScope hpos]
    exact h.global
  · intro i hi hsize
    by_cases hnew : i = s.size
    · refine ⟨parent, by omega, ?_⟩
      rw [hold parent hparent]
      unfold Store.pushChild
      rw [chain_push, if_pos hnew]
    · have hbefore : i < s.size := by
        unfold Store.pushChild at hsize
        rw [size_push] at hsize
        omega
      obtain ⟨outer, houter, hchain⟩ := h.inside i hi hbefore
      exact ⟨outer, houter, by rw [hold i hbefore, hold outer (by omega), hchain]⟩

end Store.Nested

namespace Machine

variable {m m' : Machine} {f : Closure}

theorem Made.mono (h : m.Made f) (hfunctions : m.functions ≤ m'.functions)
    (hsize : m.store.size ≤ m'.store.size) : m'.Made f :=
  ⟨Nat.lt_of_lt_of_le h.id hfunctions, Nat.lt_of_lt_of_le h.scope hsize⟩

/-- Only the store, the current scope and the number of functions count. -/
theorem WellFormed.of_same (h : m.WellFormed) (hstore : m'.store = m.store)
    (hscope : m'.scope < m.store.size) (hfunctions : m.functions ≤ m'.functions) :
    m'.WellFormed := by
  have hsize : m.store.size ≤ m'.store.size := Nat.le_of_eq (by rw [hstore])
  constructor
  · rw [hstore]
    exact h.nested
  · exact Nat.lt_of_lt_of_le hscope hsize
  · intro i name f hmem
    rw [hstore] at hmem
    exact (h.made i name f hmem).mono hfunctions hsize

theorem WellFormed.write (h : m.WellFormed) (j : ScopeId) (name : String) {v : Value}
    (hv : ∀ f, v = .function f → m.Made f) : (m.write j name v).WellFormed := by
  have hsize := m.size_write j name v
  have hmade : ∀ f, m.Made f → (m.write j name v).Made f :=
    fun f hf => hf.mono (Nat.le_refl _) (Nat.le_of_eq hsize.symm)
  constructor
  · exact h.nested.define j name v
  · exact Nat.lt_of_lt_of_le h.scope (Nat.le_of_eq hsize.symm)
  · intro i n f hmem
    rcases mem_bindings_write hmem with hbefore | hvalue
    · exact hmade f (h.made i n f hbefore)
    · exact hmade f (hv f hvalue.symm)

theorem WellFormed.enter (h : m.WellFormed) {parent : ScopeId} (hparent : parent < m.store.size)
    (bindings : Bindings) (hbindings : ∀ name f, (name, .function f) ∈ bindings → m.Made f) :
    (m.enter parent bindings).WellFormed := by
  have hsize := m.size_enter parent bindings
  have hmade : ∀ f, m.Made f → (m.enter parent bindings).Made f :=
    fun f hf => hf.mono (Nat.le_refl _) (by omega)
  constructor
  · exact h.nested.pushChild hparent bindings
  · show m.store.size < (m.enter parent bindings).store.size
    omega
  · intro i name f hmem
    rcases mem_bindings_enter hmem with ⟨-, hnew⟩ | ⟨-, hold⟩
    · exact hmade f (hbindings name f hnew)
    · exact hmade f (h.made i name f hold)

/-- On a new machine everything is in its place. -/
theorem start_wellFormed (clock : Nat → Number) (room : Option Nat) :
    (start clock room).WellFormed := by
  have hsize : (start clock room).store.size = 1 := rfl
  refine ⟨⟨rfl, ?_⟩, Nat.zero_lt_one, ?_⟩
  · intro i hi hlt
    have hzero : i = 0 := by omega
    exact absurd hzero hi
  · intro i name f hmem
    have hbound : (name, .function f) ∈
        (Store.empty.push [] [(Native.clock.name, .native .clock)]).bindings i := hmem
    rw [Store.bindings_push] at hbound
    split at hbound
    · rw [List.mem_singleton, Prod.mk.injEq] at hbound
      exact nomatch hbound.2
    · exact absurd hbound List.not_mem_nil

end Machine

end Lox
