/-
Scopes stay linked.

A scope knows the one directly around it, and a name is looked up by following these
links outwards.  Each of them leads to an older scope, so there is no going round in
circles: from wherever a program stands, and from whatever a function has captured, the
links lead to the global scope, and every look-up comes to an end.

No step ever breaks this.  The moments of a session are gone through by moves, and what
is around after a move was around before, or was made by it; so it is enough to look at
the elementary steps once more, for what is held and for what is suspended.
-/
import Mathlib.Data.List.Chain
import Lox.Proofs.Scopes.WellFormed
import Lox.Proofs.Session.History

namespace Lox

/-! ### Links

The store keeps a chain with each scope, and that is how a name is looked up.  Following
single links is another way to do it, and it would not have to end.  It does, since a
link leads to an older scope.
-/

namespace Store

/-- Following the links from a scope outwards, this is where a name is found. -/
inductive Finds (s : Store) (name : String) : ScopeId → Option ScopeId → Prop where
  | here {i : ScopeId} (h : ((s.bindings i).get? name).isSome) : Finds s name i (some i)
  | outward {i parent : ScopeId} {r : Option ScopeId} (h : (s.bindings i).get? name = none)
      (hlink : s.enclosing? i = some parent) (hr : Finds s name parent r) : Finds s name i r
  | nowhere {i : ScopeId} (h : (s.bindings i).get? name = none) (hlink : s.enclosing? i = none) :
      Finds s name i none

/-- From this scope the links lead to the global one. -/
structure Rooted (s : Store) (i : Nat) : Prop where
  /-- The scope exists. -/
  lt_size : i < s.size
  /-- The chain begins with it. -/
  first : (s.chain i).head? = some i
  /-- Each step of the chain is a link. -/
  links : (s.chain i).IsChain fun j k => s.enclosing? j = some k
  /-- The chain ends in the global scope. -/
  last : (s.chain i).getLast? = some globalScope

/-- All scopes but the global one are linked to older ones. -/
structure Linked (s : Store) : Prop where
  /-- There is a global scope. -/
  size_pos : 0 < s.size
  /-- It is inside no other. -/
  global : s.enclosing? globalScope = none
  /-- A scope is inside one that was made earlier, so the links cannot go round. -/
  older : ∀ i : Nat, i ≠ globalScope → i < s.size →
    ∃ parent : Nat, s.enclosing? i = some parent ∧ parent < i
  /-- They lead to the global scope from wherever one starts. -/
  rooted : ∀ i : Nat, i < s.size → s.Rooted i
  /-- Looking up a name by the links comes to an end, with the scope that `get?` and `assign?`
  use. -/
  finds : ∀ i : Nat, i < s.size → ∀ name r, s.Finds name i r ↔ s.resolve? i name = r

variable {s : Store} {name : String} {i : ScopeId} {r r' : Option ScopeId}

theorem Finds.unique (h : s.Finds name i r) (h' : s.Finds name i r') : r = r' := by
  induction h with
  | here hbound =>
      cases h' with
      | here => rfl
      | outward hfree | nowhere hfree =>
          rw [hfree] at hbound
          exact absurd hbound Bool.false_ne_true
  | outward hfree hlink _ ih =>
      cases h' with
      | here hbound =>
          rw [hfree] at hbound
          exact absurd hbound Bool.false_ne_true
      | outward _ hlink' hr' =>
          rw [hlink] at hlink'
          cases hlink'
          exact ih hr'
      | nowhere _ hnone => exact absurd (hlink.symm.trans hnone) (Option.some_ne_none _)
  | nowhere hfree hnone =>
      cases h' with
      | here hbound =>
          rw [hfree] at hbound
          exact absurd hbound Bool.false_ne_true
      | outward _ hlink => exact absurd (hlink.symm.trans hnone) (Option.some_ne_none _)
      | nowhere => rfl

namespace Nested

private theorem head?_chain (h : s.Nested) {i : Nat} (hi : i < s.size) :
    (s.chain i).head? = some i := by
  by_cases hglobal : i = globalScope
  · rw [hglobal, h.global]
    rfl
  · obtain ⟨parent, -, hchain⟩ := h.inside i hglobal hi
    rw [hchain]
    rfl

private theorem enclosing?_global (h : s.Nested) : s.enclosing? globalScope = none := by
  rw [enclosing?, h.global]
  rfl

theorem enclosing?_of_inside (h : s.Nested) {i parent : Nat} (hparent : parent < s.size)
    (hchain : s.chain i = i :: s.chain parent) : s.enclosing? i = some parent := by
  rw [enclosing?, hchain, List.tail_cons]
  exact h.head?_chain hparent

/-- From the global scope inwards. -/
theorem induction (h : s.Nested) {P : Nat → Prop} (hglobal : P globalScope)
    (hinside : ∀ i parent : Nat, i < s.size → parent < s.size → s.chain i = i :: s.chain parent →
      P parent → P i) : ∀ i : Nat, i < s.size → P i := by
  intro i
  induction i using Nat.strong_induction_on with
  | _ i ih =>
      intro hi
      by_cases hroot : i = globalScope
      · rw [hroot]
        exact hglobal
      · obtain ⟨parent, hparent, hchain⟩ := h.inside i hroot hi
        have hexists : parent < s.size := by omega
        exact hinside i parent hi hexists hchain (ih parent hparent hexists)

theorem rooted (h : s.Nested) : ∀ i : Nat, i < s.size → s.Rooted i := by
  refine h.induction ?_ fun i parent hi hparent hchain ih => ?_
  · constructor
    · exact h.size_pos
    all_goals rw [h.global]
    · rfl
    · exact .singleton _
    · rfl
  · constructor
    · exact hi
    all_goals rw [hchain]
    · rfl
    · refine List.isChain_cons.mpr ⟨fun k hk => ?_, ih.links⟩
      rw [h.enclosing?_of_inside hparent hchain, ← hk]
      exact ih.first.symm
    · rw [List.getLast?_cons, ih.last]
      rfl

/-- A name is looked up by following the links, and the way ends. -/
theorem finds_resolve? (h : s.Nested) (name : String) :
    ∀ i : Nat, i < s.size → s.Finds name i (s.resolve? i name) := by
  refine h.induction ?_ fun i parent _ hparent hchain ih => ?_
  · rw [resolve?, h.global]
    cases hbound : (s.bindings globalScope).get? name with
    | some v =>
        simp only [List.find?_cons, hbound, Option.isSome_some]
        exact .here (Option.isSome_of_eq_some hbound)
    | none =>
        simp only [List.find?_cons, hbound, Option.isSome_none, List.find?_nil]
        exact .nowhere hbound h.enclosing?_global
  · rw [resolve?, hchain]
    cases hbound : (s.bindings i).get? name with
    | some v =>
        simp only [List.find?_cons, hbound, Option.isSome_some]
        exact .here (Option.isSome_of_eq_some hbound)
    | none =>
        simp only [List.find?_cons, hbound, Option.isSome_none]
        exact .outward hbound (h.enclosing?_of_inside hparent hchain) ih

theorem linked (h : s.Nested) : s.Linked where
  size_pos := h.size_pos
  global := h.enclosing?_global
  older i hi hsize := by
    obtain ⟨parent, hparent, hchain⟩ := h.inside i hi hsize
    exact ⟨parent, h.enclosing?_of_inside (by omega) hchain, hparent⟩
  rooted := h.rooted
  finds i hi name r := by
    have hfinds := h.finds_resolve? name i hi
    constructor
    · exact fun hr => hfinds.unique hr
    · intro hr
      rwa [hr] at hfinds

end Nested

end Store

/-! ### Moments

In the middle of a run functions are held that are bound nowhere yet, or nowhere any
more, and scopes wait to be come back to.  Calling such a function or coming back makes
its scope the current one, so what is held counts as much as what is bound.
-/

/-- At this moment all is linked. -/
structure Moment.Linked (moment : Moment) : Prop where
  /-- The scopes are, whether or not anything still leads to them. -/
  scopes : moment.machine.store.Linked
  /-- So is the scope in which the machine stands. -/
  current : moment.machine.store.Rooted moment.machine.scope
  /-- So are those to come back to. -/
  suspended : ∀ c ∈ moment.suspended, moment.machine.store.Rooted c
  /-- So is what functions have captured, wherever they are. -/
  captured : ∀ f, moment.Around f → moment.machine.store.Rooted f.scope

/-- What stays for good. -/
structure Machine.Lasts (m m' : Machine) : Prop where
  /-- There are as many scopes or more. -/
  size : m.store.size ≤ m'.store.size
  /-- Those that were there have the links they had. -/
  enclosing : ∀ i : Nat, i < m.store.size → m'.store.enclosing? i = m.store.enclosing? i
  /-- What was bound in them is bound, though it may have other values. -/
  bound : ∀ i name, ((m.store.bindings i).get? name).isSome →
    ((m'.store.bindings i).get? name).isSome

namespace Machine.Lasts

/-- Only the store counts. -/
theorem of_same {m m' : Machine} (h : m'.store = m.store) : m.Lasts m' := by
  constructor
  · rw [h]
  · intro i _
    rw [h]
  · intro i name hbound
    rwa [h]

theorem trans {m₁ m₂ m₃ : Machine} (h : m₁.Lasts m₂) (h' : m₂.Lasts m₃) : m₁.Lasts m₃ where
  size := Nat.le_trans h.size h'.size
  enclosing i hi := by
    rw [h'.enclosing i (Nat.lt_of_lt_of_le hi h.size), h.enclosing i hi]
  bound i name hbound := h'.bound i name (h.bound i name hbound)

theorem write (m : Machine) (j : ScopeId) (name : String) (v : Value) :
    m.Lasts (m.write j name v) where
  size := Nat.le_of_eq (m.size_write j name v).symm
  enclosing i _ := by
    rw [Store.enclosing?, chain_write]
    rfl
  bound i n hbound := by
    rw [bindings_write]
    by_cases hplace : j = i ∧ i < m.store.size
    · rw [if_pos hplace, Bindings.get?_set]
      by_cases hname : n = name
      · rw [if_pos hname]
        rfl
      · rwa [if_neg hname]
    · rwa [if_neg hplace]

theorem enter (m : Machine) (parent : ScopeId) (bindings : Bindings) :
    m.Lasts (m.enter parent bindings) where
  size := by
    rw [size_enter]
    omega
  enclosing i hi := by
    rw [Store.enclosing?, chain_enter, if_neg (Nat.ne_of_lt hi)]
    rfl
  bound i name hbound := by
    -- The new scope is none of those in which something was bound.
    have hold : i ≠ m.store.size := by
      intro hnew
      rw [hnew, Store.bindings_eq_nil (Nat.le_refl _)] at hbound
      exact absurd hbound Bool.false_ne_true
    rwa [bindings_enter, if_neg hold]

end Machine.Lasts

namespace Moment

variable {a b : Moment}

theorem Move.lasts (h : a.Move b) : a.machine.Lasts b.machine := by
  have hchange := h.change
  generalize b.machine = m, b.made = made at hchange ⊢
  cases hchange with
  | stay | print | tick | resume | make => exact .of_same rfl
  | write => exact .write _ _ _ _
  | enter => exact .enter _ _ _

/-- A moment in which nothing refers to what does not exist. -/
structure Sound (moment : Moment) : Prop where
  /-- The machine is well formed. -/
  machine : moment.machine.WellFormed
  /-- The functions that are held or bound were made on it. -/
  made : ∀ f, moment.Around f → moment.machine.Made f
  /-- The scopes to come back to exist. -/
  suspended : ∀ c ∈ moment.suspended, c < moment.machine.store.size

theorem Sound.linked (h : a.Sound) : a.Linked where
  scopes := h.machine.nested.linked
  current := h.machine.nested.rooted _ h.machine.scope
  suspended c hc := h.machine.nested.rooted c (h.suspended c hc)
  captured f hf := h.machine.nested.rooted _ (h.made f hf).scope

/-- A machine at which nothing is held. -/
theorem Sound.holding {m : Machine} (h : m.WellFormed) : (Moment.holding m []).Sound where
  machine := h
  made f hf := by
    rcases hf with ⟨i, name, hbound⟩ | hheld
    · exact h.made i name f hbound
    · exact absurd hheld List.not_mem_nil
  suspended c hc := absurd hc List.not_mem_nil

private theorem Change.wellFormed {m : Machine} {made : Option Closure} (h : a.Change m made)
    (ha : a.Sound) : m.WellFormed ∧ a.machine.functions ≤ m.functions := by
  have hm := ha.machine
  have hheld : ∀ f, .function f ∈ a.held → a.machine.Made f := fun f hf => ha.made f (.inr hf)
  cases h with
  | stay => exact ⟨hm, Nat.le_refl _⟩
  | print | tick => exact ⟨hm.of_same rfl hm.scope (Nat.le_refl _), Nat.le_refl _⟩
  | write _ hv => exact ⟨hm.write _ _ fun f hf => hheld f (hv f hf), Nat.le_refl _⟩
  | resume hscope =>
      exact ⟨hm.of_same rfl (ha.suspended _ hscope) (Nat.le_refl _), Nat.le_refl _⟩
  | make => exact ⟨hm.of_same rfl hm.scope (Nat.le_succ _), Nat.le_succ _⟩
  | enter hparent hbindings =>
      refine ⟨hm.enter ?_ _ fun name f hf => hheld f (hbindings name f hf), Nat.le_refl _⟩
      rcases hparent with rfl | ⟨f, hf, rfl⟩
      · exact hm.scope
      · exact (hheld f hf).scope

/-- A function that was just made was made on the machine. -/
theorem Change.made {m : Machine} {f : Closure} (h : a.Change m (some f)) (ha : a.Sound) :
    m.Made f := by
  cases h with
  | make name params body => exact ⟨Nat.lt_succ_self _, ha.machine.scope⟩

/-- **A move keeps everything in its place.** -/
theorem Move.sound (h : a.Move b) (ha : a.Sound) : b.Sound := by
  obtain ⟨hmachine, hfunctions⟩ := h.change.wellFormed ha
  have hsize := h.lasts.size
  refine ⟨hmachine, fun f hf => ?_, fun c hc => ?_⟩
  · rcases h.around hf with hbefore | hmade
    · exact (ha.made f hbefore).mono hfunctions hsize
    · have hchange := h.change
      rw [hmade] at hchange
      exact hchange.made ha
  · rcases h.suspended c hc with hbefore | hcurrent
    · exact Nat.lt_of_lt_of_le (ha.suspended c hbefore) hsize
    · rw [hcurrent]
      exact Nat.lt_of_lt_of_le ha.machine.scope hsize

end Moment

/-- **The scopes of a session are linked at all times, and what is linked and bound stays so.**  At
every moment, in the middle of a run and after a fault too, every scope but the global one is
inside an older one, every look-up ends, and the links lead to the global scope from the current
scope and from what any function has captured.  From one moment to any later one no link changes
and no name is unbound. -/
theorem scopes_stay_linked (clock : Nat → Number) (room : Option Nat)
    (inputs : List (Nat × Input)) :
    (∀ moment ∈ (Machine.start clock room).history inputs, moment.Linked) ∧
    ((Machine.start clock room).history inputs).Pairwise
      fun earlier later => earlier.machine.Lasts later.machine := by
  obtain ⟨last, hpath⟩ := (Machine.start clock room).history_path inputs
  have hstart := Moment.Sound.holding (Machine.start_wellFormed clock room)
  constructor
  · intro moment hmem
    exact (hpath.invariant (fun h => h.sound) hstart moment hmem).linked
  · exact hpath.pairwise (fun h h' => h.trans h') fun h => h.lasts

/-- A function declared in a block has captured the scope of the block, which is inside the global
one. -/
theorem scopes_stay_linked_in_block :
    let name : Token := ⟨.identifier, "f", 1⟩
    let program := [Stmt.block [.function name [] []]]
    ∃ moment ∈ (Machine.start (fun _ => default) none).history [(4, .program program)],
      ∃ f : Closure, moment.Around f ∧ f.scope = 1 ∧
        moment.machine.store.enclosing? f.scope = some globalScope ∧ moment.Linked := by
  intro name program
  let m := Machine.start (fun _ => default) none
  let block := m.enter globalScope []
  have hmem : _ ∈ m.history [(4, .program program)] :=
    List.mem_append_left _ (Job.during_mem_trace (.alone (.execute _) m) List.mem_cons_self
      (Job.during_mem_trace _ List.mem_cons_self
        (Job.during_mem_trace (.alone (.execute _) block) List.mem_cons_self
          (List.mem_cons_of_mem _ List.mem_cons_self))))
  have hlinked := (scopes_stay_linked _ _ _).1 _ hmem
  exact ⟨_, hmem, block.newFunction name [] [], .inr List.mem_cons_self, rfl, rfl, hlinked⟩

end Lox
