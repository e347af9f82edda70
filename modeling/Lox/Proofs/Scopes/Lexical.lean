/-
A call does not depend on who calls.

Take two machines that hold the same scopes and agree on those that a function and
its arguments reach.  Where each of them stands and what else its scopes hold makes
no difference to the call.  Inside, both stand in a scope of the function's own and
see only scopes they agree on, or new ones, and both have the same in all of these:
the machines are alike, and elementary steps keep them so.  What they make is the
same but for the numbers of the functions, which go on from where each machine was.

`call_lexically_scoped` says what comes of it.  What neither the function nor its
arguments reach stays as it was on either machine, by `Exec.call_untouched`.
-/
import Mathlib.Data.List.Find
import Lox.Proofs.Scopes.Correspondence
import Lox.Proofs.Scopes.Reach

namespace Lox

/-! ### Machines that do the same

What may differ between the two machines is out of view: other scopes, and what was
printed and made before.  What is compared is what happened since, together with what
decides how it goes on: the room that is left, the clock, and how the scopes lie.
-/

/-- Two machines have done the same since they were `m₁` and `m₂`, as far as this shows without
looking into scopes, and their clocks will go on showing the same. -/
structure Machine.InStep (m₁ m₂ m m' : Machine) : Prop where
  /-- The same bytes have been printed behind what there was. -/
  printed : ∃ bytes, m₁.Printed bytes m ∧ m₂.Printed bytes m'
  /-- There is as much room left. -/
  room : m'.output.room = m.output.room
  /-- The clocks have been read as often. -/
  readings : ∃ count, m.readings = m₁.readings + count ∧ m'.readings = m₂.readings + count
  /-- They will show the same in every reading to come. -/
  clock : ∀ k, m'.clock (m'.readings + k) = m.clock (m.readings + k)
  /-- As many functions have been made, counted from where each machine was. -/
  functions : ∃ count, m.functions = m₁.functions + count ∧ m'.functions = m₂.functions + count
  /-- There are as many scopes. -/
  size : m'.store.size = m.store.size
  /-- Each of them is inside the same ones. -/
  chain : ∀ i, m'.store.chain i = m.store.chain i

/-- What two machines that have done the same see is the same too, and leads to nothing else. -/
structure Machine.Alike (seen : ScopeId → Prop) (m₁ m₂ m m' : Machine) : Prop
    extends Machine.InStep m₁ m₂ m m' where
  /-- No scope is gone. -/
  grown : m₁.store.size ≤ m.store.size
  /-- What is in view is bound alike, but for the numbers of functions. -/
  bindings : ∀ i, m₁.InView seen i →
    (m.store.bindings i).Related (m₁.Corresponds seen m₂) (m'.store.bindings i)
  /-- The scopes around one that is in view are in view. -/
  encloses : ∀ i j, m₁.InView seen i → j ∈ m.store.chain i → m₁.InView seen j

/-- The same room leads to the same bytes being written. -/
theorem Output.write_of_room {o o' : Output} (h : o'.room = o.room) (text : String) :
    (o'.write text).2 = (o.write text).2 ∧ (o'.write text).1.room = (o.write text).1.room ∧
      ∃ bytes, (o.write text).1.written = o.written ++ bytes ∧
        (o'.write text).1.written = o'.written ++ bytes := by
  obtain ⟨written, room⟩ := o
  obtain ⟨written', room'⟩ := o'
  have hroom : room' = room := h
  rw [hroom]
  cases room with
  | none => exact ⟨rfl, rfl, _, rfl, rfl⟩
  | some room => exact ⟨rfl, rfl, _, rfl, rfl⟩

variable {seen : ScopeId → Prop} {m₁ m₂ m m' : Machine} {i : ScopeId} {v w : Value}

namespace Machine.InStep

theorem print (h : m₁.InStep m₂ m m') (text : String) :
    m₁.InStep m₂ (m.print text) (m'.print text) := by
  obtain ⟨-, hroom, more, hmore, hmore'⟩ := Output.write_of_room h.room text
  obtain ⟨bytes, hbytes, hbytes'⟩ := h.printed
  have hprinted : m.Printed more (m.print text) := hmore
  have hprinted' : m'.Printed more (m'.print text) := hmore'
  exact { h with
    printed := ⟨bytes ++ more, hbytes.trans hprinted, hbytes'.trans hprinted'⟩
    room := hroom }

theorem tick (h : m₁.InStep m₂ m m') : m₁.InStep m₂ m.tick m'.tick := by
  obtain ⟨count, hcount, hcount'⟩ := h.readings
  have hreadings : m.readings + 1 = m₁.readings + (count + 1) := by omega
  have hreadings' : m'.readings + 1 = m₂.readings + (count + 1) := by omega
  refine { h with readings := ⟨count + 1, hreadings, hreadings'⟩, clock := fun k => ?_ }
  show m'.clock (m'.readings + 1 + k) = m.clock (m.readings + 1 + k)
  rw [Nat.add_assoc, Nat.add_assoc]
  exact h.clock (1 + k)

theorem countFunction (h : m₁.InStep m₂ m m') :
    m₁.InStep m₂ m.countFunction m'.countFunction := by
  obtain ⟨count, hcount, hcount'⟩ := h.functions
  have hfunctions : m.functions + 1 = m₁.functions + (count + 1) := by omega
  have hfunctions' : m'.functions + 1 = m₂.functions + (count + 1) := by omega
  exact { h with functions := ⟨count + 1, hfunctions, hfunctions'⟩ }

theorem write (h : m₁.InStep m₂ m m') (j : ScopeId) (name : String) (v w : Value) :
    m₁.InStep m₂ (m.write j name v) (m'.write j name w) := by
  refine { h with size := ?_, chain := fun i => ?_ }
  · rw [size_write, size_write, h.size]
  · rw [chain_write, chain_write, h.chain]

theorem enter (h : m₁.InStep m₂ m m') (parent : ScopeId) (bindings other : Bindings) :
    m₁.InStep m₂ (m.enter parent bindings) (m'.enter parent other) := by
  refine { h with size := ?_, chain := fun i => ?_ }
  · rw [size_enter, size_enter, h.size]
  · rw [chain_enter, chain_enter, h.size, h.chain, h.chain]

end Machine.InStep

namespace Machine.Alike

theorem resume (h : m₁.Alike seen m₂ m m') (scope scope' : ScopeId) :
    m₁.Alike seen m₂ (m.resume scope) (m'.resume scope') :=
  { h with }

theorem write (h : m₁.Alike seen m₂ m m') (j : ScopeId) (name : String)
    (hv : v.Related (m₁.Corresponds seen m₂) w) :
    m₁.Alike seen m₂ (m.write j name v) (m'.write j name w) where
  toInStep := h.toInStep.write j name v w
  grown := by
    rw [size_write]
    exact h.grown
  bindings i hi := by
    rw [bindings_write, bindings_write, h.size]
    by_cases hplace : j = i ∧ i < m.store.size
    · rw [if_pos hplace, if_pos hplace]
      exact (h.bindings i hi).set name hv
    · rw [if_neg hplace, if_neg hplace]
      exact h.bindings i hi
  encloses i k hi hk := by
    rw [chain_write] at hk
    exact h.encloses i k hi hk

theorem enter (h : m₁.Alike seen m₂ m m') {parent : ScopeId} (hparent : m₁.InView seen parent)
    {bindings other : Bindings} (hbindings : bindings.Related (m₁.Corresponds seen m₂) other) :
    m₁.Alike seen m₂ (m.enter parent bindings) (m'.enter parent other) where
  toInStep := h.toInStep.enter parent bindings other
  grown := by
    have hgrown := h.grown
    have hsize := m.size_enter parent bindings
    omega
  bindings i hi := by
    rw [bindings_enter, bindings_enter, h.size]
    by_cases hnew : i = m.store.size
    · rw [if_pos hnew, if_pos hnew]
      exact hbindings
    · rw [if_neg hnew, if_neg hnew]
      exact h.bindings i hi
  encloses i k hi hk := by
    rcases mem_chain_enter hk with ⟨-, rfl | houter⟩ | ⟨-, hmem⟩
    · exact hi
    · exact h.encloses parent k hparent houter
    · exact h.encloses i k hi hmem

/-- From a scope in view, a name is found in the same place. -/
theorem resolve?_eq (h : m₁.Alike seen m₂ m m') (hi : m₁.InView seen i) (name : String) :
    m'.store.resolve? i name = m.store.resolve? i name := by
  unfold Store.resolve?
  rw [h.chain]
  exact List.find?_congr fun j hj =>
    ((h.bindings j (h.encloses i j hi hj)).isSome_get? name).symm

/-- From a scope in view, a name is found on both machines or on none. -/
theorem get? (h : m₁.Alike seen m₂ m m') (hi : m₁.InView seen i) (name : String) :
    m.store.get? i name = none ∧ m'.store.get? i name = none ∨
      ∃ v w, m.store.get? i name = some v ∧ m'.store.get? i name = some w ∧
        v.Related (m₁.Corresponds seen m₂) w := by
  unfold Store.get?
  rw [h.resolve?_eq hi]
  cases hresolve : m.store.resolve? i name with
  | none => exact .inl ⟨rfl, rfl⟩
  | some j =>
      have hj := h.encloses i j hi (Store.mem_chain_of_resolve? hresolve)
      exact (h.bindings j hj).get? name

/-- The functions that two machines make at one moment correspond. -/
theorem newFunction (h : m₁.Alike seen m₂ m m') (hscope : m'.scope = m.scope)
    (hview : m₁.InView seen m.scope) (name : Token) (params : List Token) (body : List Stmt) :
    m₁.Corresponds seen m₂ (m.newFunction name params body) (m'.newFunction name params body) := by
  obtain ⟨count, hcount, hcount'⟩ := h.functions
  have hid : m₁.renumbering m₂ m.functions = m'.functions := by
    unfold renumbering
    rw [if_neg (by omega)]
    omega
  refine ⟨?_, hview, fun hlt => ?_⟩
  · unfold Machine.newFunction Closure.renumber
    rw [hscope]
    simp only [hid]
  · have hlt' : m.functions < m₁.functions := hlt
    omega

end Machine.Alike

/-! ### Steps that end alike

Both runs stand in scopes with the same number, one that is in view.  Elsewhere the
machines could look the same and go on differently, as a name might be found in a scope
in which they do not agree.
-/

namespace Exec

variable {α β : Type}

/-- Both steps gave answers that correspond, and ended in this scope, or both stopped for one
reason. -/
inductive EndAlike (seen : ScopeId → Prop) (m₁ m₂ : Machine) (A : α → α → Prop)
    (scope : ScopeId) : EStateM.Result Stop Machine α → EStateM.Result Stop Machine α → Prop where
  | answered {a b : α} {m m' : Machine} (halike : m₁.Alike seen m₂ m m') (hm : m.scope = scope)
      (hm' : m'.scope = scope) (hab : A a b) : EndAlike seen m₁ m₂ A scope (.ok a m) (.ok b m')
  | stopped {stop : Stop} {m m' : Machine} (halike : m₁.Alike seen m₂ m m') :
      EndAlike seen m₁ m₂ A scope (.error stop m) (.error stop m')

/-- From machines that are alike and stand in one scope in view, the steps end alike. -/
def StepAlike (seen : ScopeId → Prop) (m₁ m₂ : Machine) (A : α → α → Prop) (p q : Exec α) :
    Prop :=
  ∀ m m', m₁.Alike seen m₂ m m' → m'.scope = m.scope → m₁.InView seen m.scope →
    EndAlike seen m₁ m₂ A m.scope (p m) (q m')

variable {A : α → α → Prop} {B : β → β → Prop} {p q : Exec α}

theorem StepAlike.bind {k l : α → Exec β} (h : StepAlike seen m₁ m₂ A p q)
    (hk : ∀ a b, A a b → StepAlike seen m₁ m₂ B (k a) (l b)) :
    StepAlike seen m₁ m₂ B (p >>= k) (q >>= l) := by
  intro m m' halike hscope hview
  have hfirst := h m m' halike hscope hview
  show EndAlike seen m₁ m₂ B m.scope (EStateM.bind p k m) (EStateM.bind q l m')
  rw [EStateM.bind, EStateM.bind]
  generalize p m = result at hfirst
  generalize q m' = result' at hfirst
  cases hfirst with
  | @answered a b n n' hnext hn hn' hab =>
      have hrest := hk a b hab n n' hnext (hn'.trans hn.symm) (hn ▸ hview)
      rw [hn] at hrest
      exact hrest
  | stopped hnext => exact .stopped hnext

/-- In new scopes that correspond, both steps see the same, and so they end alike. -/
theorem EndAlike.within (hp : StepAlike seen m₁ m₂ A p q) (h : m₁.Alike seen m₂ m m')
    (hscope : m'.scope = m.scope) {parent : ScopeId} (hparent : m₁.InView seen parent)
    {bindings other : Bindings} (hbindings : bindings.Related (m₁.Corresponds seen m₂) other) :
    EndAlike seen m₁ m₂ A m.scope (Exec.within parent bindings p m)
      (Exec.within parent other q m') := by
  have hinner := hp _ _ (h.enter hparent hbindings) h.size (.inr h.grown)
  rw [within_apply, within_apply]
  generalize p (m.enter parent bindings) = result at hinner
  generalize q (m'.enter parent other) = result' at hinner
  cases hinner with
  | answered hnext _ _ hab => exact .answered (hnext.resume _ _) rfl hscope hab
  | stopped hnext => exact .stopped (hnext.resume _ _)

end Exec

open Exec in
/-- Two machines run side by side, that see the same. -/
def viewing (seen : ScopeId → Prop) (m₁ m₂ : Machine) : Comparison where
  World := Unit
  Grows _ _ := True
  functions _ := m₁.Corresponds seen m₂
  Related u A := StepAlike seen m₁ m₂ (A u)
  grow _ h := h
  congruent _ := Machine.Corresponds.congruent seen m₁ m₂
  pure h m m' halike hscope _ := .answered halike rfl hscope (h () trivial)
  bind h hk := h.bind fun a b hab => hk () a b trivial hab
  outOfFuel m m' halike _ _ := .stopped halike
  raise _ _ m m' halike _ _ := .stopped halike
  emit _ text m m' halike hscope _ := by
    have hfits := (Output.write_of_room halike.room text).1
    have hprint : m₁.Alike seen m₂ (m.print text) (m'.print text) :=
      { halike with toInStep := halike.toInStep.print text }
    rw [emit_apply, emit_apply, hfits]
    cases (m.output.write text).2 with
    | true => exact .answered hprint rfl hscope trivial
    | false => exact .stopped hprint
  readClock _ m m' halike hscope _ :=
    .answered { halike with toInStep := halike.toInStep.tick } rfl hscope (halike.clock 0).symm
  fetch _ name m m' halike hscope hview := by
    unfold fetch
    rw [hscope]
    rcases halike.get? hview name.lexeme with ⟨hnone, hnone'⟩ | ⟨v, w, hsome, hsome', hv⟩
    · rw [hnone, hnone']
      exact .stopped halike
    · rw [hsome, hsome']
      exact .answered halike rfl hscope hv
  assign _ name v w hv m m' halike hscope hview := by
    rw [assign_apply, assign_apply, hscope, halike.resolve?_eq hview]
    cases m.store.resolve? m.scope name.lexeme with
    | none => exact .stopped halike
    | some j => exact .answered (halike.write j name.lexeme hv) rfl hscope trivial
  define _ name v w hv m m' halike hscope _ := by
    show EndAlike seen m₁ m₂ _ m.scope (.ok () (m.write m.scope name.lexeme v))
      (.ok () (m'.write m'.scope name.lexeme w))
    rw [hscope]
    exact .answered (halike.write m.scope name.lexeme hv) rfl hscope trivial
  makeFunction _ name params body m m' halike hscope hview :=
    .answered { halike with toInStep := halike.toInStep.countFunction } rfl hscope
      (.function (halike.newFunction hscope hview name params body))
  within _ f g vs ws p q hf hvs hp m m' halike hscope _ := by
    have hplace : g.scope = f.scope := by rw [hf.eq]; rfl
    have hparams : f.params = g.params := by rw [hf.eq]; rfl
    rw [hplace]
    exact .within (hp ()) halike hscope hf.scope (Closure.arguments_related hparams hvs)
  nested _ p q hp m m' halike hscope hview := by
    show EndAlike seen m₁ m₂ _ m.scope (within m.scope [] p m) (within m'.scope [] q m')
    rw [hscope]
    exact .within (hp ()) halike hscope hview .nil

/-! ### Calls -/

/-- The machines agree on what matters to a call. -/
structure Machine.AgreeFor (f : Closure) (values : List Value) (m₁ m₂ : Machine) : Prop where
  /-- They hold as many scopes. -/
  size : m₂.store.size = m₁.store.size
  /-- Each of these is inside the same ones. -/
  chain : ∀ i, m₂.store.chain i = m₁.store.chain i
  /-- What the function and its arguments reach is bound alike.  Other scopes may hold anything. -/
  bindings : ∀ i, m₁.store.CallReaches f values i → m₂.store.bindings i = m₁.store.bindings i
  /-- There is as much room for output, so the call is cut on both machines or on none. -/
  room : m₂.output.room = m₁.output.room
  /-- The clocks will show the same. -/
  clock : ∀ k, m₂.clock (m₂.readings + k) = m₁.clock (m₁.readings + k)

/-- Two machines have done the same since they were `m₁` and `m₂`, and in what the function and
the arguments reached, and in all new scopes, there is the same now. -/
structure Machine.SameEffect (f : Closure) (values : List Value) (m₁ m₂ m m' : Machine) : Prop
    extends Machine.InStep m₁ m₂ m m' where
  /-- The bindings are the same, with the functions made in the meantime numbered as each machine
  numbers them. -/
  bindings : ∀ i, m₁.InView (m₁.store.CallReaches f values) i →
    m'.store.bindings i = (m.store.bindings i).renumber (m₁.renumbering m₂)

/-- The machine stands where it stood, and what the run could not see is as it was. -/
structure Machine.KeepsOwn (m : Machine) (seen : ScopeId → Prop) (m' : Machine) : Prop where
  /-- It is back where it was. -/
  scope : m'.scope = m.scope
  /-- The scopes are untouched that were there and out of sight. -/
  bindings : ∀ j : Nat, j < m.store.size → ¬ seen j → m'.store.bindings j = m.store.bindings j

/-- What two stores agree on can be reached in one of them if it can in the other. -/
theorem Store.Reaches.of_agree {s s' : Store} {c j : ScopeId}
    (hchain : ∀ i, s'.chain i = s.chain i)
    (hbindings : ∀ i, s.Reaches c i → s'.bindings i = s.bindings i) (h : s'.Reaches c j) :
    s.Reaches c j := by
  induction h with
  | start => exact .start
  | @encloses i j _ hj ih =>
      rw [hchain] at hj
      exact ih.encloses hj
  | @captures i j name v _ hv hj ih =>
      rw [hbindings i ih] at hv
      exact ih.captures hv hj

namespace Machine.AgreeFor

variable {f : Closure} {values : List Value}

private theorem callReaches (h : m₁.AgreeFor f values m₂) (hi : m₂.store.CallReaches f values i) :
    m₁.store.CallReaches f values i := by
  rcases hi with hi | ⟨v, hv, c, hc, hi⟩
  · exact .inl (hi.of_agree h.chain fun j hj => h.bindings j (.inl hj))
  · exact .inr ⟨v, hv, c, hc, hi.of_agree h.chain fun j hj =>
      h.bindings j (.inr ⟨v, hv, c, hc, hj⟩)⟩

/-- Machines that agree are alike to begin with. -/
theorem alike (h : m₁.AgreeFor f values m₂) (h₁ : m₁.WellFormed) (h₂ : m₂.WellFormed) :
    m₁.Alike (m₁.store.CallReaches f values) m₂ m₁ m₂ where
  printed := ⟨.empty, m₁.printed_nothing, m₂.printed_nothing⟩
  room := h.room
  readings := ⟨0, rfl, rfl⟩
  clock := h.clock
  functions := ⟨0, rfl, rfl⟩
  size := h.size
  chain := h.chain
  grown := Nat.le_refl _
  bindings i hi := by
    rcases hi with hreach | hnew
    · rw [h.bindings i hreach]
      refine Corresponds.bindings_refl fun name g hmem => ?_
      have hmem' : (name, .function g) ∈ m₂.store.bindings i := h.bindings i hreach ▸ hmem
      exact ⟨h₁.made i name g hmem, h₂.made i name g hmem', .inl (hreach.captures hmem rfl)⟩
    · rw [Store.bindings_eq_nil hnew, Store.bindings_eq_nil (h.size ▸ hnew)]
      exact .nil
  encloses i j hi hj := by
    rcases hi with hreach | hnew
    · exact .inl (hreach.encloses hj)
    · rw [Store.chain_eq_nil hnew] at hj
      exact absurd hj List.not_mem_nil

end Machine.AgreeFor

private theorem Machine.Alike.sameEffect {f : Closure} {values : List Value}
    (h : m₁.Alike (m₁.store.CallReaches f values) m₂ m m') : m₁.SameEffect f values m₂ m m' :=
  { h.toInStep with bindings := fun i hi => Corresponds.bindings_eq (h.bindings i hi) }

namespace Exec

/-- The same value, with other numbers for functions, or the same reason to stop. -/
inductive SameAnswer (ρ : Nat → Nat) :
    EStateM.Result Stop Machine Value → EStateM.Result Stop Machine Value → Prop where
  | value (v : Value) {m m' : Machine} : SameAnswer ρ (.ok v m) (.ok (v.renumber ρ) m')
  | stop (stop : Stop) {m m' : Machine} : SameAnswer ρ (.error stop m) (.error stop m')

/-- A call from either machine ends the same way, and has the same effect. -/
theorem call_alike {f : Closure} {values : List Value} (h₁ : m₁.WellFormed) (h₂ : m₂.WellFormed)
    (hvalues : ∀ g, .function g ∈ values → m₁.Made g ∧ m₂.Made g)
    (h : m₁.AgreeFor f values m₂) (fuel : Nat) :
    SameAnswer (m₁.renumbering m₂) (call fuel (.function f) values m₁)
        (call fuel (.function f) values m₂) ∧
      m₁.Alike (m₁.store.CallReaches f values) m₂ (left (call fuel (.function f) values m₁))
        (left (call fuel (.function f) values m₂)) := by
  have halike := h.alike h₁ h₂
  cases fuel with
  | zero => exact ⟨.stop _, halike⟩
  | succ fuel =>
      have harguments : List.Forall₂
          (Value.Related (m₁.Corresponds (m₁.store.CallReaches f values) m₂)) values values := by
        refine List.forall₂_same.mpr fun v hv => Machine.Corresponds.value_refl fun g hg => ?_
        rw [hg] at hv
        exact ⟨(hvalues g hv).1, (hvalues g hv).2, .inl (.inr ⟨_, hv, g.scope, rfl, .start⟩)⟩
      have hbindings : (f.arguments values).Related
          (m₁.Corresponds (m₁.store.CallReaches f values) m₂) (f.arguments values) :=
        Closure.arguments_related rfl harguments
      have hinner := halike.enter (.inl (.inl .start)) hbindings
      have hbody := ((viewing (m₁.store.CallReaches f values) m₁ m₂).evaluator fuel).executeAll ()
        f.body _ _ hinner h.size (.inr (Nat.le_refl _))
      rw [call_apply, call_apply]
      generalize executeAll fuel f.body (m₁.enter f.scope (f.arguments values)) = r at hbody
      generalize executeAll fuel f.body (m₂.enter f.scope (f.arguments values)) = r' at hbody
      cases hbody with
      | @answered flow flow' n n' hnext _ _ hflow =>
          refine ⟨?_, hnext.resume _ _⟩
          have hvalue : flow'.result = flow.result.renumber (m₁.renumbering m₂) :=
            Machine.Corresponds.value_eq hflow.result
          show SameAnswer _ (.ok flow.result _) (.ok flow'.result _)
          rw [hvalue]
          exact .value _
      | stopped hnext => exact ⟨.stop _, hnext.resume _ _⟩

/-- **A call does not depend on who calls.**  On two machines that agree on what the function and
its arguments reach, it ends the same way, also in running out of fuel or not, and has the same
effect.  Each machine keeps its current scope and what the call could not reach. -/
theorem call_lexically_scoped {f : Closure} {values : List Value} (h₁ : m₁.WellFormed)
    (h₂ : m₂.WellFormed) (hvalues : ∀ g, .function g ∈ values → m₁.Made g ∧ m₂.Made g)
    (h : m₁.AgreeFor f values m₂) (fuel : Nat) :
    SameAnswer (m₁.renumbering m₂) (call fuel (.function f) values m₁)
        (call fuel (.function f) values m₂) ∧
      m₁.SameEffect f values m₂ (left (call fuel (.function f) values m₁))
        (left (call fuel (.function f) values m₂)) ∧
      m₁.KeepsOwn (m₁.store.CallReaches f values) (left (call fuel (.function f) values m₁)) ∧
      m₂.KeepsOwn (m₁.store.CallReaches f values) (left (call fuel (.function f) values m₂)) := by
  obtain ⟨hanswer, halike⟩ := call_alike h₁ h₂ hvalues h fuel
  have hscope : ∀ m : Machine, (left (call fuel (.function f) values m)).scope = m.scope := by
    intro m
    exact (advancing.call_keeps fuel trivial (fun _ _ => trivial) fun _ _ _ _ => trivial).left.2.2
  refine ⟨hanswer, halike.sameEffect, ⟨hscope m₁, fun j hj hfar => ?_⟩,
    ⟨hscope m₂, fun j hj hfar => ?_⟩⟩
  · exact call_untouched fuel f values m₁ hj hfar
  · exact call_untouched fuel f values m₂ hj fun hreach => hfar (h.callReaches hreach)

end Exec

/-! ### A name that the caller hides

If a call saw what its caller sees, a variable of the caller would show here: it has the
name of the one that the function returns.
-/

/-- `fun f() { return x; }`, declared in the global scope. -/
def returnsX : Closure :=
  ⟨0, ⟨.identifier, "f", 1⟩, [],
    [.return_ ⟨.keyword .return_, "return", 1⟩ (some (.var ⟨.identifier, "x", 1⟩))], globalScope⟩

/-- A machine with a block, in which these names are bound, inside the global scope, where `x` is
true and `f` is bound to the function. -/
def withBlock (scope : ScopeId) (inBlock : Bindings) (functions : Nat) : Machine where
  store := ⟨#[⟨[], [("x", .bool true), ("f", .function returnsX)]⟩, ⟨[globalScope], inBlock⟩]⟩
  scope := scope
  functions := functions
  output := .empty none
  clock := fun _ => default
  readings := 0

private theorem withBlock_wellFormed {scope : Nat} (hscope : scope < 2) {inBlock : Bindings}
    (hinBlock : ∀ name f, (name, .function f) ∉ inBlock) {functions : Nat}
    (hfunctions : 0 < functions) : (withBlock scope inBlock functions).WellFormed := by
  refine ⟨⟨rfl, ?_⟩, hscope, ?_⟩
  · intro i hi hlt
    have hlt : i < 2 := hlt
    have hne : i ≠ 0 := hi
    have hone : i = 1 := by omega
    rw [hone]
    exact ⟨0, Nat.zero_lt_one, rfl⟩
  · intro i name f hmem
    match i, hmem with
    | 0, hmem =>
        have hmem : (name, Value.function f) ∈ [("x", .bool true), ("f", .function returnsX)] := hmem
        simp only [List.mem_cons, Prod.mk.injEq, reduceCtorEq, and_false, List.not_mem_nil,
          or_false, false_or, Value.function.injEq] at hmem
        rw [hmem.2]
        exact ⟨hfunctions, Nat.zero_lt_two⟩
    | 1, hmem => exact absurd hmem (hinBlock name f)
    | i + 2, hmem => exact absurd hmem List.not_mem_nil

private theorem withBlock_reaches {scope : ScopeId} {inBlock : Bindings} {functions : Nat}
    {j : ScopeId} (h : (withBlock scope inBlock functions).store.CallReaches returnsX [] j) :
    j = globalScope := by
  rcases h with h | ⟨v, hv, -⟩
  · induction h with
    | start => rfl
    | encloses _ hj ih =>
        rw [ih] at hj
        exact List.mem_singleton.mp hj
    | @captures _ _ name v _ hv hj ih =>
        rw [ih] at hv
        have hmem : (name, v) ∈ [("x", .bool true), ("f", .function returnsX)] := hv
        simp only [List.mem_cons, Prod.mk.injEq, List.not_mem_nil, or_false] at hmem
        rcases hmem with ⟨-, rfl⟩ | ⟨-, rfl⟩
        · exact nomatch hj
        · exact (Option.some.inj hj).symm
  · exact absurd hv List.not_mem_nil

namespace Exec

/-- Called from a block that has an `x` of its own, the function returns the global one. -/
theorem call_lexically_scoped_hidden :
    answer? (call 4 (.function returnsX) [] (withBlock 1 [("x", .bool false)] 2)) =
        some (.bool true) ∧
      SameAnswer ((withBlock 0 [] 1).renumbering (withBlock 1 [("x", .bool false)] 2))
        (call 4 (.function returnsX) [] (withBlock 0 [] 1))
        (call 4 (.function returnsX) [] (withBlock 1 [("x", .bool false)] 2)) := by
  have hplain : ∀ name f, (name, Value.function f) ∉ [("x", Value.bool false)] := by
    intro name f hmem
    rw [List.mem_singleton, Prod.mk.injEq] at hmem
    exact nomatch hmem.2
  have h₁ : (withBlock 0 [] 1).WellFormed :=
    withBlock_wellFormed Nat.zero_lt_two (fun _ _ => List.not_mem_nil) Nat.zero_lt_one
  have h₂ : (withBlock 1 [("x", .bool false)] 2).WellFormed :=
    withBlock_wellFormed Nat.one_lt_two hplain Nat.zero_lt_two
  have hagree : (withBlock 0 [] 1).AgreeFor returnsX [] (withBlock 1 [("x", .bool false)] 2) := by
    refine ⟨rfl, fun i => ?_, fun i hi => ?_, rfl, fun _ => rfl⟩
    · match i with
      | 0 => rfl
      | 1 => rfl
      | i + 2 => rfl
    · rw [withBlock_reaches hi]
      rfl
  exact ⟨rfl, (call_lexically_scoped h₁ h₂
    (fun g hg => absurd hg List.not_mem_nil) hagree 4).1⟩

end Exec

end Lox
