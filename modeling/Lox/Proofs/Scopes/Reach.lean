/-
What a run can reach, it can change, and nothing else.

From a scope a program sees the scopes around it, and the scopes that functions
bound there were declared in; from those it sees on in the same way.  Assignments
rewire this graph all the time, so what is reachable now is of no use as an
invariant.  What stays is a territory: the scopes reachable at the start together
with all that are made on the way.  Nothing in the territory leads out of it, a run
that stands in it writes to nothing else, and a new scope, a new function or a new
binding keeps it closed.  That is a law, `confining`.

`run_stays_in_reach` says it of every expression and statement.  A call does not
even need what its caller can reach: `call_untouched`.
-/
import Lox.Proofs.Session.Printing

namespace Lox

/-! ### Reachable scopes

Reaching goes outwards from a scope, and from a function that is bound in it to the
scope that it was declared in.  Which scopes a run can reach changes while it runs, but
only within what it could reach to begin with and what it made itself.
-/

/-- The scope that a value captures, if it is a function of the program. -/
def Value.captured? : Value → Option ScopeId
  | .function f => some f.scope
  | _ => none

theorem Value.captured?_eq_some {v : Value} {j : ScopeId} (h : v.captured? = some j) :
    ∃ f, v = .function f ∧ f.scope = j := by
  cases v with
  | function f => exact ⟨f, rfl, Option.some.inj h⟩
  | _ => exact nomatch h

/-- The scopes that can be reached from a scope. -/
inductive Store.Reaches (s : Store) (c : ScopeId) : ScopeId → Prop where
  | start : Reaches s c c
  | encloses {i j : ScopeId} (h : Reaches s c i) (hj : j ∈ s.chain i) : Reaches s c j
  | captures {i j : ScopeId} {name : String} {v : Value} (h : Reaches s c i)
      (hv : (name, v) ∈ s.bindings i) (hj : v.captured? = some j) : Reaches s c j

/-- The scopes that a function and the arguments of a call reach. -/
def Store.CallReaches (s : Store) (f : Closure) (values : List Value) (j : ScopeId) : Prop :=
  s.Reaches f.scope j ∨ ∃ v ∈ values, ∃ c, v.captured? = some c ∧ s.Reaches c j

theorem Store.CallReaches.encloses {s : Store} {f : Closure} {values : List Value} {i j : ScopeId}
    (h : s.CallReaches f values i) (hj : j ∈ s.chain i) : s.CallReaches f values j := by
  rcases h with h | ⟨v, hv, c, hc, h⟩
  · exact .inl (h.encloses hj)
  · exact .inr ⟨v, hv, c, hc, h.encloses hj⟩

theorem Store.CallReaches.captures {s : Store} {f : Closure} {values : List Value} {i j : ScopeId}
    {name : String} {v : Value} (h : s.CallReaches f values i) (hv : (name, v) ∈ s.bindings i)
    (hj : v.captured? = some j) : s.CallReaches f values j := by
  rcases h with h | ⟨w, hw, c, hc, h⟩
  · exact .inl (h.captures hv hj)
  · exact .inr ⟨w, hw, c, hc, h.captures hv hj⟩

/-! ### Territories

The scopes that can be reached are no good as an invariant, as each assignment changes
them.  A territory is fixed instead: some scopes that were there, and all that were made
since.  Any set of scopes from which nothing leads out can be one, and the reachable
scopes are the smallest.
-/

/-- The scopes of a machine that belong to a run: these, and all from a number on. -/
def Machine.Territory (old : ScopeId → Prop) (base : Nat) (m : Machine) (j : Nat) : Prop :=
  old j ∨ base ≤ j ∧ j < m.store.size

/-- Nothing in the territory leads out of it. -/
structure Machine.Closed (old : ScopeId → Prop) (base : Nat) (m : Machine) : Prop where
  /-- The scopes from `base` on are new ones. -/
  base_le : base ≤ m.store.size
  /-- The scopes around one of the territory belong to it. -/
  encloses : ∀ {i j}, m.Territory old base i → j ∈ m.store.chain i → m.Territory old base j
  /-- So do the scopes of functions that are bound in it. -/
  captures : ∀ {i name f}, m.Territory old base i → (name, .function f) ∈ m.store.bindings i →
    m.Territory old base f.scope

/-- No scope outside the territory has changed. -/
structure Machine.Spares (old : ScopeId → Prop) (base : Nat) (m m' : Machine) : Prop where
  /-- No scope is gone. -/
  size : m.store.size ≤ m'.store.size
  /-- A scope that is neither old territory nor new has the bindings it had. -/
  untouched : ∀ j : Nat, j < base → ¬ old j → m'.store.bindings j = m.store.bindings j

variable {old : ScopeId → Prop} {base : Nat} {m m' : Machine} {i j : ScopeId}

theorem Machine.Territory.mono (h : m.Territory old base j) (hsize : m.store.size ≤ m'.store.size) :
    m'.Territory old base j :=
  h.imp_right fun hnew => ⟨hnew.1, Nat.lt_of_lt_of_le hnew.2 hsize⟩

private theorem Machine.Territory.of_size (hsize : m'.store.size = m.store.size)
    (h : m'.Territory old base j) : m.Territory old base j :=
  h.mono (Nat.le_of_eq hsize)

/-- A scope made on the way belongs to the territory. -/
theorem Machine.territory_enter (m : Machine) (parent : ScopeId) (bindings : Bindings)
    (hbase : base ≤ m.store.size) :
    (m.enter parent bindings).Territory old base (m.enter parent bindings).scope := by
  have hsize := m.size_enter parent bindings
  have hscope : (m.enter parent bindings).scope = m.store.size := rfl
  refine .inr ⟨?_, ?_⟩ <;> rw [hscope] <;> omega

namespace Machine.Spares

/-- Only the store counts. -/
theorem of_same (h : m'.store = m.store) : m.Spares old base m' :=
  ⟨Nat.le_of_eq (by rw [h]), fun _ _ _ => by rw [h]⟩

theorem trans {m₁ m₂ m₃ : Machine} (h : m₁.Spares old base m₂) (h' : m₂.Spares old base m₃) :
    m₁.Spares old base m₃ := by
  refine ⟨Nat.le_trans h.size h'.size, fun j hj hold => ?_⟩
  rw [h'.untouched j hj hold, h.untouched j hj hold]

end Machine.Spares

namespace Machine.Closed

/-- Only the store counts. -/
theorem of_same (hm : m.Closed old base) (h : m'.store = m.store) : m'.Closed old base := by
  have hsize : m'.store.size = m.store.size := by rw [h]
  have hsame : ∀ {j}, m.Territory old base j → m'.Territory old base j :=
    fun hj => hj.mono (Nat.le_of_eq hsize.symm)
  refine ⟨Nat.le_trans hm.base_le (Nat.le_of_eq hsize.symm), ?_, ?_⟩
  · intro i j hi hj
    rw [h] at hj
    exact hsame (hm.encloses (hi.of_size hsize) hj)
  · intro i name f hi hmem
    rw [h] at hmem
    exact hsame (hm.captures (hi.of_size hsize) hmem)

/-- What is written in the territory may lead to any place of it. -/
theorem write (h : m.Closed old base) (hj : m.Territory old base j) (name : String) {v : Value}
    (hv : ∀ f, v = .function f → m.Territory old base f.scope) :
    (m.write j name v).Closed old base ∧ m.Spares old base (m.write j name v) := by
  have hsize := m.size_write j name v
  have hsame : ∀ {k}, m.Territory old base k → (m.write j name v).Territory old base k :=
    fun hk => hk.mono (Nat.le_of_eq hsize.symm)
  constructor
  · refine ⟨Nat.le_trans h.base_le (Nat.le_of_eq hsize.symm), ?_, ?_⟩
    · intro i k hi hk
      rw [chain_write] at hk
      exact hsame (h.encloses (hi.of_size hsize) hk)
    · intro i n f hi hmem
      rcases mem_bindings_write hmem with hbefore | hvalue
      · exact hsame (h.captures (hi.of_size hsize) hbefore)
      · exact hsame (hv f hvalue.symm)
  · refine ⟨Nat.le_of_eq hsize.symm, fun k hk hold => ?_⟩
    rw [bindings_write, if_neg]
    rintro ⟨rfl, -⟩
    rcases hj with hin | hnew
    · exact hold hin
    · omega

/-- A new scope belongs to the territory if what it is made with does. -/
theorem enter (h : m.Closed old base) {parent : ScopeId} (hparent : m.Territory old base parent)
    (bindings : Bindings)
    (hvalues : ∀ name f, (name, .function f) ∈ bindings → m.Territory old base f.scope) :
    (m.enter parent bindings).Closed old base ∧
      m.Spares old base (m.enter parent bindings) := by
  have hsize := m.size_enter parent bindings
  have hbase := h.base_le
  have hgrown : m.store.size ≤ (m.enter parent bindings).store.size := by omega
  have hfresh : (m.enter parent bindings).Territory old base m.store.size :=
    m.territory_enter parent bindings hbase
  -- What was there before is in the territory of before.
  have hbefore : ∀ i, (m.enter parent bindings).Territory old base i → i ≠ m.store.size →
      m.Territory old base i := by
    intro i hi hne
    exact hi.imp_right fun hnew => ⟨hnew.1, by omega⟩
  constructor
  · refine ⟨Nat.le_trans hbase hgrown, ?_, ?_⟩
    · intro i k hi hk
      rcases mem_chain_enter hk with ⟨rfl, rfl | houter⟩ | ⟨hne, hmem⟩
      · exact hfresh
      · exact (h.encloses hparent houter).mono hgrown
      · exact (h.encloses (hbefore i hi hne) hmem).mono hgrown
    · intro i name f hi hmem
      rcases mem_bindings_enter hmem with ⟨-, hnew⟩ | ⟨hne, hold⟩
      · exact (hvalues name f hnew).mono hgrown
      · exact (h.captures (hbefore i hi hne) hold).mono hgrown
  · refine ⟨hgrown, fun k hk _ => ?_⟩
    rw [bindings_enter, if_neg (Nat.ne_of_lt (Nat.lt_of_lt_of_le hk hbase))]

/-- Scopes that lead nowhere else are a territory to start with. -/
theorem of_old (hencloses : ∀ {i j}, old i → j ∈ m.store.chain i → old j)
    (hcaptures : ∀ {i name f}, old i → (name, .function f) ∈ m.store.bindings i → old f.scope) :
    m.Closed old m.store.size := by
  have hold : ∀ i, m.Territory old m.store.size i → old i := by
    rintro i (hi | hi)
    · exact hi
    · omega
  refine ⟨Nat.le_refl _, ?_, ?_⟩
  · exact fun hi hj => .inl (hencloses (hold _ hi) hj)
  · exact fun hi hmem => .inl (hcaptures (hold _ hi) hmem)

/-- Whatever can be reached from the territory belongs to it. -/
theorem territory_of_reaches (h : m.Closed old base) {c : ScopeId} (hc : m.Territory old base c)
    (hreach : m.store.Reaches c j) : m.Territory old base j := by
  induction hreach with
  | start => exact hc
  | encloses _ hj ih => exact h.encloses ih hj
  | captures _ hv hj ih =>
      obtain ⟨f, rfl, rfl⟩ := Value.captured?_eq_some hj
      exact h.captures ih hv

end Machine.Closed

/-- A run that stands in its territory stays there, and has no function from elsewhere. -/
def confining (old : ScopeId → Prop) (base : Nat) : Law where
  Holds m := m.Closed old base ∧ m.Territory old base m.scope
  Grows := Machine.Spares old base
  Admits m f := m.Territory old base f.scope
  refl _ := .of_same rfl
  trans := .trans
  resume _ h := h.trans (.of_same rfl)
  admits h hf := hf.mono h.size
  print _ hm := ⟨⟨hm.1.of_same rfl, hm.2⟩, .of_same rfl⟩
  tick hm := ⟨⟨hm.1.of_same rfl, hm.2⟩, .of_same rfl⟩
  fetch hm hj hmem := hm.1.captures (hm.1.encloses hm.2 hj) hmem
  write {m j v} name hm hj hv := by
    have hplace : m.Territory old base j := by
      rcases hj with rfl | hchain
      · exact hm.2
      · exact hm.1.encloses hm.2 hchain
    obtain ⟨hclosed, hspares⟩ := hm.1.write hplace name hv
    exact ⟨⟨hclosed, hm.2.mono hspares.size⟩, hspares⟩
  make _ _ _ hm := ⟨⟨hm.1.of_same rfl, hm.2⟩, .of_same rfl, hm.2⟩
  enter {m} parent bindings hm hparent hvalues := by
    have hplace : m.Territory old base parent := by
      rcases hparent with rfl | ⟨f, hf, rfl⟩
      · exact hm.2
      · exact hf
    obtain ⟨hclosed, hspares⟩ := hm.1.enter hplace bindings hvalues
    exact ⟨⟨hclosed, m.territory_enter parent bindings hm.1.base_le⟩, hspares⟩
  leave hm hm' h := ⟨hm'.1.of_same rfl, hm.2.mono h.size⟩

/-! ### What a run leaves alone -/

/-- The value that a statement returns, if it does. -/
def Flow.value? : Flow → Option Value
  | normal => none
  | returned v => some v

namespace Exec

/-- What a step gives, if it does not stop. -/
def answer? {α : Type} : EStateM.Result Stop Machine α → Option α
  | .ok a _ => some a
  | .error _ _ => none

/-- The machine that a call leaves is the one its body leaves, back where it was. -/
theorem left_call (fuel : Nat) (f : Closure) (values : List Value) (m : Machine) :
    left (call (fuel + 1) (.function f) values m) =
      (left (executeAll fuel f.body (m.enter f.scope (f.arguments values)))).resume m.scope := by
  rw [call_apply]
  cases executeAll fuel f.body (m.enter f.scope (f.arguments values)) <;> rfl

end Exec

namespace Machine

/-- What can be reached from a scope leads nowhere else. -/
theorem closed_reaches (m : Machine) (c : ScopeId) :
    m.Closed (m.store.Reaches c) m.store.size :=
  .of_old (fun hi hj => hi.encloses hj) fun hi hmem => hi.captures hmem rfl

/-- What a call can reach leads nowhere else. -/
theorem closed_callReaches (m : Machine) (f : Closure) (values : List Value) :
    m.Closed (m.store.CallReaches f values) m.store.size :=
  .of_old (fun hi hj => hi.encloses hj) fun hi hmem => hi.captures hmem rfl

/-- What became of a machine by a run is within its reach. -/
structure StaysInReach (m m' : Machine) (produced : Option Value) : Prop where
  /-- The scopes that it could not reach are as they were. -/
  untouched : ∀ j : Nat, j < m.store.size → ¬ m.store.Reaches m.scope j →
    m'.store.bindings j = m.store.bindings j
  /-- What can be reached afterwards could be reached before or is new. -/
  reached : ∀ j, m'.store.Reaches m.scope j →
    m'.Territory (m.store.Reaches m.scope) m.store.size j
  /-- So it is with what can be reached by way of the value that was produced. -/
  captured : ∀ v c, produced = some v → v.captured? = some c → ∀ j, m'.store.Reaches c j →
    m'.Territory (m.store.Reaches m.scope) m.store.size j

end Machine

namespace Exec

variable {α : Type}

/-- What is confined to what it could reach has stayed in reach. -/
theorem staysInReach_of_keeps (value? : α → Option Value) {A : Machine → α → Prop} {m : Machine}
    {r : EStateM.Result Stop Machine α}
    (hA : ∀ m' a v, A m' a → value? a = some v →
      (confining (m.store.Reaches m.scope) m.store.size).Allows m' v)
    (h : (confining (m.store.Reaches m.scope) m.store.size).Keeps A m r) :
    m.StaysInReach (left r) ((answer? r).bind value?) := by
  obtain ⟨⟨hclosed, -⟩, hspares, -⟩ := h.left
  refine ⟨hspares.untouched, fun j hj => hclosed.territory_of_reaches (.inl .start) hj, ?_⟩
  intro v c hv hc j hj
  obtain ⟨f, rfl, rfl⟩ := Value.captured?_eq_some hc
  cases r with
  | ok a m' => exact hclosed.territory_of_reaches (hA m' a _ h.2.2.2 hv f rfl) hj
  | error stop m' => exact nomatch hv

/-- **Programs change only what they can reach, and reach only what they could reach before or
what they made.** -/
theorem run_stays_in_reach (m : Machine) (fuel : Nat) :
    (∀ e, m.StaysInReach (left (evaluate fuel e m)) (answer? (evaluate fuel e m))) ∧
    (∀ s, m.StaysInReach (left (execute fuel s m))
      ((answer? (execute fuel s m)).bind Flow.value?)) := by
  have hholds : (confining (m.store.Reaches m.scope) m.store.size).Holds m :=
    ⟨m.closed_reaches m.scope, .inl .start⟩
  constructor
  · intro e
    have hstays := staysInReach_of_keeps some (fun m' a v ha hv => Option.some.inj hv ▸ ha)
      (Law.evaluate_keeps _ fuel e hholds)
    rwa [Option.bind_fun_some] at hstays
  · intro s
    refine staysInReach_of_keeps Flow.value? (fun m' flow v hflow hv => ?_)
      (Law.execute_keeps _ fuel s hholds)
    cases flow with
    | normal => exact nomatch hv
    | returned w => exact hflow v (by rw [Option.some.inj hv])

/-- A call changes nothing but what the function and the arguments reach.  It makes no difference
who calls. -/
theorem call_untouched (fuel : Nat) (f : Closure) (values : List Value) (m : Machine) {j : Nat}
    (hj : j < m.store.size) (hfar : ¬ m.store.CallReaches f values j) :
    (left (call fuel (.function f) values m)).store.bindings j = m.store.bindings j := by
  cases fuel with
  | zero => rfl
  | succ fuel =>
      have hf : m.Territory (m.store.CallReaches f values) m.store.size f.scope := .inl (.inl .start)
      obtain ⟨hclosed, henter⟩ := (m.closed_callReaches f values).enter hf (f.arguments values)
        fun name g hmem =>
          .inl (.inr ⟨_, Closure.mem_of_mem_arguments hmem, g.scope, rfl, .start⟩)
      have hkeeps := (confining (m.store.CallReaches f values) m.store.size).executeAll_keeps fuel
        f.body ⟨hclosed, m.territory_enter f.scope (f.arguments values) (Nat.le_refl _)⟩
      rw [left_call]
      exact (henter.trans hkeeps.left.2.1).untouched j hj hfar

end Exec

end Lox
