/-
What a variable is, told from the past.

A store looks a name up in what its scopes hold now.  The same can be told from nothing
but the steps taken so far: which scopes were made inside which, where a name has been
defined, and which step was the last to write to it.  A `ScopeHistory` is such a past,
and it can only be made of steps on scopes that exist.

The store keeps up with its past.  A scope holds a name if the name has been defined
there, and holds the value that was last written to it; and a scope's chain is made of
the links that the past gives.  That is `Store.Recalls`, which every step preserves.  An
assignment is the step to look at: what it writes to is decided by all definitions and
all scopes made before it, and by none that come later.
-/
import Lox.Proofs.Scopes.WellFormed

namespace Lox

/-! ### The past of a store -/

/-- A step taken where there are `n` scopes, after which there are `m`. -/
inductive ScopeStep (n : Nat) : (m : Nat) → Type where
  /-- Make a scope inside no other. -/
  | root : ScopeStep n (n + 1)
  /-- Make a scope inside this one. -/
  | child (parent : Fin n) : ScopeStep n (n + 1)
  | define (scope : Fin n) (name : String) (value : Value) : ScopeStep n n
  | assign (scope : Fin n) (name : String) (value : Value) : ScopeStep n n
  | get (scope : Fin n) (name : String) : ScopeStep n n

/-- Steps taken one after the other, by which `n` scopes were made. -/
inductive ScopeHistory : (n : Nat) → Type where
  | start : ScopeHistory 0
  | step {n m : Nat} (past : ScopeHistory n) (last : ScopeStep n m) : ScopeHistory m

/-- What a step makes of a store.  An assignment that fails makes nothing of it. -/
def ScopeStep.perform {n m : Nat} (s : Store) : ScopeStep n m → Store
  | root => s.pushRoot []
  | child parent => s.pushChild parent.val []
  | define scope name value => s.define scope.val name value
  | assign scope name value => (s.assign? scope.val name value).getD s
  | get _ _ => s

namespace ScopeHistory

variable {n m : Nat}

/-- The store after all steps. -/
def store : {n : Nat} → ScopeHistory n → Store
  | _, start => .empty
  | _, step past last => last.perform past.store

/-! ### What the past tells

Nothing here looks at a store.  Where a scope lies, where a name has been defined and
which step wrote to it last are all read off the steps, latest first.
-/

/-- The scope that a scope was made in, if it was made in one. -/
def enclosing? : {n : Nat} → ScopeHistory n → ScopeId → Option ScopeId
  | _, start, _ => none
  | _, step past (n := n) (.child parent), i => if i = n then some parent.val else past.enclosing? i
  | _, step past _, i => past.enclosing? i

/-- The name has been defined in this very scope. -/
def Defined : {n : Nat} → ScopeHistory n → ScopeId → String → Prop
  | _, start, _, _ => False
  | _, step past (.define scope name _), i, other =>
    i = scope.val ∧ other = name ∨ past.Defined i other
  | _, step past _, i, other => past.Defined i other

/-- One comes to the second scope by going outwards from the first. -/
inductive Outward (past : ScopeHistory n) : ScopeId → ScopeId → Prop where
  | stay (i : ScopeId) : Outward past i i
  | out {i parent j : ScopeId} (hlink : past.enclosing? i = some parent)
      (h : Outward past parent j) : Outward past i j

/-- Going outwards from the first scope, the second is the first in which the name has been
defined. -/
inductive Nearest (past : ScopeHistory n) (name : String) : ScopeId → ScopeId → Prop where
  | here {i : ScopeId} (h : past.Defined i name) : Nearest past name i i
  | out {i parent j : ScopeId} (hfree : ¬ past.Defined i name)
      (hlink : past.enclosing? i = some parent) (h : Nearest past name parent j) :
      Nearest past name i j

/-- Taken after this past, the step writes the value to the name in this scope: it defines the
name there, or assigns to it from where this is the nearest scope that has it. -/
inductive Writes (past : ScopeHistory n) :
    {m : Nat} → ScopeStep n m → ScopeId → String → Value → Prop where
  | define (scope : Fin n) (name : String) (value : Value) :
      Writes past (.define scope name value) scope.val name value
  | assign (scope : Fin n) (name : String) (value : Value) {j : ScopeId}
      (h : past.Nearest name scope.val j) : Writes past (.assign scope name value) j name value

/-- The value is what the latest step wrote that wrote to the name in this scope. -/
inductive LastWritten : {n : Nat} → ScopeHistory n → ScopeId → String → Value → Prop where
  | now {n m : Nat} {past : ScopeHistory n} {last : ScopeStep n m} {j : ScopeId} {name : String}
      {value : Value} (h : past.Writes last j name value) :
      LastWritten (past.step last) j name value
  | before {n m : Nat} {past : ScopeHistory n} {last : ScopeStep n m} {j : ScopeId}
      {name : String} {value : Value} (hother : ∀ other, ¬ past.Writes last j name other)
      (h : LastWritten past j name value) : LastWritten (past.step last) j name value

variable {past : ScopeHistory n} {last : ScopeStep n m} {i j parent : ScopeId} {scope : Fin n}
  {name other : String} {v w : Value}

/-! ### Links and writes -/

/-- Scopes are made inside older ones. -/
theorem lt_of_enclosing? (h : past.enclosing? i = some parent) : parent < i ∧ i < n := by
  induction past with
  | start => cases h
  | @step n m past last ih =>
      have hpast (h : past.enclosing? i = some parent) : parent < i ∧ i < n + 1 :=
        ⟨(ih h).1, Nat.lt_succ_of_lt (ih h).2⟩
      cases last with
      | root => exact hpast h
      | child outer =>
          rw [enclosing?] at h
          by_cases hnew : i = n
          · rw [if_pos hnew, Option.some.injEq] at h
            rw [← h, hnew]
            exact ⟨outer.isLt, Nat.lt_succ_self n⟩
          · rw [if_neg hnew] at h
            exact hpast h
      | define | assign | get => exact ih h

private theorem writes_define_iff {value : Value} :
    past.Writes (.define scope name value) j other v ↔
      j = scope.val ∧ other = name ∧ v = value := by
  constructor
  · intro h
    cases h
    exact ⟨rfl, rfl, rfl⟩
  · rintro ⟨rfl, rfl, rfl⟩
    exact .define scope other v

private theorem writes_assign_iff {value : Value} :
    past.Writes (.assign scope name value) j other v ↔
      other = name ∧ past.Nearest name scope.val j ∧ v = value := by
  constructor
  · intro h
    cases h with
    | assign _ _ _ h => exact ⟨rfl, h, rfl⟩
  · rintro ⟨rfl, h, rfl⟩
    exact .assign scope other v h

private theorem lastWritten_step_iff :
    (past.step last).LastWritten j name v ↔
      past.Writes last j name v ∨
        (∀ w, ¬ past.Writes last j name w) ∧ past.LastWritten j name v := by
  constructor
  · intro h
    cases h with
    | now h => exact .inl h
    | before hother h => exact .inr ⟨hother, h⟩
  · rintro (h | ⟨hother, h⟩)
    · exact .now h
    · exact .before hother h

/-- A step that writes nothing leaves what was written. -/
theorem lastWritten_step_of_silent (hsilent : ∀ w, ¬ past.Writes last j name w) :
    (past.step last).LastWritten j name v ↔ past.LastWritten j name v := by
  rw [lastWritten_step_iff]
  constructor
  · rintro (h | ⟨-, h⟩)
    · exact absurd h (hsilent v)
    · exact h
  · exact fun h => .inr ⟨hsilent, h⟩

/-- A step that writes one value has written that value last. -/
theorem lastWritten_step_of_writes (hwrites : ∀ w, past.Writes last j name w ↔ w = v) :
    (past.step last).LastWritten j name w ↔ w = v := by
  rw [lastWritten_step_iff, hwrites]
  constructor
  · rintro (h | ⟨hnone, -⟩)
    · exact h
    · exact absurd ((hwrites v).mpr rfl) (hnone v)
  · exact .inl

end ScopeHistory

private theorem ScopeHistory.Nearest.lt {n : Nat} {past : ScopeHistory n} {name : String}
    {i j : ScopeId} (h : past.Nearest name i j) (hi : i < n) : j < n := by
  induction h with
  | here => exact hi
  | out _ hlink _ ih => exact ih (Nat.lt_trans (lt_of_enclosing? hlink).1 hi)

/-! ### The store keeps up with its past

Both sides speak of one scope at a time: what is bound in it, and what lies directly
around it.  Chains and look-ups follow from that, so a step has to be checked only at
the scope that it touches.
-/

open ScopeHistory

/-- The store is as the past tells. -/
structure Store.Recalls {n : Nat} (s : Store) (past : ScopeHistory n) : Prop where
  /-- It has as many scopes as were made. -/
  size : s.size = n
  /-- Each is inside the one in which it was made. -/
  chain : ∀ i : Nat, i < n → s.chain i = i :: (past.enclosing? i).elim [] s.chain
  /-- A name is bound in a scope if it was defined there, and only then. -/
  bound : ∀ j name, ((s.bindings j).get? name).isSome ↔ past.Defined j name
  /-- Its value is the last that was written there. -/
  value : ∀ j name v, (s.bindings j).get? name = some v ↔ past.LastWritten j name v

/-- The second store is the first after this one binding was written, and nothing else. -/
structure Store.ChangedAt (s : Store) (j : ScopeId) (name : String) (value : Value) (s' : Store) :
    Prop where
  /-- There are as many scopes. -/
  size : s'.size = s.size
  /-- They are inside the same ones. -/
  chain : ∀ i, s'.chain i = s.chain i
  /-- The name has the value in this scope. -/
  written : (s'.bindings j).get? name = some value
  /-- Other names, and the same name in other scopes, have what they had. -/
  others : ∀ k other, ¬ (k = j ∧ other = name) →
    (s'.bindings k).get? other = (s.bindings k).get? other

theorem Store.changedAt_define {s : Store} {j : Nat} (hj : j < s.size) (name : String)
    (value : Value) : s.ChangedAt j name value (s.define j name value) where
  size := s.size_define j name value
  chain i := s.chain_define j name value i
  written := by rw [bindings_define, if_pos ⟨rfl, hj⟩, Bindings.get?_set, if_pos rfl]
  others k other hother := by
    rw [bindings_define]
    by_cases hplace : j = k ∧ k < s.size
    · have hname : other ≠ name := fun heq => hother ⟨hplace.1.symm, heq⟩
      rw [if_pos hplace, Bindings.get?_set, if_neg hname]
    · rw [if_neg hplace]

/-- A name has a value where it is found. -/
theorem Store.isSome_of_resolve? {s : Store} {i j : ScopeId} {name : String}
    (h : s.resolve? i name = some j) : ((s.bindings j).get? name).isSome := by
  have hbound := List.find?_some h
  exact hbound

private theorem Store.get?_eq_none_iff_resolve? (s : Store) (i : ScopeId) (name : String) :
    s.get? i name = none ↔ s.resolve? i name = none := by
  rw [get?]
  constructor
  · intro hnone
    cases hresolve : s.resolve? i name with
    | none => rfl
    | some j =>
        obtain ⟨v, hv⟩ := Option.isSome_iff_exists.mp (isSome_of_resolve? hresolve)
        rw [hresolve, Option.bind_some, hv] at hnone
        cases hnone
  · intro hresolve
    rw [hresolve, Option.bind_none]

private theorem Store.assign?_eq_none_iff (s : Store) (i : ScopeId) (name : String)
    (value : Value) : s.assign? i name value = none ↔ s.get? i name = none := by
  rw [get?_eq_none_iff_resolve?, assign?]
  cases s.resolve? i name with
  | none => exact ⟨fun _ => rfl, fun _ => rfl⟩
  | some j =>
      constructor
      · intro hnone
        cases hnone
      · intro hnone
        cases hnone

namespace Store.Recalls

variable {n m : Nat} {s s' : Store} {past : ScopeHistory n} {name : String}

/-! ### Looking up -/

/-- A name is looked up from scope to scope as the past links them. -/
theorem resolve?_eq (h : s.Recalls past) {i : Nat} (hi : i < n) (name : String) :
    s.resolve? i name =
      if ((s.bindings i).get? name).isSome then some i
      else (past.enclosing? i).bind fun parent => s.resolve? parent name := by
  rw [resolve?, h.chain i hi, List.find?_cons]
  cases ((s.bindings i).get? name).isSome with
  | true => rfl
  | false => cases past.enclosing? i <;> rfl

/-- The scope in which a name is found is the nearest in which it has been defined. -/
theorem resolve?_eq_some_iff (h : s.Recalls past) (name : String) :
    ∀ i : Nat, i < n → ∀ j, s.resolve? i name = some j ↔ past.Nearest name i j := by
  intro i
  induction i using Nat.strongRecOn with
  | _ i ih =>
      intro hi j
      rw [h.resolve?_eq hi]
      by_cases hbound : ((s.bindings i).get? name).isSome
      · rw [if_pos hbound, Option.some.injEq]
        have hdefined := (h.bound i name).mp hbound
        constructor
        · rintro rfl
          exact .here hdefined
        · intro hnearest
          cases hnearest with
          | here => rfl
          | out hfree => exact absurd hdefined hfree
      · rw [if_neg hbound]
        have hfree : ¬ past.Defined i name := fun hd => hbound ((h.bound i name).mpr hd)
        constructor
        · intro hresolve
          obtain ⟨parent, hlink, hparent⟩ := Option.bind_eq_some_iff.mp hresolve
          obtain ⟨hlt, -⟩ := lt_of_enclosing? hlink
          exact .out hfree hlink ((ih parent hlt (Nat.lt_trans hlt hi) j).mp hparent)
        · intro hnearest
          cases hnearest with
          | here hd => exact absurd hd hfree
          | out _ hlink hparent =>
              obtain ⟨hlt, -⟩ := lt_of_enclosing? hlink
              rw [hlink, Option.bind_some]
              exact (ih _ hlt (Nat.lt_trans hlt hi) j).mpr hparent

/-- What lies outwards of a scope is its chain. -/
theorem mem_chain_iff (h : s.Recalls past) :
    ∀ i : Nat, i < n → ∀ j, j ∈ s.chain i ↔ past.Outward i j := by
  intro i
  induction i using Nat.strongRecOn with
  | _ i ih =>
      intro hi j
      rw [h.chain i hi, List.mem_cons]
      constructor
      · rintro (rfl | hmem)
        · exact .stay j
        · cases hlink : past.enclosing? i with
          | none =>
              rw [hlink] at hmem
              exact absurd hmem List.not_mem_nil
          | some parent =>
              rw [hlink] at hmem
              obtain ⟨hlt, -⟩ := lt_of_enclosing? hlink
              exact .out hlink ((ih parent hlt (Nat.lt_trans hlt hi) j).mp hmem)
      · intro houtward
        cases houtward with
        | stay => exact .inl rfl
        | out hlink hparent =>
            obtain ⟨hlt, -⟩ := lt_of_enclosing? hlink
            rw [hlink]
            exact .inr ((ih _ hlt (Nat.lt_trans hlt hi) j).mpr hparent)

theorem get?_eq_some_iff (h : s.Recalls past) {i : Nat} (hi : i < n) {v : Value} :
    s.get? i name = some v ↔ ∃ j, past.Nearest name i j ∧ past.LastWritten j name v := by
  rw [get?, Option.bind_eq_some_iff]
  constructor
  · rintro ⟨j, hj, hv⟩
    exact ⟨j, (h.resolve?_eq_some_iff name i hi j).mp hj, (h.value j name v).mp hv⟩
  · rintro ⟨j, hj, hv⟩
    exact ⟨j, (h.resolve?_eq_some_iff name i hi j).mpr hj, (h.value j name v).mpr hv⟩

theorem get?_eq_none_iff (h : s.Recalls past) {i : Nat} (hi : i < n) :
    s.get? i name = none ↔ ∀ j, past.Outward i j → ¬ past.Defined j name := by
  rw [get?_eq_none_iff_resolve?, resolve?, List.find?_eq_none]
  constructor
  · intro hnone j hj hd
    exact hnone j ((h.mem_chain_iff i hi j).mpr hj) ((h.bound j name).mpr hd)
  · intro hfree j hj hbound
    exact hfree j ((h.mem_chain_iff i hi j).mp hj) ((h.bound j name).mp hbound)

/-! ### Taking steps

Three lemmas do for all five steps.  A scope is made, one binding is written, or nothing
is written; an assignment is the second or the third, depending on what the past tells
of its name.
-/

theorem start : Store.empty.Recalls .start := by
  have hempty (j : ScopeId) : Store.empty.bindings j = [] := bindings_eq_nil (Nat.zero_le j)
  constructor
  · rfl
  · intro i hi
    exact absurd hi (Nat.not_lt_zero i)
  · intro j name
    rw [hempty]
    exact ⟨fun hbound => absurd hbound Bool.false_ne_true, False.elim⟩
  · intro j name v
    rw [hempty]
    constructor
    · intro hvalue
      cases hvalue
    · intro hwritten
      cases hwritten

/-- A new scope holds nothing. -/
theorem bindings_push_nil (s : Store) (outer : List ScopeId) (k : ScopeId) :
    (s.push outer []).bindings k = s.bindings k := by
  rw [bindings_push]
  by_cases hnew : k = s.size
  · rw [if_pos hnew, hnew, bindings_eq_nil (Nat.le_refl _)]
  · rw [if_neg hnew]

/-- A scope is made, and where it was made is remembered. -/
theorem push (h : s.Recalls past) {outer : List ScopeId} {last : ScopeStep n (n + 1)}
    (hold : ∀ i : Nat, i < n → (past.step last).enclosing? i = past.enclosing? i)
    (hnew : outer = ((past.step last).enclosing? n).elim [] s.chain)
    (hdefined : ∀ j name, (past.step last).Defined j name ↔ past.Defined j name)
    (hsilent : ∀ j name v, ¬ past.Writes last j name v) :
    (s.push outer []).Recalls (past.step last) := by
  have hchain : ∀ i : Nat, i < n → (s.push outer []).chain i = s.chain i := by
    intro i hi
    rw [chain_push, h.size, if_neg (Nat.ne_of_lt hi)]
  -- What a new scope is made in is older, so its chain is the one it had.
  have houter : ∀ i, ((past.step last).enclosing? i).elim [] (s.push outer []).chain =
      ((past.step last).enclosing? i).elim [] s.chain := by
    intro i
    cases hlink : (past.step last).enclosing? i with
    | none => rfl
    | some parent =>
        obtain ⟨hlt, hmade⟩ := lt_of_enclosing? hlink
        have hbefore : parent < n := Nat.lt_of_lt_of_le hlt (Nat.le_of_lt_succ hmade)
        exact hchain parent hbefore
  constructor
  · rw [size_push, h.size]
  · intro i hi
    rw [houter]
    by_cases hlast : i = n
    · rw [chain_push, h.size, if_pos hlast, hlast, hnew]
    · have hbefore : i < n := by omega
      rw [hchain i hbefore, hold i hbefore]
      exact h.chain i hbefore
  · intro j name
    rw [bindings_push_nil, hdefined]
    exact h.bound j name
  · intro j name v
    rw [bindings_push_nil, lastWritten_step_of_silent (hsilent j name)]
    exact h.value j name v

/-- One binding is written, and the past takes note of it. -/
theorem change (h : s.Recalls past) {last : ScopeStep n n} {j : ScopeId} {v : Value}
    (hchange : s.ChangedAt j name v s')
    (hlinks : ∀ i, (past.step last).enclosing? i = past.enclosing? i)
    (hdefined : ∀ k other,
      (past.step last).Defined k other ↔ k = j ∧ other = name ∨ past.Defined k other)
    (hwrites : ∀ k other w, past.Writes last k other w ↔ k = j ∧ other = name ∧ w = v) :
    s'.Recalls (past.step last) := by
  constructor
  · rw [hchange.size, h.size]
  · intro i hi
    have hsame : s'.chain = s.chain := funext hchange.chain
    rw [hsame, hlinks]
    exact h.chain i hi
  · intro k other
    rw [hdefined]
    by_cases hplace : k = j ∧ other = name
    · obtain ⟨rfl, rfl⟩ := hplace
      rw [hchange.written]
      exact ⟨fun _ => .inl ⟨rfl, rfl⟩, fun _ => rfl⟩
    · rw [hchange.others k other hplace, h.bound]
      exact ⟨.inr, fun hd => hd.resolve_left hplace⟩
  · intro k other w
    by_cases hplace : k = j ∧ other = name
    · obtain ⟨rfl, rfl⟩ := hplace
      have hlast : ∀ u, past.Writes last k other u ↔ u = v := fun u =>
        (hwrites k other u).trans ⟨fun hu => hu.2.2, fun hu => ⟨rfl, rfl, hu⟩⟩
      rw [hchange.written, lastWritten_step_of_writes hlast, Option.some.injEq, eq_comm]
    · have hsilent : ∀ u, ¬ past.Writes last k other u := fun u hu =>
        hplace ⟨((hwrites k other u).mp hu).1, ((hwrites k other u).mp hu).2.1⟩
      rw [hchange.others k other hplace, lastWritten_step_of_silent hsilent]
      exact h.value k other w

/-- Nothing is written. -/
theorem silent (h : s.Recalls past) {last : ScopeStep n n}
    (hlinks : ∀ i, (past.step last).enclosing? i = past.enclosing? i)
    (hdefined : ∀ k other, (past.step last).Defined k other ↔ past.Defined k other)
    (hsilent : ∀ k other w, ¬ past.Writes last k other w) : s.Recalls (past.step last) where
  size := h.size
  chain i hi := by
    rw [hlinks]
    exact h.chain i hi
  bound k other := (h.bound k other).trans (hdefined k other).symm
  value k other w := (h.value k other w).trans (lastWritten_step_of_silent (hsilent k other)).symm

/-- Where an assignment finds the name, it changes the binding it found. -/
theorem assign?_of_nearest (h : s.Recalls past) {i : Fin n} {j : ScopeId} (v : Value)
    (hj : past.Nearest name i.val j) : s.assign? i.val name v = some (s.define j name v) := by
  rw [assign?, (h.resolve?_eq_some_iff name i.val i.isLt j).mpr hj]

/-- **Every step keeps the store up with its past.** -/
theorem perform (h : s.Recalls past) (last : ScopeStep n m) :
    (last.perform s).Recalls (past.step last) := by
  cases last with
  | root =>
      refine h.push (fun _ _ => rfl) ?_ (fun _ _ => Iff.rfl) fun _ _ _ hw => by cases hw
      cases hlink : (past.step (.root : ScopeStep n (n + 1))).enclosing? n with
      | none => rfl
      | some parent =>
          have hlink : past.enclosing? n = some parent := hlink
          exact absurd (lt_of_enclosing? hlink).2 (Nat.lt_irrefl n)
  | child parent =>
      refine h.push (fun i hi => if_neg (Nat.ne_of_lt hi)) ?_ (fun _ _ => Iff.rfl)
        fun _ _ _ hw => by cases hw
      have hlink : (past.step (.child parent)).enclosing? n = some parent.val := if_pos rfl
      rw [hlink]
      rfl
  | define scope name value =>
      have hexists : scope.val < s.size := by rw [h.size]; exact scope.isLt
      exact h.change (changedAt_define hexists name value) (fun _ => rfl) (fun _ _ => Iff.rfl)
        fun _ _ _ => writes_define_iff
  | get scope name =>
      exact h.silent (fun _ => rfl) (fun _ _ => Iff.rfl) fun _ _ _ hw => by cases hw
  | assign scope name value =>
      cases hresolve : s.resolve? scope.val name with
      | none =>
          have hnone : ∀ j, ¬ past.Nearest name scope.val j := by
            intro j hj
            rw [(h.resolve?_eq_some_iff name scope.val scope.isLt j).mpr hj] at hresolve
            cases hresolve
          have hsame : (ScopeStep.assign scope name value).perform s = s := by
            rw [ScopeStep.perform, assign?, hresolve]
            rfl
          rw [hsame]
          exact h.silent (fun _ => rfl) (fun _ _ => Iff.rfl) fun j _ _ hw =>
            hnone j ((writes_assign_iff.mp hw).1 ▸ (writes_assign_iff.mp hw).2.1)
      | some j =>
          have hj := (h.resolve?_eq_some_iff name scope.val scope.isLt j).mp hresolve
          have hexists : j < s.size := by rw [h.size]; exact hj.lt scope.isLt
          have hdefined : past.Defined j name := (h.bound j name).mp (isSome_of_resolve? hresolve)
          have hstep : (ScopeStep.assign scope name value).perform s = s.define j name value := by
            rw [ScopeStep.perform, h.assign?_of_nearest value hj]
            rfl
          rw [hstep]
          refine h.change (changedAt_define hexists name value) (fun _ => rfl) ?_ ?_
          · rintro k other
            refine ⟨.inr, ?_⟩
            rintro (⟨rfl, rfl⟩ | hd)
            · exact hdefined
            · exact hd
          · intro k other w
            rw [writes_assign_iff]
            constructor
            · rintro ⟨rfl, hk, rfl⟩
              have hresolve' := (h.resolve?_eq_some_iff other scope.val scope.isLt k).mpr hk
              rw [hresolve, Option.some.injEq] at hresolve'
              exact ⟨hresolve'.symm, rfl, rfl⟩
            · rintro ⟨rfl, rfl, rfl⟩
              exact ⟨rfl, hj, rfl⟩

end Store.Recalls

/-- **The store after a history is as the history tells.** -/
theorem ScopeHistory.recalls : {n : Nat} → (past : ScopeHistory n) → past.store.Recalls past
  | _, start => .start
  | _, step past last => past.recalls.perform last

/-! ### What a change does to other lookups -/

namespace Store.ChangedAt

variable {s s' : Store} {j : ScopeId} {name : String} {v : Value}

/-- If the name was bound there before, no name is found anywhere else than it was. -/
theorem resolve?_eq (h : s.ChangedAt j name v s') (hbound : ((s.bindings j).get? name).isSome)
    (k : ScopeId) (other : String) : s'.resolve? k other = s.resolve? k other := by
  have hsame : ∀ i, ((s'.bindings i).get? other).isSome = ((s.bindings i).get? other).isSome := by
    intro i
    by_cases hplace : i = j ∧ other = name
    · obtain ⟨rfl, rfl⟩ := hplace
      rw [h.written, hbound, Option.isSome_some]
    · rw [h.others i other hplace]
  simp only [resolve?, h.chain, hsame]

/-- Who found the binding finds the new value. -/
theorem get?_of_resolve? (h : s.ChangedAt j name v s')
    (hbound : ((s.bindings j).get? name).isSome) {k : ScopeId} (hk : s.resolve? k name = some j) :
    s'.get? k name = some v := by
  rw [get?, h.resolve?_eq hbound, hk, Option.bind_some, h.written]

/-- Who did not find it finds what was there. -/
theorem get?_eq (h : s.ChangedAt j name v s') (hbound : ((s.bindings j).get? name).isSome)
    {k : ScopeId} {other : String} (hk : ¬ (other = name ∧ s.resolve? k name = some j)) :
    s'.get? k other = s.get? k other := by
  rw [get?, get?, h.resolve?_eq hbound]
  cases hresolve : s.resolve? k other with
  | none => rfl
  | some i =>
      have hplace : ¬ (i = j ∧ other = name) := by
        rintro ⟨rfl, rfl⟩
        exact hk ⟨rfl, hresolve⟩
      rw [Option.bind_some, Option.bind_some, h.others i other hplace]

end Store.ChangedAt

/-! ### Variables -/

/-- What the past tells about the variables that are seen from a scope. -/
structure ScopeHistory.Tells {n : Nat} (past : ScopeHistory n) (s : Store) (i : Fin n) : Prop where
  /-- A name has the value that was last written to it in the nearest scope that defined it. -/
  value : ∀ name v, s.get? i.val name = some v ↔
    ∃ j, past.Nearest name i.val j ∧ past.LastWritten j name v
  /-- It has none if no scope from here outwards has defined it, and only then. -/
  missing : ∀ name, s.get? i.val name = none ↔ ∀ j, past.Outward i.val j → ¬ past.Defined j name
  /-- What has no value cannot be assigned to, and nothing else. -/
  unassignable : ∀ name v, s.assign? i.val name v = none ↔ s.get? i.val name = none
  /-- An assignment changes the binding that is read, which exists, and no other.  What is read
  from anywhere is the new value where it is read from that binding, and else what it was. -/
  assigned : ∀ name v s', s.assign? i.val name v = some s' → ∃ j, past.Nearest name i.val j ∧
    s.get? i.val name = (s.bindings j).get? name ∧ ((s.bindings j).get? name).isSome ∧
    s.ChangedAt j name v s' ∧ ∀ (k : Fin n) other,
      (other = name ∧ past.Nearest name k.val j → s'.get? k.val other = some v) ∧
      (¬ (other = name ∧ past.Nearest name k.val j) → s'.get? k.val other = s.get? k.val other)
  /-- A definition changes a binding of its own scope and no other. -/
  defined : ∀ name v, s.ChangedAt i.val name v (s.define i.val name v)
  /-- So do the steps of a machine, and those that fail change nothing. -/
  fetches : ∀ (name : Token) (m : Machine), m.store = s → m.scope = i.val →
    Exec.fetch name m = match s.get? i.val name.lexeme with
      | some v => .ok v m
      | none => .error (.fault (.raised name (.undefinedVariable name.lexeme))) m
  assigns : ∀ (name : Token) (v : Value) (m : Machine), m.store = s → m.scope = i.val →
    Exec.assign name v m = match s.assign? i.val name.lexeme v with
      | some s' => .ok () { m with store := s' }
      | none => .error (.fault (.raised name (.undefinedVariable name.lexeme))) m
  defines : ∀ (name : Token) (v : Value) (m : Machine), m.store = s → m.scope = i.val →
    Exec.define name v m = .ok () { m with store := s.define i.val name.lexeme v }

namespace Store.Recalls

variable {n : Nat} {s s' : Store} {past : ScopeHistory n} {name : String} {v : Value}

/-- An assignment that succeeds changes the binding it finds. -/
theorem changedAt_of_assign? (h : s.Recalls past) {i : Fin n}
    (hassign : s.assign? i.val name v = some s') :
    ∃ j, s.resolve? i.val name = some j ∧ s.ChangedAt j name v s' := by
  cases hresolve : s.resolve? i.val name with
  | none =>
      rw [assign?, hresolve] at hassign
      cases hassign
  | some j =>
      rw [assign?, hresolve] at hassign
      cases hassign
      have hj := (h.resolve?_eq_some_iff name i.val i.isLt j).mp hresolve
      have hexists : j < s.size := by rw [h.size]; exact hj.lt i.isLt
      exact ⟨j, rfl, changedAt_define hexists name v⟩

theorem tells (h : s.Recalls past) (i : Fin n) : past.Tells s i where
  value name v := h.get?_eq_some_iff i.isLt
  missing name := h.get?_eq_none_iff i.isLt
  unassignable := s.assign?_eq_none_iff i.val
  assigned name v s' hassign := by
    obtain ⟨j, hresolve, hchange⟩ := h.changedAt_of_assign? hassign
    have hbound := isSome_of_resolve? hresolve
    have hread : s.get? i.val name = (s.bindings j).get? name := by
      rw [get?, hresolve, Option.bind_some]
    have hnearest := (h.resolve?_eq_some_iff name i.val i.isLt j).mp hresolve
    refine ⟨j, hnearest, hread, hbound, hchange, ?_⟩
    intro k other
    rw [← h.resolve?_eq_some_iff name k.val k.isLt j]
    constructor
    · rintro ⟨rfl, hk⟩
      exact hchange.get?_of_resolve? hbound hk
    · exact hchange.get?_eq hbound
  defined name v := by
    have hexists : i.val < s.size := by rw [h.size]; exact i.isLt
    exact changedAt_define hexists name v
  fetches name m hstore hscope := by
    rw [Exec.fetch, hstore, hscope]
    cases s.get? i.val name.lexeme <;> rfl
  assigns name v m hstore hscope := by
    subst hstore
    rw [Exec.assign_apply, ← hscope, assign?]
    cases m.store.resolve? m.scope name.lexeme <;> rfl
  defines name v m hstore hscope := by
    subst hstore
    rw [← hscope]
    rfl

end Store.Recalls

/-- **Variables follow the history of their scopes.**  After any steps, from any scope, names
are looked up, assigned to and defined as the past tells. -/
theorem ScopeHistory.variables_follow_history {n : Nat} (past : ScopeHistory n) (i : Fin n) :
    past.Tells past.store i :=
  past.recalls.tells i

/-- What is assigned from inside, before the inner scope has a variable of this name, stays with
the outer scope. -/
example :
    let past := ((((ScopeHistory.start.step .root).step (.child 0)).step (.define 0 "a" .nil)).step
      (.assign 1 "a" (.bool true))).step (.define 1 "a" (.bool false))
    (past.store.get? 0 "a", past.store.get? 1 "a") = (some (.bool true), some (.bool false)) := by
  rfl

end Lox
