/-
Laws of one run.

A law says what machines are like (`Holds`), what may become of a machine (`Grows`)
and which functions may be around (`Admits`).  If the elementary steps keep to a law
then every program does, however it ends: `Law.kept`.

The elementary steps are stated as what they do to a machine: printing, reading the
clock, writing to a scope that can be seen, making a function, and entering a new
scope and coming back.  A run of one machine is compared with itself, so the cases
of the evaluator are those of `Comparison` and none are gone through here.
-/
import Lox.Proofs.Evaluation.Comparison

namespace Lox

/-! ### What elementary steps do to a machine

Steps are written in a monad that keeps the machine out of sight, and a law is about
machines.  Here each elementary step is applied to one, and what it makes of it has a
name of its own.
-/

namespace Machine

/-- The machine in a new scope inside `parent`. -/
def enter (m : Machine) (parent : ScopeId) (bindings : Bindings) : Machine :=
  { m with store := m.store.pushChild parent bindings, scope := m.store.size }

/-- The machine back in a scope. -/
def resume (m : Machine) (scope : ScopeId) : Machine := { m with scope := scope }

/-- The machine after a text was printed, as far as it fits. -/
def print (m : Machine) (text : String) : Machine :=
  { m with output := (m.output.write text).1 }

/-- The machine after the clock was read. -/
def tick (m : Machine) : Machine := { m with readings := m.readings + 1 }

/-- The machine after a value was written to a scope. -/
def write (m : Machine) (id : ScopeId) (name : String) (value : Value) : Machine :=
  { m with store := m.store.define id name value }

/-- The machine after a function was made. -/
def countFunction (m : Machine) : Machine := { m with functions := m.functions + 1 }

/-- The function that a declaration makes. -/
def newFunction (m : Machine) (name : Token) (params : List Token) (body : List Stmt) : Closure :=
  ⟨m.functions, name, params, body, m.scope⟩

end Machine

namespace Exec

variable {α : Type}

/-- The machine a step leaves, however it ends. -/
def left : EStateM.Result Stop Machine α → Machine
  | .ok _ m => m
  | .error _ m => m

theorem emit_apply (text : String) (m : Machine) :
    emit text m = match (m.output.write text).2 with
      | true => .ok () (m.print text)
      | false => .error (.fault .outputFull) (m.print text) := by
  obtain ⟨store, scope, functions, output, clock, readings⟩ := m
  simp only [emit, Machine.print]
  cases output.write text with
  | mk more fits => cases fits <;> rfl

theorem assign_apply (name : Token) (value : Value) (m : Machine) :
    assign name value m = match m.store.resolve? m.scope name.lexeme with
      | some j => .ok () (m.write j name.lexeme value)
      | none => raise name (.undefinedVariable name.lexeme) m := rfl

theorem within_apply (parent : ScopeId) (bindings : Bindings) (p : Exec α) (m : Machine) :
    within parent bindings p m = match p (m.enter parent bindings) with
      | .ok a m' => .ok a (m'.resume m.scope)
      | .error stop m' => .error stop (m'.resume m.scope) := by
  unfold within Machine.enter
  simp only
  generalize p _ = result
  cases result <;> rfl

/-- A call runs the body of the function in a scope inside the one the function was declared in. -/
theorem call_apply (fuel : Nat) (f : Closure) (values : List Value) (m : Machine) :
    call (fuel + 1) (.function f) values m =
      match executeAll fuel f.body (m.enter f.scope (f.arguments values)) with
      | .ok flow m' => .ok flow.result (m'.resume m.scope)
      | .error stop m' => .error stop (m'.resume m.scope) := by
  show EStateM.bind (within f.scope (f.arguments values) (executeAll fuel f.body))
    (fun flow => pure flow.result) m = _
  rw [EStateM.bind, within_apply]
  cases executeAll fuel f.body (m.enter f.scope (f.arguments values)) <;> rfl

end Exec

/-- The scope a name is found in lies on the chain. -/
theorem Store.mem_chain_of_resolve? {s : Store} {id j : ScopeId} {name : String}
    (h : s.resolve? id name = some j) : j ∈ s.chain id :=
  List.mem_of_find?_eq_some h

/-- The value of a name is bound in a scope of the chain. -/
theorem Store.get?_eq_some {s : Store} {id : ScopeId} {name : String} {value : Value}
    (h : s.get? id name = some value) :
    ∃ j ∈ s.chain id, (s.bindings j).get? name = some value := by
  unfold get? at h
  cases hresolve : s.resolve? id name with
  | none =>
      rw [hresolve] at h
      exact nomatch h
  | some j =>
      rw [hresolve] at h
      exact ⟨j, mem_chain_of_resolve? hresolve, h⟩

/-! ### Bindings and where they come from

Nothing is ever bound that nobody gave.  What is in a scope after a definition, or in
the scope of a call, was there before or is one of the values that were given.  To
follow functions through the store a law needs no more than that.
-/

namespace Bindings

theorem mem_of_get? {bindings : Bindings} {name : String} {value : Value}
    (h : bindings.get? name = some value) : (name, value) ∈ bindings := by
  induction bindings with
  | nil => exact nomatch h
  | cons entry rest ih =>
      obtain ⟨n, v⟩ := entry
      rw [get?] at h
      by_cases hname : n = name
      · rw [if_pos hname, Option.some.injEq] at h
        rw [hname, h]
        exact List.mem_cons_self
      · rw [if_neg hname] at h
        exact List.mem_cons_of_mem _ (ih h)

/-- What is bound after a definition was bound before, or is what was defined. -/
theorem mem_set {bindings : Bindings} {name n : String} {value v : Value}
    (h : (n, v) ∈ bindings.set name value) : (n, v) ∈ bindings ∨ n = name ∧ v = value := by
  induction bindings with
  | nil =>
      rw [set, List.mem_singleton, Prod.mk.injEq] at h
      exact .inr h
  | cons entry rest ih =>
      obtain ⟨m, w⟩ := entry
      rw [set] at h
      by_cases hname : m = name
      · rw [if_pos hname] at h
        rcases List.mem_cons.mp h with heq | hmem
        · obtain ⟨rfl, rfl⟩ := Prod.mk.inj heq
          exact .inr ⟨hname, rfl⟩
        · exact .inl (List.mem_cons_of_mem _ hmem)
      · rw [if_neg hname] at h
        rcases List.mem_cons.mp h with heq | hmem
        · exact .inl (heq ▸ List.mem_cons_self)
        · exact (ih hmem).imp_left (List.mem_cons_of_mem _)

/-- The pairs are bound one after the other. -/
theorem ofPairs_eq_foldl (pairs : List (String × Value)) :
    ofPairs pairs =
      pairs.foldl (fun (bindings : Bindings) pair => bindings.set pair.1 pair.2) [] := rfl

/-- What is bound from pairs is one of them. -/
theorem mem_ofPairs {pairs : List (String × Value)} {n : String} {v : Value}
    (h : (n, v) ∈ ofPairs pairs) : (n, v) ∈ pairs := by
  have hfold : ∀ (pairs : List (String × Value)) (bindings : Bindings),
      (n, v) ∈ pairs.foldl (fun (bindings : Bindings) pair => bindings.set pair.1 pair.2) bindings →
        (n, v) ∈ pairs ∨ (n, v) ∈ bindings := by
    intro pairs
    induction pairs with
    | nil => exact fun _ hmem => .inr hmem
    | cons pair pairs ih =>
        intro bindings hmem
        rcases ih (bindings.set pair.1 pair.2) hmem with hpairs | hset
        · exact .inl (List.mem_cons_of_mem _ hpairs)
        · rcases mem_set hset with hbindings | ⟨rfl, rfl⟩
          · exact .inr hbindings
          · exact .inl List.mem_cons_self
  rw [ofPairs_eq_foldl] at h
  exact (hfold pairs [] h).resolve_right List.not_mem_nil

end Bindings

/-- A parameter is bound to one of the arguments. -/
theorem Closure.mem_of_mem_arguments {f : Closure} {values : List Value} {name : String}
    {value : Value} (h : (name, value) ∈ f.arguments values) : value ∈ values :=
  (List.of_mem_zip (Bindings.mem_ofPairs h)).2

/-! ### What elementary steps do to the store

Writing leaves every chain as it is, and entering leaves every old scope as it is.  A
law about scopes is checked by these equations, without looking into the store again.
-/

namespace Machine

theorem size_write (m : Machine) (j : ScopeId) (name : String) (v : Value) :
    (m.write j name v).store.size = m.store.size :=
  m.store.size_define j name v

theorem chain_write (m : Machine) (j : ScopeId) (name : String) (v : Value) (i : ScopeId) :
    (m.write j name v).store.chain i = m.store.chain i :=
  m.store.chain_define j name v i

theorem bindings_write (m : Machine) (j : ScopeId) (name : String) (v : Value) (i : ScopeId) :
    (m.write j name v).store.bindings i =
      if j = i ∧ i < m.store.size then (m.store.bindings i).set name v
      else m.store.bindings i :=
  m.store.bindings_define j name v i

theorem size_enter (m : Machine) (parent : ScopeId) (bindings : Bindings) :
    (m.enter parent bindings).store.size = m.store.size + 1 :=
  m.store.size_push _ _

theorem chain_enter (m : Machine) (parent : ScopeId) (bindings : Bindings) (i : ScopeId) :
    (m.enter parent bindings).store.chain i =
      if i = m.store.size then i :: m.store.chain parent else m.store.chain i :=
  m.store.chain_push _ _ i

theorem bindings_enter (m : Machine) (parent : ScopeId) (bindings : Bindings) (i : ScopeId) :
    (m.enter parent bindings).store.bindings i =
      if i = m.store.size then bindings else m.store.bindings i :=
  m.store.bindings_push _ _ i

variable {m : Machine} {parent i j k : ScopeId} {bindings : Bindings} {name n : String}
  {v w : Value}

/-- What is bound after writing was bound before, or is what was written. -/
theorem mem_bindings_write (h : (n, w) ∈ (m.write j name v).store.bindings i) :
    (n, w) ∈ m.store.bindings i ∨ w = v := by
  rw [bindings_write] at h
  by_cases hplace : j = i ∧ i < m.store.size
  · rw [if_pos hplace] at h
    exact (Bindings.mem_set h).imp_right And.right
  · rw [if_neg hplace] at h
    exact .inl h

/-- The scopes around a scope are those around it before, or it is the new one. -/
theorem mem_chain_enter (h : k ∈ (m.enter parent bindings).store.chain i) :
    i = m.store.size ∧ (k = i ∨ k ∈ m.store.chain parent) ∨
      i ≠ m.store.size ∧ k ∈ m.store.chain i := by
  rw [chain_enter] at h
  by_cases hnew : i = m.store.size
  · rw [if_pos hnew] at h
    exact .inl ⟨hnew, List.mem_cons.mp h⟩
  · rw [if_neg hnew] at h
    exact .inr ⟨hnew, h⟩

/-- What is bound in a scope was bound there before, or it is the new one. -/
theorem mem_bindings_enter (h : (n, v) ∈ (m.enter parent bindings).store.bindings i) :
    i = m.store.size ∧ (n, v) ∈ bindings ∨ i ≠ m.store.size ∧ (n, v) ∈ m.store.bindings i := by
  rw [bindings_enter] at h
  by_cases hnew : i = m.store.size
  · rw [if_pos hnew] at h
    exact .inl ⟨hnew, h⟩
  · rw [if_neg hnew] at h
    exact .inr ⟨hnew, h⟩

end Machine

/-! ### Laws

None of the three parts of a law is preserved by itself.  A machine stays as the law
wants it only if what a program writes may be around, and what may be around when it is
evaluated has to be so still when it is written, some steps later.  That is what `Grows`
is for.
-/

/-- Something that every run keeps to, because the elementary steps do. -/
structure Law where
  /-- What machines are like. -/
  Holds : Machine → Prop
  /-- What may become of a machine.  Where it stands does not matter here. -/
  Grows : Machine → Machine → Prop
  /-- Which functions may be around. -/
  Admits : Machine → Closure → Prop
  /-- As long as nothing is done, the machine is what it was. -/
  refl : ∀ m, Grows m m
  /-- What has become of a machine may become of it on the way to more. -/
  trans : ∀ {m₁ m₂ m₃}, Grows m₁ m₂ → Grows m₂ m₃ → Grows m₁ m₃
  /-- Going back to a scope does not undo anything. -/
  resume : ∀ {m m'} scope, Grows m m' → Grows m (m'.resume scope)
  /-- A function that may be around may be so for good. -/
  admits : ∀ {m m' f}, Grows m m' → Admits m f → Admits m' f
  /-- Printing keeps to the law, whether or not the text fits. -/
  print : ∀ {m} text, Holds m → Holds (m.print text) ∧ Grows m (m.print text)
  /-- So does reading the clock. -/
  tick : ∀ {m}, Holds m → Holds m.tick ∧ Grows m m.tick
  /-- A function that can be seen may be around. -/
  fetch : ∀ {m j name f}, Holds m → j ∈ m.store.chain m.scope →
    (name, .function f) ∈ m.store.bindings j → Admits m f
  /-- A program writes to scopes that it sees, and only values that may be around. -/
  write : ∀ {m j v} name, Holds m → j = m.scope ∨ j ∈ m.store.chain m.scope →
    (∀ f, v = .function f → Admits m f) → Holds (m.write j name v) ∧ Grows m (m.write j name v)
  /-- The function that is made may be around from then on. -/
  make : ∀ {m} name params body, Holds m →
    Holds m.countFunction ∧ Grows m m.countFunction ∧
      Admits m.countFunction (m.newFunction name params body)
  /-- A new scope is put inside the current one, for a block, or inside that of a function that may
  be around, for a call. -/
  enter : ∀ {m} parent bindings, Holds m →
    parent = m.scope ∨ (∃ f, Admits m f ∧ f.scope = parent) →
    (∀ name f, (name, .function f) ∈ bindings → Admits m f) →
    Holds (m.enter parent bindings) ∧ Grows m (m.enter parent bindings)
  /-- Whatever was done in another scope, a machine that goes back is as the law wants it. -/
  leave : ∀ {m m'}, Holds m → Holds m' → Grows m m' → Holds (m'.resume m.scope)

namespace Law

variable (law : Law) {α β : Type}

/-- A value that may be around. -/
def Allows (m : Machine) (v : Value) : Prop := ∀ f, v = .function f → law.Admits m f

/-- The step, started on this machine, has kept to the law and ended in the scope it started
in. -/
def Keeps (A : Machine → α → Prop) (m : Machine) : EStateM.Result Stop Machine α → Prop
  | .ok a m' => law.Holds m' ∧ law.Grows m m' ∧ m'.scope = m.scope ∧ A m' a
  | .error _ m' => law.Holds m' ∧ law.Grows m m' ∧ m'.scope = m.scope

variable {law}

theorem related_iff {m : Machine} {v w : Value} :
    v.Related (fun f g => f = g ∧ law.Admits m f) w ↔ v = w ∧ law.Allows m v := by
  constructor
  · intro h
    cases h with
    | function hf => exact ⟨by rw [hf.1], fun _ heq => by cases heq; exact hf.2⟩
    | _ => exact ⟨rfl, nofun⟩
  · rintro ⟨rfl, hv⟩
    cases v with
    | nil => exact .nil
    | bool b => exact .bool b
    | number n => exact .number n
    | string s => exact .string s
    | native f => exact .native f
    | function f => exact .function ⟨rfl, hv f rfl⟩

theorem Keeps.trans {A : Machine → α → Prop} {m m' : Machine} (h : law.Grows m m')
    (hscope : m'.scope = m.scope) {r : EStateM.Result Stop Machine α} (hr : law.Keeps A m' r) :
    law.Keeps A m r := by
  cases r with
  | ok a m₁ => exact ⟨hr.1, law.trans h hr.2.1, hr.2.2.1.trans hscope, hr.2.2.2⟩
  | error stop m₁ => exact ⟨hr.1, law.trans h hr.2.1, hr.2.2.trans hscope⟩

/-- However the step ended, the machine has kept to the law. -/
theorem Keeps.left {A : Machine → α → Prop} {m : Machine} {r : EStateM.Result Stop Machine α}
    (h : law.Keeps A m r) :
    law.Holds (Exec.left r) ∧ law.Grows m (Exec.left r) ∧ (Exec.left r).scope = m.scope := by
  cases r with
  | ok a m' => exact ⟨h.1, h.2.1, h.2.2.1⟩
  | error stop m' => exact h

/-- Back in the scope it left for another, a machine has kept to the law. -/
theorem Keeps.within {A : Machine → α → Prop} {m : Machine} {parent : ScopeId}
    {bindings : Bindings} {p : Exec α} (hm : law.Holds m)
    (henter : law.Grows m (m.enter parent bindings))
    (hA : ∀ m' a scope, A m' a → A (m'.resume scope) a)
    (h : law.Keeps A (m.enter parent bindings) (p (m.enter parent bindings))) :
    law.Keeps A m (Exec.within parent bindings p m) := by
  rw [Exec.within_apply]
  cases hp : p (m.enter parent bindings) with
  | ok a m' =>
      rw [hp] at h
      have hgrows := law.trans henter h.2.1
      exact ⟨law.leave hm h.1 hgrows, law.resume _ hgrows, rfl, hA m' a _ h.2.2.2⟩
  | error stop m' =>
      rw [hp] at h
      have hgrows := law.trans henter h.2.1
      exact ⟨law.leave hm h.1 hgrows, law.resume _ hgrows, rfl⟩

/-- A value on one side of a run compared with itself may be around. -/
theorem allows_of_mem {m : Machine} {vs ws : List Value}
    (h : List.Forall₂ (Value.Related fun f g => f = g ∧ law.Admits m f) vs ws) :
    ∀ v ∈ vs, law.Allows m v := by
  induction h with
  | nil => exact nofun
  | cons hv _ ih => exact List.forall_mem_cons.mpr ⟨(related_iff.mp hv).2, ih⟩

theorem Allows.grow {m m' : Machine} (h : law.Grows m m') {v : Value} (hv : law.Allows m v) :
    law.Allows m' v :=
  fun f hf => law.admits h (hv f hf)

/-- What a statement returns may be around. -/
def AllowsFlow (law : Law) (m : Machine) (flow : Flow) : Prop :=
  ∀ v, flow = .returned v → law.Allows m v

theorem related_flow_iff {m : Machine} {flow other : Flow} :
    flow.Related (fun f g => f = g ∧ law.Admits m f) other ↔
      flow = other ∧ law.AllowsFlow m flow := by
  constructor
  · intro h
    cases h with
    | normal => exact ⟨rfl, nofun⟩
    | returned hv =>
        obtain ⟨rfl, hallows⟩ := related_iff.mp hv
        exact ⟨rfl, fun _ heq => by cases heq; exact hallows⟩
  · rintro ⟨rfl, hflow⟩
    cases flow with
    | normal => exact .normal
    | returned v => exact .returned (related_iff.mpr ⟨rfl, hflow v rfl⟩)

/-- Where the machine stands makes no difference to what a statement may return. -/
theorem related_flow_resume {m : Machine} {flow : Flow} (scope : ScopeId)
    (h : ∃ other, flow.Related (fun f g => f = g ∧ law.Admits m f) other) :
    ∃ other, flow.Related (fun f g => f = g ∧ law.Admits (m.resume scope) f) other := by
  obtain ⟨other, hother⟩ := h
  obtain ⟨rfl, hflow⟩ := related_flow_iff.mp hother
  refine ⟨flow, related_flow_iff.mpr ⟨rfl, fun v hv => ?_⟩⟩
  exact (hflow v hv).grow (law.resume scope (law.refl m))

/-- A law as a comparison of a run with itself.  The world is the machine at an earlier moment. -/
def comparison (law : Law) : Comparison where
  World := Machine
  Grows := law.Grows
  functions m f g := f = g ∧ law.Admits m f
  Related u A p _ := ∀ m, law.Holds m → law.Grows u m → law.Keeps (fun m a => ∃ b, A m a b) m (p m)
  grow hu hf := ⟨hf.1, law.admits hu hf.2⟩
  congruent u := ⟨fun h => by rw [h.1], fun h => by rw [h.1], fun h => by rw [h.1],
    fun h h' => by rw [h.1, h'.1]⟩
  pure h m hm hu := ⟨hm, law.refl m, rfl, _, h m hu⟩
  bind {α β u A B p q k l} hp hk := by
    intro m hm hu
    have hfirst := hp m hm hu
    show law.Keeps _ m (EStateM.bind p k m)
    rw [EStateM.bind]
    cases hresult : p m with
    | error stop m' =>
        rw [hresult] at hfirst
        exact hfirst
    | ok a m' =>
        rw [hresult] at hfirst
        obtain ⟨hm', hgrows, hscope, b, hb⟩ := hfirst
        exact (hk m' a b (law.trans hu hgrows) hb m' hm' (law.refl m')).trans hgrows hscope
  outOfFuel m hm _ := ⟨hm, law.refl m, rfl⟩
  raise _ _ m hm _ := ⟨hm, law.refl m, rfl⟩
  emit u text m hm _ := by
    obtain ⟨hprint, hgrows⟩ := law.print text hm
    rw [Exec.emit_apply]
    cases (m.output.write text).2 with
    | true => exact ⟨hprint, hgrows, rfl, (), trivial⟩
    | false => exact ⟨hprint, hgrows, rfl⟩
  readClock u m hm _ := ⟨(law.tick hm).1, (law.tick hm).2, rfl, _, rfl⟩
  fetch u name m hm _ := by
    unfold Exec.fetch
    cases hget : m.store.get? m.scope name.lexeme with
    | none => exact ⟨hm, law.refl m, rfl⟩
    | some v =>
        obtain ⟨j, hj, hbound⟩ := Store.get?_eq_some hget
        refine ⟨hm, law.refl m, rfl, v, related_iff.mpr ⟨rfl, fun f hf => ?_⟩⟩
        rw [hf] at hbound
        exact law.fetch hm hj (Bindings.mem_of_get? hbound)
  assign u name v w hv m hm hu := by
    have hallows := (related_iff.mp hv).2.grow hu
    rw [Exec.assign_apply]
    cases hresolve : m.store.resolve? m.scope name.lexeme with
    | none => exact ⟨hm, law.refl m, rfl⟩
    | some j =>
        obtain ⟨hwrite, hgrows⟩ :=
          law.write name.lexeme hm (.inr (Store.mem_chain_of_resolve? hresolve)) hallows
        exact ⟨hwrite, hgrows, rfl, (), trivial⟩
  define u name v w hv m hm hu := by
    have hallows := (related_iff.mp hv).2.grow hu
    obtain ⟨hwrite, hgrows⟩ := law.write name.lexeme hm (.inl rfl) hallows
    exact ⟨hwrite, hgrows, rfl, (), trivial⟩
  makeFunction u name params body m hm _ := by
    obtain ⟨hmake, hgrows, hadmits⟩ := law.make name params body hm
    exact ⟨hmake, hgrows, rfl, _, .function ⟨rfl, hadmits⟩⟩
  within u f g vs ws p q hf hvs hp m hm hu := by
    obtain ⟨hinner, henter⟩ := law.enter f.scope (f.arguments vs) hm
      (.inr ⟨f, law.admits hu hf.2, rfl⟩) fun name g hmem =>
        law.admits hu (allows_of_mem hvs _ (Closure.mem_of_mem_arguments hmem) g rfl)
    exact .within hm henter (fun _ _ scope => related_flow_resume scope) (hp _ _ hinner (law.refl _))
  nested u p q hp m hm hu := by
    obtain ⟨hinner, henter⟩ := law.enter m.scope [] hm (.inl rfl) nofun
    exact .within hm henter (fun _ _ scope => related_flow_resume scope) (hp _ _ hinner (law.refl _))

/-! ### What every run keeps to -/

theorem Keeps.imp {A B : Machine → α → Prop} (h : ∀ m a, A m a → B m a) {m : Machine}
    {r : EStateM.Result Stop Machine α} (hr : law.Keeps A m r) : law.Keeps B m r := by
  cases r with
  | ok a m' => exact ⟨hr.1, hr.2.1, hr.2.2.1, h m' a hr.2.2.2⟩
  | error stop m' => exact hr

theorem evaluate_keeps (law : Law) (n : Nat) (e : Expr) {m : Machine} (hm : law.Holds m) :
    law.Keeps law.Allows m (Exec.evaluate n e m) :=
  ((law.comparison.evaluator n).evaluate m e m hm (law.refl m)).imp fun _ _ ⟨_, hv⟩ =>
    (related_iff.mp hv).2

theorem execute_keeps (law : Law) (n : Nat) (s : Stmt) {m : Machine} (hm : law.Holds m) :
    law.Keeps law.AllowsFlow m (Exec.execute n s m) :=
  ((law.comparison.evaluator n).execute m s m hm (law.refl m)).imp fun _ _ ⟨_, h⟩ =>
    (related_flow_iff.mp h).2

theorem executeAll_keeps (law : Law) (n : Nat) (ss : List Stmt) {m : Machine}
    (hm : law.Holds m) : law.Keeps law.AllowsFlow m (Exec.executeAll n ss m) :=
  ((law.comparison.evaluator n).executeAll m ss m hm (law.refl m)).imp fun _ _ ⟨_, h⟩ =>
    (related_flow_iff.mp h).2

theorem interpret_keeps (law : Law) (n : Nat) (program : List Stmt) {m : Machine}
    (hm : law.Holds m) : law.Keeps (fun _ _ => True) m (Exec.interpret n program m) := by
  have hall := law.executeAll_keeps n program hm
  show law.Keeps _ m (EStateM.bind (Exec.executeAll n program) (fun _ => Pure.pure ()) m)
  rw [EStateM.bind]
  cases hresult : Exec.executeAll n program m with
  | ok flow m' =>
      rw [hresult] at hall
      exact ⟨hall.1, hall.2.1, hall.2.2.1, trivial⟩
  | error stop m' =>
      rw [hresult] at hall
      exact hall

/-- A call keeps to a law if the function and its arguments may be around. -/
theorem call_keeps (law : Law) (n : Nat) {f : Callee} {values : List Value} {m : Machine}
    (hm : law.Holds m) (hf : ∀ g, f = .function g → law.Admits m g)
    (hvalues : ∀ v ∈ values, law.Allows m v) :
    law.Keeps law.Allows m (Exec.call n f values m) := by
  have hcallee : f.Related (fun f g => f = g ∧ law.Admits m f) f := by
    cases f with
    | function g => exact .function ⟨rfl, hf g rfl⟩
    | native g => exact .native g
  have harguments : law.comparison.AllValues m values values :=
    List.forall₂_same.mpr fun v hv => related_iff.mpr ⟨rfl, hvalues v hv⟩
  exact ((law.comparison.evaluator n).call m f f values values hcallee harguments m hm
    (law.refl m)).imp fun _ _ ⟨_, hv⟩ => (related_iff.mp hv).2

end Law

end Lox
