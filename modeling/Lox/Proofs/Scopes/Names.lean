/-
Which names a run adds to which scopes.

Only a declaration gives a scope a new name, and it gives it to the current one.  What an
expression or a block executes on the way stands in scopes of its own, made for calls
and for blocks, so the scopes that were there keep the names they have.  A statement
adds to the current scope what it declares: itself, or in its branches, or in the body
of a loop, as far as no block is between.  `Exec.Adding` says so of all functions of
the evaluator at once, and is an induction on the fuel.

The parser lets no declaration stand as the body of a loop.  So the block in which the
body and the increment of a `for` loop run together is a scope without names, and what
is looked up from it is looked up from the scope of the condition.
-/
import Lox.Proofs.Grammar.Desugaring
import Lox.Proofs.Session.History
import Lox.Proofs.Scopes.Linked
import Lox.Proofs.Scopes.Restored

namespace Lox

/-! ### What a statement declares

What is nested in a block declares nothing outside of it.  A branch or the body of a
loop runs in the scope of the whole statement, so a declaration in its place would add
to that scope; but parsing leaves none there.
-/

namespace Stmt

mutual

/-- The names that a statement declares in the scope in which it is executed. -/
def declares : Stmt → List String
  | function name _ _ | var name _ => [name.lexeme]
  | conditional _ thenBranch elseBranch => thenBranch.declares ++ declaresElse elseBranch
  | loop _ body => body.declares
  | block _ | expression _ | print _ | return_ _ _ => []

/-- The names that a branch declares that may be missing. -/
def declaresElse : Option Stmt → List String
  | none => []
  | some s => s.declares

end

/-- A branch or the body of a loop declares nothing. -/
theorem declares_eq_nil {f : Bool} : ∀ s : Stmt, s.Shaped f → s.isDeclaration = false →
    s.declares = []
  | .conditional _ thenBranch none, ⟨_, hthen, hkind, _, _⟩, _ => by
      rw [declares, declares_eq_nil thenBranch hthen hkind, declaresElse, List.append_nil]
  | .conditional _ thenBranch (some elseBranch), ⟨_, hthen, hkind, _, helse, helseKind⟩, _ => by
      rw [declares, declares_eq_nil thenBranch hthen hkind, declaresElse,
        declares_eq_nil elseBranch helse helseKind, List.append_nil]
  | .loop _ body, ⟨_, hbody, hkind⟩, _ => by
      rw [declares, declares_eq_nil body hbody hkind]
  | .block _, _, _ | .expression _, _, _ | .print _, _, _ | .return_ _ _, _, _ => rfl

end Stmt

/-! ### Names in scopes -/

/-- The scope has a variable of this name. -/
def Store.Binds (s : Store) (i : ScopeId) (name : String) : Prop :=
  ((s.bindings i).get? name).isSome

namespace Machine

variable {m m' m₁ m₂ : Machine} {i j parent : ScopeId} {name n : String} {v : Value}
  {names more : List String} {bindings : Bindings}

/-- Writing adds the name that is written, to the scope that is written to. -/
theorem binds_write (h : (m.write j name v).store.Binds i n) :
    m.store.Binds i n ∨ i = j ∧ n = name := by
  rw [Store.Binds, bindings_write] at h
  by_cases hplace : j = i ∧ i < m.store.size
  · rw [if_pos hplace, Bindings.get?_set] at h
    by_cases hname : n = name
    · exact .inr ⟨hplace.1.symm, hname⟩
    · rw [if_neg hname] at h
      exact .inl h
  · rw [if_neg hplace] at h
    exact .inl h

private theorem binds_enter (hi : i < m.store.size) :
    (m.enter parent bindings).store.Binds i n ↔ m.store.Binds i n := by
  rw [Store.Binds, bindings_enter, if_neg (Nat.ne_of_lt hi)]
  rfl

/-- The only names a run has added are these, in the scope it ran in. -/
structure AddsOnly (names : List String) (m m' : Machine) : Prop where
  /-- The run ended in the scope in which it began. -/
  scope : m'.scope = m.scope
  /-- No scope is gone. -/
  size : m.store.size ≤ m'.store.size
  /-- A scope that was there has no name that it did not have, unless it is the current one and the
  name is one of these. -/
  binds : ∀ i : Nat, i < m.store.size → ∀ name, m'.store.Binds i name →
    m.store.Binds i name ∨ i = m.scope ∧ name ∈ names

namespace AddsOnly

/-- Only the store and the current scope count. -/
theorem of_same (hstore : m'.store = m.store) (hscope : m'.scope = m.scope) :
    AddsOnly names m m' where
  scope := hscope
  size := Nat.le_of_eq (by rw [hstore])
  binds i _ name hbound := by
    rw [hstore] at hbound
    exact .inl hbound

theorem refl (m : Machine) : AddsOnly names m m := .of_same rfl rfl

theorem trans (h : AddsOnly names m m₁) (h' : AddsOnly names m₁ m₂) : AddsOnly names m m₂ where
  scope := h'.scope.trans h.scope
  size := Nat.le_trans h.size h'.size
  binds i hi name hbound := by
    rcases h'.binds i (Nat.lt_of_lt_of_le hi h.size) name hbound with hbefore | hadded
    · exact h.binds i hi name hbefore
    · rw [h.scope] at hadded
      exact .inr hadded

theorem mono (h : AddsOnly names m m') (hsub : ∀ name ∈ names, name ∈ more) :
    AddsOnly more m m' where
  scope := h.scope
  size := h.size
  binds i hi name hbound :=
    (h.binds i hi name hbound).imp_right fun hadded => ⟨hadded.1, hsub name hadded.2⟩

/-- A definition adds its name to the current scope. -/
theorem define (m : Machine) (name : String) (v : Value) :
    AddsOnly [name] m (m.write m.scope name v) where
  scope := rfl
  size := Nat.le_of_eq (m.size_write m.scope name v).symm
  binds _ _ _ hbound :=
    (binds_write hbound).imp_right fun hadded => ⟨hadded.1, List.mem_singleton.mpr hadded.2⟩

/-- An assignment writes to a name that is there. -/
theorem assign (h : m.store.resolve? m.scope name = some j) :
    AddsOnly names m (m.write j name v) where
  scope := rfl
  size := Nat.le_of_eq (m.size_write j name v).symm
  binds i _ n hbound := by
    rcases binds_write hbound with hbefore | ⟨rfl, rfl⟩
    · exact .inl hbefore
    · have hfound := List.find?_some h
      exact .inl hfound

/-- What runs in a scope of its own adds to that scope only. -/
theorem within (h : AddsOnly names (m.enter parent bindings) m') :
    AddsOnly [] m (m'.resume m.scope) where
  scope := rfl
  size := by
    have hsize := h.size
    rw [size_enter] at hsize
    exact Nat.le_of_succ_le hsize
  binds i hi name hbound := by
    have hentered : i < (m.enter parent bindings).store.size := by
      rw [size_enter]
      exact Nat.lt_succ_of_lt hi
    rcases h.binds i hentered name hbound with hbefore | ⟨hnew, -⟩
    · exact .inl ((binds_enter hi).mp hbefore)
    · exact absurd hnew (Nat.ne_of_lt hi)

end AddsOnly

end Machine

/-! ### What steps add -/

namespace Exec

variable {α β : Type} {names more : List String}

/-- On every machine, and however the step ends, it adds only these names to the current scope
and none to others. -/
def AddsOnly (names : List String) (p : Exec α) : Prop :=
  ∀ m : Machine, m.AddsOnly names (left (p m))

namespace AddsOnly

theorem pure (a : α) : AddsOnly names (Pure.pure a) := fun m => .refl m

private theorem outOfFuel : AddsOnly names (throw .outOfFuel : Exec α) := fun m => .refl m

theorem raise (token : Token) (cause : RuntimeCause) :
    AddsOnly names (Exec.raise token cause : Exec α) := fun m => .refl m

theorem mono {p : Exec α} (h : AddsOnly names p) (hsub : ∀ name ∈ names, name ∈ more) :
    AddsOnly more p := fun m => (h m).mono hsub

/-- What adds nothing may stand wherever names may be added. -/
theorem nothing {p : Exec α} (h : AddsOnly [] p) : AddsOnly names p :=
  h.mono fun _ hmem => absurd hmem List.not_mem_nil

theorem bind {p : Exec α} {k : α → Exec β} (hp : AddsOnly names p)
    (hk : ∀ a, AddsOnly names (k a)) : AddsOnly names (p >>= k) := by
  intro m
  have hfirst := hp m
  cases hresult : p m with
  | ok a m₁ =>
      rw [hresult] at hfirst
      rw [bind_of_ok hresult]
      exact hfirst.trans (hk a m₁)
  | error stop m₁ =>
      rw [hresult] at hfirst
      rw [bind_of_error hresult]
      exact hfirst

private theorem ofOutcome (op : Token) (outcome : Outcome) :
    AddsOnly names (Exec.ofOutcome op outcome) := by
  cases outcome with
  | ok v => exact .pure v
  | error cause => exact .raise op cause

private theorem emit (text : String) : AddsOnly names (Exec.emit text) := by
  intro m
  rw [emit_apply]
  cases (m.output.write text).2 <;> exact .of_same rfl rfl

private theorem readClock : AddsOnly names Exec.readClock := fun _ => .of_same rfl rfl

private theorem fetch (name : Token) : AddsOnly names (Exec.fetch name) := by
  intro m
  unfold Exec.fetch
  cases m.store.get? m.scope name.lexeme <;> exact .refl m

private theorem assign (name : Token) (v : Value) : AddsOnly names (Exec.assign name v) := by
  intro m
  rw [assign_apply]
  cases hresolve : m.store.resolve? m.scope name.lexeme with
  | none => exact .refl m
  | some j => exact .assign hresolve

private theorem define (name : Token) (v : Value) : AddsOnly [name.lexeme] (Exec.define name v) :=
  fun m => .define m name.lexeme v

private theorem makeFunction (name : Token) (params : List Token) (body : List Stmt) :
    AddsOnly names (Exec.makeFunction name params body) := fun _ => .of_same rfl rfl

theorem within {p : Exec α} (parent : ScopeId) (bindings : Bindings) (h : AddsOnly names p) :
    AddsOnly [] (Exec.within parent bindings p) := by
  intro m
  have hinner := h (m.enter parent bindings)
  rw [within_apply]
  cases hresult : p (m.enter parent bindings) <;> rw [hresult] at hinner <;> exact hinner.within

private theorem nested {p : Exec α} (h : AddsOnly names p) : AddsOnly [] (Exec.nested p) :=
  fun m => h.within m.scope [] m

end AddsOnly

/-! ### What the evaluator adds

A call adds nothing at all, although its body may declare names: it runs in a scope of
its own, which was not there before.  So the names that a run may add are those that can
be read off its own tree, and a statement that may or may not be run is counted as if it
were.
-/

/-- What the functions of the evaluator add that are given this much fuel. -/
structure Adding (n : Nat) : Prop where
  evaluate : ∀ e, AddsOnly [] (evaluate n e)
  evaluateAll : ∀ es, AddsOnly [] (evaluateAll n es)
  call : ∀ f values, AddsOnly [] (call n f values)
  execute : ∀ s, AddsOnly s.declares (execute n s)
  executeAll : ∀ ss, AddsOnly (ss.flatMap Stmt.declares) (executeAll n ss)

private theorem adding_zero : Adding 0 where
  evaluate _ := .outOfFuel
  evaluateAll _ := .outOfFuel
  call _ _ := .outOfFuel
  execute _ := .outOfFuel
  executeAll _ := .outOfFuel

private theorem adding_succ {n : Nat} (ih : Adding n) : Adding (n + 1) where
  evaluate e := by
    cases e with
    | assign name value =>
        exact (ih.evaluate value).bind fun v => (AddsOnly.assign name v).bind fun _ => .pure _
    | binary left op right =>
        exact (ih.evaluate left).bind fun l => (ih.evaluate right).bind fun r => .ofOutcome op _
    | call callee paren arguments =>
        refine (ih.evaluate callee).bind fun f => (ih.evaluateAll arguments).bind fun values => ?_
        cases f.callee? with
        | none => exact .raise paren _
        | some f =>
            by_cases harity : values.length = f.arity
            · simp only [if_pos harity]
              exact ih.call f values
            · simp only [if_neg harity]
              exact .raise paren _
    | grouping inner => exact ih.evaluate inner
    | logical left op right =>
        refine (ih.evaluate left).bind fun l => ?_
        cases decidedByLeft op.kind l with
        | none => exact .raise op _
        | some decided =>
            cases decided with
            | true => exact .pure _
            | false => exact ih.evaluate right
    | unary op right => exact (ih.evaluate right).bind fun r => .ofOutcome op _
    | var name => exact .fetch name
    | literal value => exact .pure _
    | get _ name | set _ name _ => exact .raise name _
    | super keyword _ | this keyword => exact .raise keyword _
  evaluateAll es := by
    cases es with
    | nil => exact .pure _
    | cons e es =>
        exact (ih.evaluate e).bind fun _ => (ih.evaluateAll es).bind fun _ => .pure _
  call f values := by
    cases f with
    | function f =>
        exact ((ih.executeAll f.body).within _ _).bind fun _ => .pure _
    | native f =>
        cases f
        exact AddsOnly.readClock.bind fun _ => .pure _
  execute s := by
    cases s with
    | block body => exact (ih.executeAll body).nested
    | expression value => exact (ih.evaluate value).bind fun _ => .pure _
    | function name params body =>
        refine (AddsOnly.makeFunction name params body).bind fun f => ?_
        exact (AddsOnly.define name f).bind fun _ => .pure _
    | conditional condition thenBranch elseBranch =>
        refine (ih.evaluate condition).nothing.bind fun c => ?_
        rw [Stmt.declares]
        by_cases hc : c.truthy = true
        · simp only [if_pos hc]
          exact (ih.execute thenBranch).mono fun _ => List.mem_append_left _
        · simp only [if_neg hc]
          cases elseBranch with
          | none => exact .pure _
          | some s => exact (ih.execute s).mono fun _ => List.mem_append_right _
    | print value =>
        exact (ih.evaluate value).bind fun v => (AddsOnly.emit _).bind fun _ => .pure _
    | return_ keyword value =>
        cases value with
        | none => exact .pure _
        | some value => exact (ih.evaluate value).bind fun _ => .pure _
    | var name initializer =>
        cases initializer with
        | none => exact (AddsOnly.define name .nil).bind fun _ => .pure _
        | some value =>
            refine (ih.evaluate value).nothing.bind fun v => ?_
            exact (AddsOnly.define name v).bind fun _ => .pure _
    | loop condition body =>
        refine (ih.evaluate condition).nothing.bind fun c => ?_
        by_cases hc : c.truthy = true
        · simp only [if_pos hc]
          refine AddsOnly.bind (ih.execute body) fun flow => ?_
          cases flow with
          | normal => exact ih.execute (.loop condition body)
          | returned v => exact .pure _
        · simp only [if_neg hc]
          exact .pure _
  executeAll ss := by
    cases ss with
    | nil => exact .pure _
    | cons s ss =>
        rw [List.flatMap_cons]
        refine ((ih.execute s).mono fun _ => List.mem_append_left _).bind fun flow => ?_
        cases flow with
        | normal => exact (ih.executeAll ss).mono fun _ => List.mem_append_right _
        | returned v => exact .pure _

/-- **Of the scopes that are there, a run adds names to the current one only, and only what is
declared in it.** -/
theorem adding : ∀ n, Adding n
  | 0 => adding_zero
  | n + 1 => adding_succ (adding n)

end Exec

/-! ### Scopes without names

A `for` loop with an increment runs its body and the increment in one block.  The
increment must not see what the body declares, and it cannot: the body declares nothing
in the scope of the block, which therefore has no names, so that a look-up goes past it.
-/

/-- The inner scope has no names of its own and, once it is there, lies right inside the outer
one. -/
structure Store.Bare (s : Store) (inner outer : ScopeId) : Prop where
  /-- Nothing is bound in it, at this moment. -/
  unbound : ∀ name, ¬ s.Binds inner name
  /-- Once it is there it lies right inside the outer scope, where a look-up goes on at once. -/
  chain : inner < s.size → s.chain inner = inner :: s.chain outer

/-- What is looked up from a scope without names is looked up from the one around it. -/
theorem Store.Bare.resolve?_eq {s : Store} {inner outer : ScopeId} (h : s.Bare inner outer)
    (hinner : inner < s.size) (name : String) : s.resolve? inner name = s.resolve? outer name := by
  have hfree := Bool.eq_false_iff.mpr (h.unbound name)
  rw [resolve?, h.chain hinner, List.find?_cons, hfree]
  rfl

namespace Machine

variable {m m' : Machine} {inner outer : ScopeId} {ss : List Stmt}

/-- A scope that is there stays without names as long as none are added. -/
theorem AddsOnly.bare (h : m.AddsOnly [] m') (hadvances : m.Advances m')
    (hinner : inner < m.store.size) (houter : outer < m.store.size)
    (hbare : m.store.Bare inner outer) : m'.store.Bare inner outer where
  unbound name hbound := by
    rcases h.binds inner hinner name hbound with hbefore | ⟨-, hmem⟩
    · exact hbare.unbound name hbefore
    · exact absurd hmem List.not_mem_nil
  chain _ := by
    rw [hadvances.chain inner hinner, hadvances.chain outer houter, hbare.chain hinner]

/-- A scope without names had none before. -/
theorem Lasts.bare (h : m.Lasts m') (hadvances : m.Advances m') (houter : outer < m.store.size)
    (hbare : m'.store.Bare inner outer) : m.store.Bare inner outer where
  unbound name hbound := hbare.unbound name (h.bound inner name hbound)
  chain hinner := by
    rw [← hadvances.chain inner hinner, ← hadvances.chain outer houter]
    exact hbare.chain (Nat.lt_of_lt_of_le hinner hadvances.size)

/-- The scope of a block in which nothing is declared is without names when the block ends. -/
theorem bare_block (hscope : m.scope < m.store.size) (hss : ss.flatMap Stmt.declares = [])
    (n : Nat) :
    (Exec.left (Exec.execute n (.block ss) m)).store.Bare m.store.size m.scope := by
  have hnone : ∀ name, ¬ m.store.Binds m.store.size name := by
    intro name hbound
    rw [Store.Binds, Store.bindings_eq_nil (Nat.le_refl _)] at hbound
    exact absurd hbound Bool.false_ne_true
  cases n with
  | zero => exact ⟨hnone, fun hlt => absurd hlt (Nat.lt_irrefl _)⟩
  | succ n =>
      let entered := m.enter m.scope []
      have hadds := (Exec.adding n).executeAll ss entered
      rw [hss] at hadds
      have hadvances := (Exec.executeAll_comesBack entered n ss).advances
      have hlt : m.store.size < entered.store.size := by
        rw [size_enter]
        exact Nat.lt_succ_self _
      have hlast : (Exec.left (Exec.executeAll n ss entered)).store.Bare m.store.size m.scope := by
        refine hadds.bare hadvances hlt (Nat.lt_trans hscope hlt) ⟨fun name hbound => ?_, fun _ => ?_⟩
        · rw [Store.Binds, bindings_enter, if_pos rfl] at hbound
          exact absurd hbound Bool.false_ne_true
        · rw [chain_enter, if_pos rfl, chain_enter, if_neg (Nat.ne_of_lt hscope)]
      show (Exec.left (Exec.within m.scope [] (Exec.executeAll n ss) m)).store.Bare _ _
      rw [Exec.within_apply]
      cases hresult : Exec.executeAll n ss entered <;> rw [hresult] at hlast <;> exact hlast

end Machine

/-! ### Rounds of a loop

The rounds of a loop are told by what they are run from, a machine and the fuel that is
left.  A round starts where the one before it ended, in the scope of the loop.  So where
the body is a block, each round makes a scope of its own, directly inside that of the
loop.
-/

/-- Run on the first machine with so much fuel, the loop comes to a round whose body runs on the
second machine, with the fuel that is left. -/
inductive Round (condition : Expr) (body : Stmt) : Nat → Machine → Nat → Machine → Prop where
  | now {n : Nat} {m m₁ : Machine} {c : Value} (hcondition : Exec.evaluate n condition m = .ok c m₁)
      (hc : c.truthy = true) : Round condition body (n + 1) m n m₁
  | later {n k : Nat} {m m₁ m₂ m₃ : Machine} {c : Value}
      (hcondition : Exec.evaluate n condition m = .ok c m₁) (hc : c.truthy = true)
      (hbody : Exec.execute n body m₁ = .ok .normal m₂) (h : Round condition body n m₂ k m₃) :
      Round condition body (n + 1) m k m₃

namespace Exec

variable {n : Nat} {m m₁ m₂ : Machine} {c v : Value} {condition : Expr} {body : Stmt}

/-- After a condition that holds comes the body. -/
theorem execute_loop_of_truthy (hcondition : evaluate n condition m = .ok c m₁)
    (hc : c.truthy = true) :
    execute (n + 1) (.loop condition body) m = match execute n body m₁ with
      | .ok .normal m₂ => execute n (.loop condition body) m₂
      | .ok (.returned v) m₂ => .ok (.returned v) m₂
      | .error stop m₂ => .error stop m₂ := by
  rw [execute, bind_of_ok hcondition, if_pos hc]
  cases hbody : execute n body m₁ with
  | error stop m₂ => rw [bind_of_error hbody]
  | ok flow m₂ =>
      rw [bind_of_ok hbody]
      cases flow <;> rfl

end Exec

/-- A later machine at which the scope is the current one again is one come back to. -/
theorem Machine.ComesBack.trans {m m₁ m₂ : Machine} (h : m.ComesBack m₁) (h' : m₁.ComesBack m₂) :
    m.ComesBack m₂ :=
  ⟨h'.scope.trans h.scope, h.advances.trans h'.advances⟩

namespace Exec

variable {n : Nat} {m m₁ : Machine} {v : Value} {flow : Flow} {e : Expr} {s : Stmt}
  {ss : List Stmt}

private theorem comesBack_of_evaluate (h : evaluate n e m = .ok v m₁) : m.ComesBack m₁ := by
  have hcomes := evaluate_comesBack m n e
  rwa [h] at hcomes

theorem comesBack_of_execute (h : execute n s m = .ok flow m₁) : m.ComesBack m₁ := by
  have hcomes := execute_comesBack m n s
  rwa [h] at hcomes

/-- A block that is gone through has made a scope. -/
theorem size_lt_of_block (h : execute n (.block ss) m = .ok flow m₁) :
    m.store.size < m₁.store.size := by
  cases n with
  | zero => cases h
  | succ n =>
      have hinner := (executeAll_comesBack (m.enter m.scope []) n ss).advances.size
      rw [Machine.size_enter] at hinner
      have hwithin : within m.scope [] (executeAll n ss) m = .ok flow m₁ := h
      rw [within_apply] at hwithin
      cases hresult : executeAll n ss (m.enter m.scope []) with
      | error stop m₂ =>
          rw [hresult] at hwithin
          cases hwithin
      | ok flow' m₂ =>
          rw [hresult] at hwithin hinner
          cases hwithin
          exact hinner

end Exec

namespace Round

variable {condition : Expr} {body : Stmt} {n k : Nat} {m m₁ : Machine}

/-- Every round begins in the scope of the loop. -/
theorem comesBack (h : Round condition body n m k m₁) : m.ComesBack m₁ := by
  induction h with
  | now hcondition hc => exact Exec.comesBack_of_evaluate hcondition
  | later hcondition hc hbody _ ih =>
      have hfirst := Exec.comesBack_of_evaluate hcondition
      exact hfirst.trans ((Exec.comesBack_of_execute hbody).trans ih)

/-- The scope of each round is without names when the loop ends, if nothing is declared in it. -/
theorem bare {ss : List Stmt} (hss : ss.flatMap Stmt.declares = [])
    (h : Round condition (.block ss) n m k m₁) (hscope : m.scope < m.store.size) :
    (Exec.left (Exec.execute n (.loop condition (.block ss)) m)).store.Bare
      m₁.store.size m.scope := by
  generalize hbody : Stmt.block ss = body at h
  induction h with
  | @now n m m₁ c hcondition hc =>
      subst hbody
      rw [Exec.execute_loop_of_truthy hcondition hc]
      have hcomes := Exec.comesBack_of_evaluate hcondition
      have hlater : m₁.scope < m₁.store.size := by
        rw [hcomes.scope]
        exact Nat.lt_of_lt_of_le hscope hcomes.advances.size
      have hbare := Machine.bare_block hlater hss n
      rw [hcomes.scope] at hbare hlater
      cases hresult : Exec.execute n (.block ss) m₁ with
      | error stop m₂ =>
          rw [hresult] at hbare
          exact hbare
      | ok flow m₂ =>
          rw [hresult] at hbare
          cases flow with
          | returned v => exact hbare
          | normal =>
              -- What is left of the loop adds nothing to the scope of this round.
              have hadds := (Exec.adding n).execute (.loop condition (.block ss)) m₂
              have hmore := (Exec.execute_comesBack m₂ n (.loop condition (.block ss))).advances
              have hmade := Exec.size_lt_of_block hresult
              exact hadds.bare hmore hmade (Nat.lt_trans hlater hmade) hbare
  | @later n k m m₁ m₂ m₃ c hcondition hc hblock _ ih =>
      subst hbody
      have hcomes := (Exec.comesBack_of_evaluate hcondition).trans
        (Exec.comesBack_of_execute hblock)
      rw [Exec.execute_loop_of_truthy hcondition hc, hblock, ← hcomes.scope]
      apply ih
      rw [hcomes.scope]
      exact Nat.lt_of_lt_of_le hscope hcomes.advances.size

end Round

/-! ### All moments of a loop

That a scope has no names when the loop ends says something of every earlier moment too,
since no move takes a name away.  And as long as the scope has not been made it has no
names either.
-/

namespace Moment

variable {a b : Moment} {moments : List Moment}

private theorem Move.advances (h : a.Move b) : a.machine.Advances b.machine := by
  have hchange := h.change
  generalize b.machine = m, b.made = made at hchange ⊢
  cases hchange with
  | stay | tick | resume | make => exact .of_same rfl rfl
  | print => exact .print _ _
  | write => exact .write _ _ _ _
  | enter => exact .enter _ _ _

/-- What every move does to the machine has been done, at every moment, since the first. -/
theorem Path.since {R : Machine → Machine → Prop} (hrefl : ∀ m, R m m)
    (htrans : ∀ {m₁ m₂ m₃ : Machine}, R m₁ m₂ → R m₂ m₃ → R m₁ m₃)
    (hstep : ∀ {a b : Moment}, a.Move b → R a.machine b.machine) (h : Path a moments b) :
    ∀ c ∈ moments, R a.machine c.machine :=
  h.invariant (fun hmove hc => htrans hc (hstep hmove)) (hrefl a.machine)

/-- And is done, from every moment on, until the last. -/
theorem Path.until {R : Machine → Machine → Prop} (hrefl : ∀ m, R m m)
    (htrans : ∀ {m₁ m₂ m₃ : Machine}, R m₁ m₂ → R m₂ m₃ → R m₁ m₃)
    (hstep : ∀ {a b : Moment}, a.Move b → R a.machine b.machine) (h : Path a moments b) :
    R a.machine b.machine ∧ ∀ c ∈ moments, R c.machine b.machine := by
  induction h with
  | single a => exact ⟨hrefl a.machine, List.forall_mem_singleton.mpr (hrefl a.machine)⟩
  | cons hmove _ ih =>
      have hwhole := htrans (hstep hmove) ih.1
      exact ⟨hwhole, List.forall_mem_cons.mpr ⟨hwhole, ih.2⟩⟩

end Moment

namespace Round

variable {condition : Expr} {n k : Nat} {m m₁ : Machine}

/-- The scope of a round is without names at every moment of the loop. -/
theorem bare_throughout {ss : List Stmt} (hss : ss.flatMap Stmt.declares = [])
    (h : Round condition (.block ss) n m k m₁) (hscope : m.scope < m.store.size) :
    ∀ moment ∈ (Job.execute (.loop condition (.block ss))).trace n m,
      moment.machine.store.Bare m₁.store.size m.scope := by
  intro moment hmem
  have hpath := (Job.execute (.loop condition (.block ss))).path n m
  have hlast : ((Job.execute (.loop condition (.block ss))).finish n m).machine.store.Bare
      m₁.store.size m.scope := by
    rw [Job.finish, Moment.machine_ofResult]
    exact h.bare hss hscope
  have hrefl : ∀ m : Machine, m.Advances m := fun _ => .of_same rfl rfl
  have hbefore := hpath.since hrefl .trans (fun hmove => hmove.advances) moment hmem
  have hafter := (hpath.until hrefl .trans fun hmove => hmove.advances).2 moment hmem
  have hlasts := (hpath.until (fun _ => Machine.Lasts.of_same rfl) .trans
    fun hmove => hmove.lasts).2 moment hmem
  exact hlasts.bare hafter (Nat.lt_of_lt_of_le hscope hbefore.size) hlast

/-- What the scope is like in which the body and the increment of a loop run in a round. -/
structure SeesThrough (condition : Expr) (body : Stmt) (increment : Expr) (n : Nat)
    (m m₁ : Machine) : Prop where
  /-- The round begins in the scope in which the condition is evaluated. -/
  scope : m₁.scope = m.scope
  /-- The scope that is made next is the one that the body leaves to the increment. -/
  shared : ∀ j m₂, Exec.execute j body (m₁.enter m₁.scope []) = .ok .normal m₂ →
    m₂.scope = m₁.store.size
  /-- At no moment of the loop does it have a name. -/
  unbound : ∀ moment ∈ (Job.execute (.loop condition (.block [body, .expression increment]))).trace
    n m, ∀ name, ¬ moment.machine.store.Binds m₁.store.size name
  /-- And what is looked up from it is found where it is found from the condition's scope. -/
  resolves : ∀ moment ∈
    (Job.execute (.loop condition (.block [body, .expression increment]))).trace n m,
    m₁.store.size < moment.machine.store.size → ∀ name,
      moment.machine.store.resolve? m₁.store.size name = moment.machine.store.resolve? m.scope name

theorem seesThrough {body : Stmt} {increment : Expr} (hbody : body.declares = [])
    (h : Round condition (.block [body, .expression increment]) n m k m₁)
    (hscope : m.scope < m.store.size) : SeesThrough condition body increment n m m₁ := by
  have hnone : [body, .expression increment].flatMap Stmt.declares = [] := by
    rw [List.flatMap_cons, hbody]
    rfl
  have hbare := h.bare_throughout hnone hscope
  constructor
  · exact h.comesBack.scope
  · intro j m₂ hrun
    exact (Exec.comesBack_of_execute hrun).scope
  · intro moment hmem
    exact (hbare moment hmem).unbound
  · intro moment hmem
    exact (hbare moment hmem).resolve?_eq

end Round

/-- The body of a `for` loop that is read declares nothing. -/
theorem ForTokens.Read.declares_eq_nil {c : ForTokens} {f : Bool} {rest : List Token}
    {initializer : Option Stmt} {condition increment : Option Expr} {body : Stmt}
    (h : c.Read f rest initializer condition increment body) : body.declares = [] := by
  obtain ⟨_, hbody, -⟩ := h.written_body
  obtain ⟨hshaped, hkind, -⟩ := hbody.isTree
  exact body.declares_eq_nil hshaped hkind

/-- **Declarations never leak.**  On every machine and however the run ends, expressions, calls and
blocks add no name to any scope that was there, and a statement adds to the current one what it
declares.  Every `for` loop that is read has clauses and a body that are, and then its increment
sees through the scope that it shares with the body, wherever the loop is run. -/
theorem declarations_never_leak :
    (∀ (m : Machine) (n : Nat),
      (∀ e, m.AddsOnly [] (Exec.left (Exec.evaluate n e m))) ∧
      (∀ f values, m.AddsOnly [] (Exec.left (Exec.call n f values m))) ∧
      (∀ body, m.AddsOnly [] (Exec.left (Exec.execute n (.block body) m))) ∧
      ∀ s, m.AddsOnly s.declares (Exec.left (Exec.execute n s m))) ∧
    (∀ (f : Bool) (keyword : Token) (tokens rest : List Token) (s : Stmt),
      keyword.kind = .keyword .for_ → (Parser.statement f).Reads (keyword :: tokens) s rest →
      ∃ (c : ForTokens) (ts : List Token) (initializer : Option Stmt)
        (condition increment : Option Expr) (body : Stmt), keyword :: tokens = ts ++ rest ∧
        Unparses c.asFor ts ∧ c.Read f rest initializer condition increment body ∧
        s = .forLoop initializer condition increment body) ∧
    ∀ (c : ForTokens) (f : Bool) (ts rest : List Token) (initializer : Option Stmt)
      (condition increment : Option Expr) (body : Stmt), Unparses c.asFor ts →
      c.Read f rest initializer condition increment body →
      (Parser.statement f).Reads (ts ++ rest) (.forLoop initializer condition increment body) rest ∧
      ∀ e, increment = some e → ∀ n m k m₁, m.scope < m.store.size →
        Round (condition.getD (.literal (.bool true))) (.block [body, .expression e]) n m k m₁ →
        Round.SeesThrough (condition.getD (.literal (.bool true))) body e n m m₁ := by
  refine ⟨fun m n => ?_, fun _ _ _ _ _ => ForTokens.exists_read, ?_⟩
  · have hadding := Exec.adding n
    exact ⟨fun e => hadding.evaluate e m, fun f values => hadding.call f values m,
      fun body => hadding.execute (.block body) m, fun s => hadding.execute s m⟩
  · intro c f ts rest initializer condition increment body hts hread
    refine ⟨hread.reads_for hts, fun e _ n m k m₁ hscope hround => ?_⟩
    exact hround.seesThrough hread.declares_eq_nil hscope

/-- The increment of `for (; a; a) { var b; }` sees through the scope that it shares with the
block, in the first round. -/
theorem declarations_never_leak_for :
    let a : Token := ⟨.identifier, "a", 1⟩
    let b : Token := ⟨.identifier, "b", 1⟩
    let symbol (s : Symbol) : Token := ⟨.symbol s, s.text, 1⟩
    let keyword (k : Keyword) : Token := ⟨.keyword k, k.text, 1⟩
    let ts := [keyword .for_, symbol .leftParen, symbol .semicolon, a, symbol .semicolon, a,
      symbol .rightParen, symbol .leftBrace, keyword .var_, b, symbol .semicolon,
      symbol .rightBrace]
    let body : Stmt := .block [.var b none]
    let m := (Machine.start (fun _ => default) none).write globalScope "a" (.bool true)
    (Parser.statement false).Reads ts (.forLoop none (some (.var a)) (some (.var a)) body) [] ∧
      Round (.var a) (.block [body, .expression (.var a)]) 2 m 1 m ∧
      Round.SeesThrough (.var a) body (.var a) 2 m m := by
  intro a b symbol keyword ts body m
  let c : ForTokens := ⟨none, some [a], some [a],
    [symbol .leftBrace, keyword .var_, b, symbol .semicolon, symbol .rightBrace]⟩
  have hend : Parser.nextKind? [] ≠ some (.keyword .else_) := by simp
  have ha : (Phrase.expression (.var a)).Written [a] :=
    written_expression_iff.mpr ⟨rfl, .single rfl⟩
  have hbody : (Clause.statement false false body).Written c.body :=
    .block rfl (.cons (.var rfl (.bare rfl rfl)) .nil) rfl
  have hread : c.Read false [] none (some (.var a)) (some (.var a)) body :=
    ⟨.none, .some (ForTokens.readsBefore_of_written rfl ha),
      .some (ForTokens.readsBefore_of_written rfl ha),
      Parser.reads_statement_iff.mpr ⟨c.body, false, rfl, hbody, fun _ => hend⟩⟩
  have hts : Unparses c.asFor ts := by
    repeat' first | exact .nil | refine .cons rfl ?_
  have hround : Round (.var a) (.block [body, .expression (.var a)]) 2 m 1 m := .now rfl rfl
  obtain ⟨hreads, hsees⟩ := declarations_never_leak.2.2 c false ts [] none (some (.var a))
    (some (.var a)) body hts hread
  exact ⟨hreads, hround, hsees (.var a) rfl 2 m 1 m (by decide) hround⟩

end Lox
