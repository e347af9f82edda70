/-
Evaluation does not look at lines.

A program whose lines are renamed, on a machine whose lines are renamed, does what
it did before, and the outcome is the outcome of before with its lines renamed.  It
is enough that every elementary step keeps to that and that sequencing does: the
rest is an induction on fuel along the cases of the evaluator, all its functions at
once.
-/
import Lox.Proofs.Lines.Relabel

namespace Lox

variable {ρ : Nat → Nat}

/-! ### Values -/

@[simp] theorem Value.relabel_text (v : Value) : (v.relabel ρ).text = v.text := by
  cases v with
  | bool b => cases b <;> rfl
  | _ => rfl

@[simp] theorem Value.relabel_truthy (v : Value) : (v.relabel ρ).truthy = v.truthy := by
  cases v <;> rfl

@[simp] theorem Value.relabel_equals (v w : Value) :
    (v.relabel ρ).equals (w.relabel ρ) = v.equals w := by
  cases v <;> cases w <;> rfl

private theorem Value.relabel_ofLiteral (l : Literal) : (ofLiteral l).relabel ρ = ofLiteral l := by
  cases l <;> rfl

private theorem Value.relabel_callee? (v : Value) :
    (v.relabel ρ).callee? = v.callee?.map (Callee.relabel ρ) := by
  cases v <;> rfl

@[simp] theorem Callee.relabel_arity (f : Callee) : (f.relabel ρ).arity = f.arity := by
  cases f with
  | function f => simp [relabel, arity, Closure.relabel]
  | native f => rfl

private theorem Flow.relabel_result (flow : Flow) :
    (flow.relabel ρ).result = flow.result.relabel ρ := by
  cases flow <;> rfl

/-! ### Operators -/

private theorem onNumbers_relabel (operation : Number → Number → Value)
    (h : ∀ a b, (operation a b).relabel ρ = operation a b) (l r : Value) :
    onNumbers operation (l.relabel ρ) (r.relabel ρ) =
      (onNumbers operation l r).map (Value.relabel ρ) := by
  cases l with
  | number a =>
      cases r with
      | number b => exact congrArg Except.ok (h a b).symm
      | _ => rfl
  | _ => rfl

private theorem sum_relabel (l r : Value) :
    sum (l.relabel ρ) (r.relabel ρ) = (sum l r).map (Value.relabel ρ) := by
  cases l <;> cases r <;> rfl

private theorem binaryOutcome_relabel (op : Token.Kind) (l r : Value) :
    binaryOutcome op (l.relabel ρ) (r.relabel ρ) =
      (binaryOutcome op l r).map (Value.relabel ρ) := by
  unfold binaryOutcome
  split
  · exact sum_relabel l r
  iterate 7 exact onNumbers_relabel _ (fun _ _ => rfl) l r
  · rw [Value.relabel_equals]; rfl
  · rw [Value.relabel_equals]; rfl
  · rfl

private theorem unaryOutcome_relabel (op : Token.Kind) (r : Value) :
    unaryOutcome op (r.relabel ρ) = (unaryOutcome op r).map (Value.relabel ρ) := by
  cases op with
  | symbol s => cases s <;> cases r <;> rfl
  | _ => rfl

private theorem decidedByLeft_relabel (op : Token.Kind) (l : Value) :
    decidedByLeft op (l.relabel ρ) = decidedByLeft op l := by
  simp only [decidedByLeft, Value.relabel_truthy]

/-! ### Bindings and the store -/

private theorem Bindings.get?_relabel (bindings : Bindings) (name : String) :
    (bindings.relabel ρ).get? name = (bindings.get? name).map (Value.relabel ρ) := by
  induction bindings with
  | nil => rfl
  | cons entry rest ih =>
      obtain ⟨n, v⟩ := entry
      rw [relabel, List.map_cons, get?, get?]
      split
      · rfl
      · exact ih

private theorem Bindings.set_relabel (bindings : Bindings) (name : String) (value : Value) :
    (bindings.set name value).relabel ρ = (bindings.relabel ρ).set name (value.relabel ρ) := by
  induction bindings with
  | nil => rfl
  | cons entry rest ih =>
      obtain ⟨n, v⟩ := entry
      rw [set, relabel, relabel, List.map_cons, set]
      split
      · rfl
      · exact congrArg _ ih

private theorem Bindings.ofPairs_relabel (pairs : List (String × Value)) :
    (ofPairs pairs).relabel ρ =
      ofPairs (pairs.map fun (name, value) => (name, value.relabel ρ)) := by
  suffices h : ∀ bindings : Bindings,
      (pairs.foldl (fun bindings (name, value) => bindings.set name value) bindings).relabel ρ =
        (pairs.map fun (name, value) => (name, value.relabel ρ)).foldl
          (fun bindings (name, value) => bindings.set name value) (bindings.relabel ρ) from h []
  induction pairs with
  | nil => exact fun _ => rfl
  | cons pair pairs ih =>
      intro bindings
      rw [List.foldl_cons, List.map_cons, List.foldl_cons, ih, set_relabel]

private theorem Closure.arguments_relabel (f : Closure) (values : List Value) :
    (f.relabel ρ).arguments (values.map (Value.relabel ρ)) = (f.arguments values).relabel ρ := by
  rw [arguments, arguments, Bindings.ofPairs_relabel]
  congr 1
  simp only [relabel, List.map_map]
  rw [show Token.lexeme ∘ Token.relabel ρ = Token.lexeme from rfl, List.zip_map_right]
  rfl

namespace Store

private theorem relabel_bindings (s : Store) (id : ScopeId) :
    (s.relabel ρ).bindings id = (s.bindings id).relabel ρ := by
  simp only [bindings, relabel, Array.getElem?_map]
  cases s.scopes[id]? <;> rfl

private theorem relabel_chain (s : Store) (id : ScopeId) : (s.relabel ρ).chain id = s.chain id := by
  simp only [chain, relabel, Array.getElem?_map]
  cases s.scopes[id]? <;> rfl

@[simp] theorem relabel_size (s : Store) : (s.relabel ρ).size = s.size := Array.size_map

private theorem relabel_resolve? (s : Store) (id : ScopeId) (name : String) :
    (s.relabel ρ).resolve? id name = s.resolve? id name := by
  simp only [resolve?, relabel_chain, relabel_bindings, Bindings.get?_relabel, Option.isSome_map]

private theorem relabel_get? (s : Store) (id : ScopeId) (name : String) :
    (s.relabel ρ).get? id name = (s.get? id name).map (Value.relabel ρ) := by
  rw [get?, get?, relabel_resolve?]
  cases s.resolve? id name with
  | none => rfl
  | some j => simp only [Option.bind_some, relabel_bindings, Bindings.get?_relabel]

private theorem relabel_define (s : Store) (id : ScopeId) (name : String) (value : Value) :
    (s.define id name value).relabel ρ = (s.relabel ρ).define id name (value.relabel ρ) := by
  simp only [define, relabel, mk.injEq]
  apply Array.ext_getElem?
  intro i
  simp only [Array.getElem?_map, Array.getElem?_modify]
  split
  · cases s.scopes[i]? with
    | none => rfl
    | some scope => simp [Scope.relabel, Bindings.set_relabel]
  · rfl

private theorem relabel_pushChild (s : Store) (parent : ScopeId) (bindings : Bindings) :
    (s.pushChild parent bindings).relabel ρ =
      (s.relabel ρ).pushChild parent (bindings.relabel ρ) := by
  rw [pushChild, pushChild, relabel_chain]
  simp [push, relabel, Scope.relabel]

end Store

namespace Exec

variable {α β γ δ : Type}

/-! ### Steps

Renaming is a function, so what a step does with other lines is an equation and not a
relation: the outcome is the one it had, renamed.  Sequences of steps follow one another
because their parts do.
-/

/-- The outcome of a step with its lines renamed. -/
def relabelResult (ρ : Nat → Nat) (f : α → β) :
    EStateM.Result Stop Machine α → EStateM.Result Stop Machine β
  | .ok a m => .ok (f a) (m.relabel ρ)
  | .error stop m => .error (stop.relabel ρ) (m.relabel ρ)

/-- On a machine with its lines renamed the second step does what the first does without. -/
def Follows (ρ : Nat → Nat) (f : α → β) (p : Exec α) (q : Exec β) : Prop :=
  ∀ m, q (m.relabel ρ) = relabelResult ρ f (p m)

namespace Follows

theorem pure {f : α → β} {a : α} {b : β} (h : b = f a) :
    Follows ρ f (Pure.pure a) (Pure.pure b) := by
  subst h
  exact fun m => rfl

theorem bind {f : α → β} {g : γ → δ} {p : Exec α} {q : Exec β} {k : α → Exec γ} {l : β → Exec δ}
    (h : Follows ρ f p q) (hk : ∀ a, Follows ρ g (k a) (l (f a))) :
    Follows ρ g (p >>= k) (q >>= l) := by
  intro m
  simp only [Bind.bind, EStateM.bind]
  rw [h m]
  cases p m with
  | ok a m' => exact hk a m'
  | error stop m' => rfl

private theorem outOfFuel {f : α → β} :
    Follows ρ f (throw .outOfFuel) (throw .outOfFuel) := fun _ => rfl

theorem raise {f : α → β} (token : Token) (cause : RuntimeCause) :
    Follows ρ f (Exec.raise token cause) (Exec.raise (token.relabel ρ) cause) := fun _ => rfl

private theorem ofOutcome (op : Token) (outcome : Outcome) :
    Follows ρ (Value.relabel ρ) (Exec.ofOutcome op outcome)
      (Exec.ofOutcome (op.relabel ρ) (outcome.map (Value.relabel ρ))) := by
  cases outcome with
  | ok v => exact .pure rfl
  | error cause => exact .raise op cause

private theorem emit (text : String) : Follows ρ id (Exec.emit text) (Exec.emit text) := by
  intro ⟨store, scope, functions, output, clock, readings⟩
  simp only [Exec.emit, Machine.relabel]
  rcases output.write text with ⟨output, fits⟩
  cases fits <;> rfl

private theorem readClock : Follows ρ id Exec.readClock Exec.readClock := fun _ => rfl

private theorem fetch (name : Token) :
    Follows ρ (Value.relabel ρ) (Exec.fetch name) (Exec.fetch (name.relabel ρ)) := by
  intro m
  have hget : (m.relabel ρ).store.get? (m.relabel ρ).scope (name.relabel ρ).lexeme =
      (m.store.get? m.scope name.lexeme).map (Value.relabel ρ) := m.store.relabel_get? _ _
  simp only [Exec.fetch, hget]
  cases m.store.get? m.scope name.lexeme <;> rfl

private theorem assign (name : Token) (value : Value) :
    Follows ρ id (Exec.assign name value) (Exec.assign (name.relabel ρ) (value.relabel ρ)) := by
  intro m
  simp only [Exec.assign, Machine.relabel, Store.relabel_resolve?, Token.relabel_lexeme]
  split
  · rw [← Store.relabel_define]; rfl
  · rfl

private theorem define (name : Token) (value : Value) :
    Follows ρ id (Exec.define name value) (Exec.define (name.relabel ρ) (value.relabel ρ)) := by
  intro m
  simp only [Exec.define, Machine.relabel, Token.relabel_lexeme, ← Store.relabel_define]
  rfl

private theorem makeFunction (name : Token) (params : List Token) (body : List Stmt) :
    Follows ρ (Value.relabel ρ) (Exec.makeFunction name params body)
      (Exec.makeFunction (name.relabel ρ) (params.map (Token.relabel ρ))
        (Stmt.relabelList ρ body)) := fun _ => rfl

theorem within {f : α → β} {p : Exec α} {q : Exec β} (h : Follows ρ f p q) (parent : ScopeId)
    (bindings : Bindings) :
    Follows ρ f (Exec.within parent bindings p)
      (Exec.within parent (bindings.relabel ρ) q) := by
  intro ⟨store, scope, functions, output, clock, readings⟩
  have hinner := h ⟨store.pushChild parent bindings, store.size, functions, output, clock, readings⟩
  simp only [Exec.within, Machine.relabel, Store.relabel_pushChild, Store.relabel_size] at hinner ⊢
  rw [hinner]
  cases p ⟨store.pushChild parent bindings, store.size, functions, output, clock, readings⟩ <;> rfl

private theorem nested {f : α → β} {p : Exec α} {q : Exec β} (h : Follows ρ f p q) :
    Follows ρ f (Exec.nested p) (Exec.nested q) :=
  fun m => h.within m.scope [] m

end Follows

/-! ### The evaluator

The trees that run differ in their lines, so this is no `Comparison`, which runs one
tree twice, and the cases are gone through again.  The induction is on fuel as it is
there.
-/

/-- With this much fuel, every function of the evaluator keeps to renamed lines. -/
structure KeepsLines (ρ : Nat → Nat) (n : Nat) : Prop where
  evaluate : ∀ e, Follows ρ (Value.relabel ρ) (evaluate n e) (evaluate n (e.relabel ρ))
  evaluateAll : ∀ es, Follows ρ (List.map (Value.relabel ρ)) (evaluateAll n es)
    (evaluateAll n (Expr.relabelList ρ es))
  call : ∀ f values, Follows ρ (Value.relabel ρ) (call n f values)
    (call n (f.relabel ρ) (values.map (Value.relabel ρ)))
  execute : ∀ s, Follows ρ (Flow.relabel ρ) (execute n s) (execute n (s.relabel ρ))
  executeAll : ∀ ss, Follows ρ (Flow.relabel ρ) (executeAll n ss)
    (executeAll n (Stmt.relabelList ρ ss))

private theorem keepsLines_zero : KeepsLines ρ 0 where
  evaluate _ := .outOfFuel
  evaluateAll _ := .outOfFuel
  call _ _ := .outOfFuel
  execute _ := .outOfFuel
  executeAll _ := .outOfFuel

private theorem keepsLines_succ {n : Nat} (ih : KeepsLines ρ n) : KeepsLines ρ (n + 1) where
  evaluate e := by
    cases e with
    | assign name value =>
        exact (ih.evaluate value).bind fun v => (Follows.assign name v).bind fun _ => .pure rfl
    | binary left op right =>
        refine (ih.evaluate left).bind fun l => (ih.evaluate right).bind fun r => ?_
        rw [Token.relabel_kind, binaryOutcome_relabel]
        exact .ofOutcome op _
    | call callee paren arguments =>
        refine (ih.evaluate callee).bind fun f => (ih.evaluateAll arguments).bind fun values => ?_
        rw [Value.relabel_callee?]
        cases f.callee? with
        | none => exact .raise paren _
        | some f =>
            simp only [Option.map_some, List.length_map, Callee.relabel_arity]
            split
            · exact ih.call f values
            · exact .raise paren _
    | grouping inner => exact ih.evaluate inner
    | literal value => exact .pure (Value.relabel_ofLiteral value).symm
    | logical left op right =>
        refine (ih.evaluate left).bind fun l => ?_
        rw [Token.relabel_kind, decidedByLeft_relabel]
        cases decidedByLeft op.kind l with
        | none => exact .raise op _
        | some decided =>
            cases decided with
            | true => exact .pure rfl
            | false => exact ih.evaluate right
    | unary op right =>
        refine (ih.evaluate right).bind fun r => ?_
        rw [Token.relabel_kind, unaryOutcome_relabel]
        exact .ofOutcome op _
    | var name => exact .fetch name
    | get object name | set object name => exact .raise name _
    | super keyword | this keyword => exact .raise keyword _
  evaluateAll es := by
    cases es with
    | nil => exact .pure rfl
    | cons e es =>
        exact (ih.evaluate e).bind fun v => (ih.evaluateAll es).bind fun vs => .pure rfl
  call f values := by
    cases f with
    | function f =>
        have hbody := (ih.executeAll f.body).within f.scope (f.arguments values)
        rw [← Closure.arguments_relabel] at hbody
        exact hbody.bind fun flow => .pure flow.relabel_result
    | native f =>
        cases f
        exact Follows.readClock.bind fun _ => .pure rfl
  execute s := by
    cases s with
    | block body => exact (ih.executeAll body).nested
    | expression value => exact (ih.evaluate value).bind fun _ => .pure rfl
    | function name params body =>
        exact (Follows.makeFunction name params body).bind fun f =>
          (Follows.define name f).bind fun _ => .pure rfl
    | conditional condition thenBranch elseBranch =>
        refine (ih.evaluate condition).bind fun c => ?_
        rw [Value.relabel_truthy]
        split
        · exact ih.execute thenBranch
        · cases elseBranch with
          | none => exact .pure rfl
          | some s => exact ih.execute s
    | print value =>
        refine (ih.evaluate value).bind fun v => ?_
        rw [Value.relabel_text]
        exact (Follows.emit _).bind fun _ => .pure rfl
    | return_ keyword value =>
        cases value with
        | none => exact .pure rfl
        | some value => exact (ih.evaluate value).bind fun _ => .pure rfl
    | var name initializer =>
        cases initializer with
        | none => exact (Follows.define name .nil).bind fun _ => .pure rfl
        | some value =>
            exact (ih.evaluate value).bind fun v => (Follows.define name v).bind fun _ => .pure rfl
    | loop condition body =>
        refine (ih.evaluate condition).bind fun c => ?_
        rw [Value.relabel_truthy]
        split
        · refine (ih.execute body).bind fun flow => ?_
          cases flow with
          | normal => exact ih.execute (.loop condition body)
          | returned v => exact .pure rfl
        · exact .pure rfl
  executeAll ss := by
    cases ss with
    | nil => exact .pure rfl
    | cons s ss =>
        refine (ih.execute s).bind fun flow => ?_
        cases flow with
        | normal => exact ih.executeAll ss
        | returned v => exact .pure rfl

/-- **Evaluation keeps to renamed lines, with any fuel.** -/
theorem keepsLines : ∀ n, KeepsLines ρ n
  | 0 => keepsLines_zero
  | n + 1 => keepsLines_succ (keepsLines n)

theorem interpret_follows (fuel : Nat) (program : List Stmt) :
    Follows ρ id (interpret fuel program) (interpret fuel (Stmt.relabelList ρ program)) :=
  ((keepsLines fuel).executeAll program).bind fun _ => .pure rfl

end Exec

end Lox
