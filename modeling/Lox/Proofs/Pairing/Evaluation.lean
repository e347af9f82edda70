/-
Running counterparts.

Programs that match, on machines that match, end alike: with machines that match
again, and with results that match or at faults at counterparts.  The evaluator looks
at the kind and the lexeme of a token and never at its line, so this is one lemma for
each elementary step and then the induction on fuel along the cases of the evaluator.

The machines hold the same scopes with the same names bound, and the values differ at
most in the declarations of their functions, which match.  As a matching tree has no
case for what is never parsed, neither have the faults: what a parsed program can do
wrong is `RuntimeCause.Ordinary`.
-/
import Mathlib.Data.List.Find
import Lox.Proofs.Evaluation.Law
import Lox.Proofs.Pairing.Trees
import Lox.Proofs.Scopes.Correspondence

namespace Lox

variable {R : Token.Pairing}

/-! ### Faults

A cause can hold the name of a variable, which is the lexeme of its token, and
counterparts have one lexeme.  An operator that is none would be a cause of its own, but
trees that match hold no such operator.
-/

/-- What parsed programs can do wrong. -/
inductive RuntimeCause.Ordinary : RuntimeCause → Prop where
  | undefinedVariable (name : String) : Ordinary (.undefinedVariable name)
  | operandNotNumber : Ordinary .operandNotNumber
  | operandsNotNumbers : Ordinary .operandsNotNumbers
  | operandsNotAddable : Ordinary .operandsNotAddable
  | notCallable : Ordinary .notCallable
  | wrongArgumentCount (expected given : Nat) : Ordinary (.wrongArgumentCount expected given)

/-- Faults with one ordinary cause at counterparts, or the output being full in both runs. -/
inductive RuntimeFault.Matches (R : Token.Pairing) : RuntimeFault → RuntimeFault → Prop where
  | raised {token token' : Token} {cause : RuntimeCause} (htoken : R.Pairs token token')
      (hcause : cause.Ordinary) : Matches R (.raised token cause) (.raised token' cause)
  | outputFull : Matches R .outputFull .outputFull

/-- The same reason to stop. -/
inductive Stop.Matches (R : Token.Pairing) : Stop → Stop → Prop where
  | fault {fault fault' : RuntimeFault} (h : fault.Matches R fault') :
      Matches R (.fault fault) (.fault fault')
  | outOfFuel : Matches R .outOfFuel .outOfFuel

/-! ### Values -/

/-- Functions made at the same moment in the same scope, whose declarations match. -/
structure Closure.Matches (R : Token.Pairing) (f g : Closure) : Prop where
  /-- Both runs have made as many functions before. -/
  id_eq : f.id = g.id
  /-- Scopes are numbered alike in both. -/
  scope_eq : f.scope = g.scope
  /-- The names match, and so do their lexemes. -/
  name : R.Pairs f.name g.name
  /-- As many parameters, under the same names. -/
  params : List.Forall₂ R.Pairs f.params g.params
  /-- The statements match one by one. -/
  body : List.Forall₂ (Stmt.Matches R) f.body g.body

private theorem Closure.Matches.oneToOne (R : Token.Pairing) :
    Closure.OneToOne (Closure.Matches R) := by
  intro f g f' g' h h'
  rw [h.id_eq, h'.id_eq]

/-- The same value, where functions count as the same if they match. -/
abbrev Value.Matches (R : Token.Pairing) : Value → Value → Prop :=
  Value.Related (Closure.Matches R)

/-- The same end of a statement. -/
abbrev Flow.Matches (R : Token.Pairing) : Flow → Flow → Prop := Flow.Related (Closure.Matches R)

private theorem Value.Matches.text_eq {v w : Value} (h : v.Matches R w) : v.text = w.text :=
  Value.Related.text_eq (fun h => R.lexeme_eq h.name) h

private theorem Callee.Related.arity_eq_of_matches {f g : Callee}
    (h : f.Related (Closure.Matches R) g) : f.arity = g.arity :=
  h.arity_eq fun h => h.params.length_eq

private theorem Closure.Matches.arguments {f g : Closure} {vs ws : List Value} (h : f.Matches R g)
    (hvs : List.Forall₂ (Value.Matches R) vs ws) :
    (f.arguments vs).Related (Closure.Matches R) (g.arguments ws) := by
  have hnames : f.params.map Token.lexeme = g.params.map Token.lexeme := by
    rw [← List.forall₂_eq_eq_eq, List.forall₂_map_left_iff, List.forall₂_map_right_iff]
    exact h.params.imp fun _ _ => R.lexeme_eq
  unfold Closure.arguments
  rw [hnames]
  exact .ofPairs _ hvs

/-! ### Operators -/

/-- If the outcome is a fault, it is an ordinary one. -/
def Outcome.Ordinary (outcome : Outcome) : Prop := ∀ cause, outcome = .error cause → cause.Ordinary

private theorem onNumbers_ordinary (operation : Number → Number → Value) (l r : Value) :
    Outcome.Ordinary (onNumbers operation l r) := by
  unfold onNumbers
  split
  · exact fun _ h => nomatch h
  · rintro _ ⟨⟩
    exact .operandsNotNumbers

private theorem sum_ordinary (l r : Value) : Outcome.Ordinary (sum l r) := by
  unfold sum
  split
  · exact fun _ h => nomatch h
  · exact fun _ h => nomatch h
  · rintro _ ⟨⟩
    exact .operandsNotAddable

private theorem binaryOutcome_ordinary {op : Token.Kind} (h : (binaryStrength? op).isSome)
    (l r : Value) : (binaryOutcome op l r).Ordinary := by
  unfold binaryOutcome
  split
  · exact sum_ordinary l r
  iterate 7 exact onNumbers_ordinary _ l r
  · exact fun _ h => nomatch h
  · exact fun _ h => nomatch h
  · unfold binaryStrength? at h
    split at h <;> simp_all

private theorem unaryOutcome_ordinary {op : Token.Kind}
    (h : op = .symbol .bang ∨ op = .symbol .minus) (r : Value) :
    (unaryOutcome op r).Ordinary := by
  rcases h with rfl | rfl
  · exact fun _ h => nomatch h
  · cases r with
    | number n => exact fun _ h => nomatch h
    | _ =>
        rintro _ ⟨⟩
        exact .operandNotNumber

private theorem decidedByLeft_matches {op : Token.Kind} (h : (logicalStrength? op).isSome)
    {l l' : Value} (hl : l.Matches R l') :
    ∃ decided, decidedByLeft op l = some decided ∧ decidedByLeft op l' = some decided := by
  unfold decidedByLeft
  rw [hl.truthy_eq]
  unfold logicalStrength? at h
  split at h
  · exact ⟨_, rfl, rfl⟩
  · exact ⟨_, rfl, rfl⟩
  · exact nomatch h

/-! ### Machines

Both runs make their scopes and functions at the same moments, so these have the same
numbers on both machines and nothing has to be renumbered.  What may differ is inside
functions: the tokens of their declarations.
-/

/-- Machines with the same scopes, in which values that match are bound to the same names. -/
structure Machine.Matches (R : Token.Pairing) (m m' : Machine) : Prop where
  /-- As many scopes have been made. -/
  size : m'.store.size = m.store.size
  /-- Each is inside the same ones. -/
  chain : ∀ i, m'.store.chain i = m.store.chain i
  /-- The same names are bound in each, to values that match. -/
  bindings : ∀ i, (m.store.bindings i).Related (Closure.Matches R) (m'.store.bindings i)
  /-- Both stand in the same scope. -/
  scope : m'.scope = m.scope
  /-- As many functions have been made. -/
  functions : m'.functions = m.functions
  /-- The same has been printed, and there is as much room left. -/
  output : m'.output = m.output
  /-- The clocks are the same. -/
  clock : m'.clock = m.clock
  /-- They have been read as often. -/
  readings : m'.readings = m.readings

namespace Machine.Matches

variable {m m' : Machine} {v w : Value}

/-- A machine that has not run anything matches itself. -/
theorem start (clock : Nat → Number) (room : Option Nat) :
    (Machine.start clock room).Matches R (Machine.start clock room) where
  size := rfl
  chain _ := rfl
  bindings i := by
    have hpush : (Machine.start clock room).store.bindings i = _ :=
      Store.bindings_push .empty [] [(Native.clock.name, .native .clock)] i
    rw [hpush]
    split
    · exact .cons ⟨rfl, .native .clock⟩ .nil
    · exact .nil
  scope := rfl
  functions := rfl
  output := rfl
  clock := rfl
  readings := rfl

private theorem print (h : m.Matches R m') (text : String) :
    (m.print text).Matches R (m'.print text) := by
  refine { h with output := ?_ }
  show (m'.output.write text).1 = (m.output.write text).1
  rw [h.output]

private theorem tick (h : m.Matches R m') : m.tick.Matches R m'.tick := by
  refine { h with readings := ?_ }
  show m'.readings + 1 = m.readings + 1
  rw [h.readings]

private theorem countFunction (h : m.Matches R m') :
    m.countFunction.Matches R m'.countFunction := by
  refine { h with functions := ?_ }
  show m'.functions + 1 = m.functions + 1
  rw [h.functions]

private theorem resume (h : m.Matches R m') (scope : ScopeId) :
    (m.resume scope).Matches R (m'.resume scope) := { h with scope := rfl }

theorem write (h : m.Matches R m') (j : ScopeId) (name : String) (hv : v.Matches R w) :
    (m.write j name v).Matches R (m'.write j name w) := by
  refine { h with size := ?_, chain := fun i => ?_, bindings := fun i => ?_ }
  · rw [size_write, size_write, h.size]
  · rw [chain_write, chain_write, h.chain]
  · rw [bindings_write, bindings_write, h.size]
    split
    · exact (h.bindings i).set name hv
    · exact h.bindings i

private theorem enter (h : m.Matches R m') (parent : ScopeId) {bindings other : Bindings}
    (hbindings : bindings.Related (Closure.Matches R) other) :
    (m.enter parent bindings).Matches R (m'.enter parent other) := by
  refine { h with size := ?_, chain := fun i => ?_, bindings := fun i => ?_, scope := h.size }
  · rw [size_enter, size_enter, h.size]
  · rw [chain_enter, chain_enter, h.size, h.chain, h.chain]
  · rw [bindings_enter, bindings_enter, h.size]
    split
    · exact hbindings
    · exact h.bindings i

theorem resolve?_eq (h : m.Matches R m') (i : ScopeId) (name : String) :
    m'.store.resolve? i name = m.store.resolve? i name := by
  unfold Store.resolve?
  rw [h.chain]
  exact List.find?_congr fun j _ => ((h.bindings j).isSome_get? name).symm

theorem get? (h : m.Matches R m') (i : ScopeId) (name : String) :
    m.store.get? i name = none ∧ m'.store.get? i name = none ∨
      ∃ v w, m.store.get? i name = some v ∧ m'.store.get? i name = some w ∧ v.Matches R w := by
  unfold Store.get?
  rw [h.resolve?_eq]
  cases m.store.resolve? i name with
  | none => exact .inl ⟨rfl, rfl⟩
  | some j => exact (h.bindings j).get? name

private theorem newFunction (h : m.Matches R m') {name name' : Token} {params params' : List Token}
    {body body' : List Stmt} (hname : R.Pairs name name')
    (hparams : List.Forall₂ R.Pairs params params')
    (hbody : List.Forall₂ (Stmt.Matches R) body body') :
    (m.newFunction name params body).Matches R (m'.newFunction name' params' body') :=
  ⟨h.functions.symm, h.scope.symm, hname, hparams, hbody⟩

end Machine.Matches

/-! ### Steps that end alike -/

namespace Exec

variable {α β γ δ : Type} {A : α → β → Prop} {B : γ → δ → Prop}

/-- Both steps gave results that are related, or both stopped for the same reason. -/
inductive EndsMatch (R : Token.Pairing) (A : α → β → Prop) :
    EStateM.Result Stop Machine α → EStateM.Result Stop Machine β → Prop where
  | ok {a : α} {b : β} {m m' : Machine} (hm : m.Matches R m') (hab : A a b) :
      EndsMatch R A (.ok a m) (.ok b m')
  | error {stop stop' : Stop} {m m' : Machine} (hm : m.Matches R m')
      (hstop : stop.Matches R stop') : EndsMatch R A (.error stop m) (.error stop' m')

/-- On machines that match, the steps end alike. -/
def Matches (R : Token.Pairing) (A : α → β → Prop) (p : Exec α) (q : Exec β) : Prop :=
  ∀ m m', m.Matches R m' → EndsMatch R A (p m) (q m')

namespace Matches

theorem pure {a : α} {b : β} (h : A a b) : Matches R A (Pure.pure a) (Pure.pure b) :=
  fun _ _ hm => .ok hm h

theorem bind {p : Exec α} {q : Exec β} {k : α → Exec γ} {l : β → Exec δ} (h : Matches R A p q)
    (hk : ∀ a b, A a b → Matches R B (k a) (l b)) : Matches R B (p >>= k) (q >>= l) := by
  intro m m' hm
  have hends := h m m' hm
  simp only [Bind.bind, EStateM.bind]
  generalize p m = first at hends ⊢
  generalize q m' = first' at hends ⊢
  cases hends with
  | ok hm hab => exact hk _ _ hab _ _ hm
  | error hm hstop => exact .error hm hstop

private theorem outOfFuel : Matches R A (throw .outOfFuel) (throw .outOfFuel) :=
  fun _ _ hm => .error hm .outOfFuel

theorem raise {token token' : Token} {cause : RuntimeCause} (htoken : R.Pairs token token')
    (hcause : cause.Ordinary) : Matches R A (raise token cause) (raise token' cause) :=
  fun _ _ hm => .error hm (.fault (.raised htoken hcause))

private theorem ofOutcome {op op' : Token} {outcome : Outcome} (hop : R.Pairs op op')
    (hplain : outcome.Plain) (hordinary : outcome.Ordinary) :
    Matches R (Value.Matches R) (ofOutcome op outcome) (ofOutcome op' outcome) := by
  cases outcome with
  | ok value => exact pure (hplain value rfl _)
  | error cause => exact raise hop (hordinary cause rfl)

private theorem emit (text : String) :
    Matches R (fun _ _ => True) (Exec.emit text) (Exec.emit text) := by
  intro m m' hm
  rw [emit_apply, emit_apply, hm.output]
  cases (m.output.write text).2 with
  | true => exact .ok (hm.print text) trivial
  | false => exact .error (hm.print text) (.fault .outputFull)

private theorem readClock : Matches R Eq Exec.readClock Exec.readClock := by
  intro m m' hm
  refine .ok hm.tick ?_
  show m.clock m.readings = m'.clock m'.readings
  rw [hm.clock, hm.readings]

private theorem fetch {name name' : Token} (h : R.Pairs name name') :
    Matches R (Value.Matches R) (Exec.fetch name) (Exec.fetch name') := by
  intro m m' hm
  unfold Exec.fetch
  rw [← R.lexeme_eq h, hm.scope]
  rcases hm.get? m.scope name.lexeme with ⟨hnone, hnone'⟩ | ⟨v, w, hsome, hsome', hvw⟩
  · rw [hnone, hnone']
    exact raise h (.undefinedVariable _) m m' hm
  · rw [hsome, hsome']
    exact .ok hm hvw

private theorem assign {name name' : Token} {v w : Value} (h : R.Pairs name name')
    (hv : v.Matches R w) :
    Matches R (fun _ _ => True) (Exec.assign name v) (Exec.assign name' w) := by
  intro m m' hm
  rw [assign_apply, assign_apply, ← R.lexeme_eq h, hm.scope, hm.resolve?_eq]
  cases m.store.resolve? m.scope name.lexeme with
  | none => exact raise h (.undefinedVariable _) m m' hm
  | some j => exact .ok (hm.write j name.lexeme hv) trivial

private theorem define {name name' : Token} {v w : Value} (h : R.Pairs name name')
    (hv : v.Matches R w) :
    Matches R (fun _ _ => True) (Exec.define name v) (Exec.define name' w) := by
  intro m m' hm
  show EndsMatch R _ (.ok () (m.write m.scope name.lexeme v))
    (.ok () (m'.write m'.scope name'.lexeme w))
  rw [← R.lexeme_eq h, hm.scope]
  exact .ok (hm.write m.scope name.lexeme hv) trivial

private theorem makeFunction {name name' : Token} {params params' : List Token}
    {body body' : List Stmt}
    (hname : R.Pairs name name') (hparams : List.Forall₂ R.Pairs params params')
    (hbody : List.Forall₂ (Stmt.Matches R) body body') :
    Matches R (Value.Matches R) (Exec.makeFunction name params body)
      (Exec.makeFunction name' params' body') :=
  fun _ _ hm => .ok hm.countFunction (.function (hm.newFunction hname hparams hbody))

theorem within {p : Exec α} {q : Exec β} (h : Matches R A p q) (parent : ScopeId)
    {bindings other : Bindings} (hbindings : bindings.Related (Closure.Matches R) other) :
    Matches R A (Exec.within parent bindings p) (Exec.within parent other q) := by
  intro m m' hm
  have hends := h _ _ (hm.enter parent hbindings)
  rw [within_apply, within_apply, hm.scope]
  generalize p (m.enter parent bindings) = inner at hends ⊢
  generalize q (m'.enter parent other) = inner' at hends ⊢
  cases hends with
  | ok hm' hab => exact .ok (hm'.resume m.scope) hab
  | error hm' hstop => exact .error (hm'.resume m.scope) hstop

private theorem nested {p : Exec α} {q : Exec β} (h : Matches R A p q) :
    Matches R A (Exec.nested p) (Exec.nested q) := by
  intro m m' hm
  unfold Exec.nested
  rw [hm.scope]
  exact h.within m.scope .nil m m' hm

private theorem pureNormal : Matches R (Flow.Matches R) (Pure.pure .normal) (Pure.pure .normal) :=
  pure .normal

/-- After a statement, go on or pass on what it returns. -/
theorem bindFlow {p q : Exec Flow} {k l : Flow → Exec Flow} (h : Matches R (Flow.Matches R) p q)
    (hnormal : Matches R (Flow.Matches R) (k .normal) (l .normal))
    (hreturned : ∀ v w, v.Matches R w →
      Matches R (Flow.Matches R) (k (.returned v)) (l (.returned w))) :
    Matches R (Flow.Matches R) (p >>= k) (q >>= l) :=
  h.bind fun _ _ hflow => by
    cases hflow with
    | normal => exact hnormal
    | returned hv => exact hreturned _ _ hv

end Matches

/-! ### The evaluator

As for renamed lines, two trees run here, so a `Comparison` will not do.  The induction
is on fuel; within a unit, the rule by which the trees match says which case of the
evaluator it is.
-/

/-- With this much fuel, every function of the evaluator does the same to programs that match. -/
structure MatchesWithin (R : Token.Pairing) (n : Nat) : Prop where
  evaluate : ∀ e e', Expr.Matches R e e' →
    Matches R (Value.Matches R) (evaluate n e) (evaluate n e')
  evaluateAll : ∀ es es', List.Forall₂ (Expr.Matches R) es es' →
    Matches R (List.Forall₂ (Value.Matches R)) (evaluateAll n es) (evaluateAll n es')
  call : ∀ f g vs ws, Callee.Related (Closure.Matches R) f g →
    List.Forall₂ (Value.Matches R) vs ws → Matches R (Value.Matches R) (call n f vs) (call n g ws)
  execute : ∀ s s', Stmt.Matches R s s' → Matches R (Flow.Matches R) (execute n s) (execute n s')
  executeAll : ∀ ss ss', List.Forall₂ (Stmt.Matches R) ss ss' →
    Matches R (Flow.Matches R) (executeAll n ss) (executeAll n ss')

private theorem matchesWithin_zero : MatchesWithin R 0 where
  evaluate _ _ _ := .outOfFuel
  evaluateAll _ _ _ := .outOfFuel
  call _ _ _ _ _ _ := .outOfFuel
  execute _ _ _ := .outOfFuel
  executeAll _ _ _ := .outOfFuel

/-- A call does the same in both runs, and so does refusing it. -/
theorem MatchesWithin.callValue {n : Nat} (ih : MatchesWithin R n) {paren paren' : Token}
    {f g : Value} {vs ws : List Value} (hparen : R.Pairs paren paren') (hf : f.Matches R g)
    (hvs : List.Forall₂ (Value.Matches R) vs ws) :
    Matches R (Value.Matches R)
      (match f.callee? with
        | none => Exec.raise paren .notCallable
        | some f =>
          if vs.length = f.arity then Exec.call n f vs
          else Exec.raise paren (.wrongArgumentCount f.arity vs.length))
      (match g.callee? with
        | none => Exec.raise paren' .notCallable
        | some g =>
          if ws.length = g.arity then Exec.call n g ws
          else Exec.raise paren' (.wrongArgumentCount g.arity ws.length)) := by
  rcases hf.callee? with ⟨hnone, hnone'⟩ | ⟨f', g', hsome, hsome', hcallee⟩
  · rw [hnone, hnone']
    exact .raise hparen .notCallable
  · rw [hsome, hsome']
    simp only
    rw [← hcallee.arity_eq_of_matches, ← hvs.length_eq]
    by_cases hlength : vs.length = f'.arity
    · rw [if_pos hlength, if_pos hlength]
      exact ih.call f' g' vs ws hcallee hvs
    · rw [if_neg hlength, if_neg hlength]
      exact .raise hparen (.wrongArgumentCount _ _)

private theorem matchesWithin_succ {n : Nat} (ih : MatchesWithin R n) :
    MatchesWithin R (n + 1) where
  evaluate e e' h := by
    cases h with
    | assign hname hvalue =>
        exact (ih.evaluate _ _ hvalue).bind fun v w hv =>
          (Matches.assign hname hv).bind fun _ _ _ => .pure hv
    | binary hleft hop hbinary hright =>
        refine (ih.evaluate _ _ hleft).bind fun l l' hl =>
          (ih.evaluate _ _ hright).bind fun r r' hr => ?_
        rw [← R.kind_eq hop, ← binaryOutcome_related (Closure.Matches.oneToOne R) _ hl hr]
        exact .ofOutcome hop (binaryOutcome_plain _ l r) (binaryOutcome_ordinary hbinary l r)
    | call hcallee hparen harguments =>
        exact (ih.evaluate _ _ hcallee).bind fun f g hf =>
          (ih.evaluateAll _ _ harguments).bind fun vs ws hvs => ih.callValue hparen hf hvs
    | grouping hinner => exact ih.evaluate _ _ hinner
    | literal value => exact .pure (.ofLiteral value)
    | logical hleft hop hlogical hright =>
        refine (ih.evaluate _ _ hleft).bind fun l l' hl => ?_
        obtain ⟨decided, hdecided, hdecided'⟩ := decidedByLeft_matches hlogical hl
        rw [← R.kind_eq hop, hdecided, hdecided']
        cases decided with
        | true => exact .pure hl
        | false => exact ih.evaluate _ _ hright
    | unary hop hunary hright =>
        refine (ih.evaluate _ _ hright).bind fun r r' hr => ?_
        rw [← R.kind_eq hop, ← unaryOutcome_related _ hr]
        exact .ofOutcome hop (unaryOutcome_plain _ r) (unaryOutcome_ordinary hunary r)
    | var hname => exact .fetch hname
  evaluateAll es es' h := by
    cases h with
    | nil => exact .pure .nil
    | cons he hes =>
        exact (ih.evaluate _ _ he).bind fun v w hv =>
          (ih.evaluateAll _ _ hes).bind fun vs ws hvs => .pure (.cons hv hvs)
  call f g vs ws hfg hvs := by
    cases hfg with
    | @function f g hf =>
        show Matches R _ (Exec.within f.scope _ _ >>= _) (Exec.within g.scope _ _ >>= _)
        rw [← hf.scope_eq]
        exact ((ih.executeAll _ _ hf.body).within f.scope (hf.arguments hvs)).bind
          fun flow flow' hflow => .pure hflow.result
    | native f =>
        cases f
        exact Matches.readClock.bind fun now now' hnow => by
          rw [hnow]
          exact .pure (.number now')
  execute s s' h := by
    cases h with
    | block hbody => exact (ih.executeAll _ _ hbody).nested
    | expression hvalue => exact (ih.evaluate _ _ hvalue).bind fun _ _ _ => .pureNormal
    | function hname hparams hbody =>
        exact (Matches.makeFunction hname hparams hbody).bind fun f g hf =>
          (Matches.define hname hf).bind fun _ _ _ => .pureNormal
    | conditional hcondition hthen helse =>
        refine (ih.evaluate _ _ hcondition).bind fun c c' hc => ?_
        rw [← hc.truthy_eq]
        split
        · exact ih.execute _ _ hthen
        · cases helse with
          | none => exact .pureNormal
          | some helse => exact ih.execute _ _ helse
    | print hvalue =>
        refine (ih.evaluate _ _ hvalue).bind fun v w hv => ?_
        rw [← hv.text_eq]
        exact (Matches.emit _).bind fun _ _ _ => .pureNormal
    | return_ hkeyword hvalue =>
        cases hvalue with
        | none => exact .pure (.returned .nil)
        | some hvalue => exact (ih.evaluate _ _ hvalue).bind fun v w hv => .pure (.returned hv)
    | var hname hvalue =>
        cases hvalue with
        | none => exact (Matches.define hname .nil).bind fun _ _ _ => .pureNormal
        | some hvalue =>
            exact (ih.evaluate _ _ hvalue).bind fun v w hv =>
              (Matches.define hname hv).bind fun _ _ _ => .pureNormal
    | loop hcondition hbody =>
        refine (ih.evaluate _ _ hcondition).bind fun c c' hc => ?_
        rw [← hc.truthy_eq]
        split
        · exact (ih.execute _ _ hbody).bindFlow (ih.execute _ _ (.loop hcondition hbody))
            fun v w hv => .pure (.returned hv)
        · exact .pureNormal
  executeAll ss ss' h := by
    cases h with
    | nil => exact .pureNormal
    | cons hs hss =>
        exact (ih.execute _ _ hs).bindFlow (ih.executeAll _ _ hss)
          fun v w hv => .pure (.returned hv)

/-- **Programs that match do the same on machines that match, with any fuel.** -/
theorem matchesWithin : ∀ n, MatchesWithin R n
  | 0 => matchesWithin_zero
  | n + 1 => matchesWithin_succ (matchesWithin n)

end Exec

end Lox
