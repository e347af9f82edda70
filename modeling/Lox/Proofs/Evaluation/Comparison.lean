/-
Two runs side by side.

Many laws of evaluation compare two runs of one program, or look at one run alone.
Their proofs all go along the same cases: each function of the evaluator does
elementary steps one after the other, branches on what values look like, and hands
less fuel to the others.  Here that is gone through once.

A `Comparison` says which functions count as the same in two runs and when two
steps are related, and it promises that elementary steps are related to themselves
and that sequencing keeps steps related.  Every function of the evaluator is then
related to itself, by induction on fuel: `Comparison.evaluator`.

Which functions count as the same may depend on what has happened, as functions are
made on the way.  What has happened is a world.  Worlds only grow, and what is the
same in a world is so in every later one.
-/
import Mathlib.Data.List.Forall2
import Lox.Evaluation

namespace Lox

/-! ### Values that are the same but for their functions

Which functions are related is left open: two runs may number them differently, or have
them from programs that differ in their lines.  Values of the other types are related to
themselves only.
-/

/-- A relation between the functions of two runs. -/
abbrev Closure.Relation := Closure → Closure → Prop

/-- The same value, where functions count as the same if they are related. -/
inductive Value.Related (functions : Closure.Relation) : Value → Value → Prop where
  | nil : Related functions .nil .nil
  | bool (b : Bool) : Related functions (.bool b) (.bool b)
  | number (n : Number) : Related functions (.number n) (.number n)
  | string (s : String) : Related functions (.string s) (.string s)
  | native (f : Native) : Related functions (.native f) (.native f)
  | function {f g : Closure} (h : functions f g) : Related functions (.function f) (.function g)

/-- Statements that end in the same way. -/
inductive Flow.Related (functions : Closure.Relation) : Flow → Flow → Prop where
  | normal : Related functions .normal .normal
  | returned {v w : Value} (h : v.Related functions w) :
      Related functions (.returned v) (.returned w)

/-- The same thing to call. -/
inductive Callee.Related (functions : Closure.Relation) : Callee → Callee → Prop where
  | function {f g : Closure} (h : functions f g) : Related functions (.function f) (.function g)
  | native (f : Native) : Related functions (.native f) (.native f)

/-- Related functions have as many identities on both sides. -/
def Closure.OneToOne (functions : Closure.Relation) : Prop :=
  ∀ {f g f' g'}, functions f g → functions f' g' → (f.id = f'.id ↔ g.id = g'.id)

/-- Related functions have one declaration, and as many identities on both sides. -/
structure Closure.Congruent (functions : Closure.Relation) : Prop where
  /-- A function is printed by its name. -/
  name : ∀ {f g}, functions f g → f.name = g.name
  /-- Their number decides whether a call goes through, and their names say what it binds. -/
  params : ∀ {f g}, functions f g → f.params = g.params
  /-- A call of either executes the same statements. -/
  body : ∀ {f g}, functions f g → f.body = g.body
  /-- Equality of functions gives the same on both sides. -/
  id_iff : Closure.OneToOne functions

variable {functions more : Closure.Relation} {v w l l' r r' : Value}

namespace Value.Related

theorem mono (h : ∀ {f g}, functions f g → more f g) (hv : v.Related functions w) :
    v.Related more w := by
  cases hv with
  | function hf => exact .function (h hf)
  | nil => exact .nil
  | bool b => exact .bool b
  | number n => exact .number n
  | string s => exact .string s
  | native f => exact .native f

theorem ofLiteral (literal : Literal) :
    (Value.ofLiteral literal).Related functions (.ofLiteral literal) := by
  cases literal with
  | nil => exact .nil
  | bool b => exact .bool b
  | number n => exact .number n
  | string s => exact .string s

theorem truthy_eq (h : v.Related functions w) : v.truthy = w.truthy := by
  cases h <;> rfl

theorem text_eq (hname : ∀ {f g}, functions f g → f.name.lexeme = g.name.lexeme)
    (h : v.Related functions w) : v.text = w.text := by
  cases h with
  | function hf => rw [text, text, hname hf]
  | _ => rfl

theorem equals_eq (hid : Closure.OneToOne functions) (hl : l.Related functions l')
    (hr : r.Related functions r') : l.equals r = l'.equals r' := by
  cases hl with
  | function hf =>
      cases hr with
      | function hg => rw [equals, equals, decide_eq_decide, hid hf hg]
      | _ => rfl
  | _ => cases hr <;> rfl

theorem callee? (h : v.Related functions w) :
    v.callee? = none ∧ w.callee? = none ∨
      ∃ f g, v.callee? = some f ∧ w.callee? = some g ∧ f.Related functions g := by
  cases h with
  | function hf => exact .inr ⟨_, _, rfl, rfl, .function hf⟩
  | native f => exact .inr ⟨_, _, rfl, rfl, .native f⟩
  | _ => exact .inl ⟨rfl, rfl⟩

end Value.Related

theorem Callee.Related.arity_eq
    (hparams : ∀ {f g}, functions f g → f.params.length = g.params.length) {f g : Callee}
    (h : f.Related functions g) : f.arity = g.arity := by
  cases h with
  | function hf => rw [arity, arity, hparams hf]
  | native f => rfl

theorem Flow.Related.result {f g : Flow} (h : f.Related functions g) :
    f.result.Related functions g.result := by
  cases h with
  | normal => exact .nil
  | returned hv => exact hv

/-! ### Operators

An operator gives the same on both sides, and never a function.
-/

/-- The outcome holds no function, so it is the same in every run. -/
def Outcome.Plain (outcome : Outcome) : Prop :=
  ∀ value, outcome = .ok value → ∀ functions, value.Related functions value

private theorem onNumbers_plain {operation : Number → Number → Value}
    (h : ∀ a b functions, (operation a b).Related functions (operation a b)) (l r : Value) :
    Outcome.Plain (onNumbers operation l r) := by
  unfold onNumbers
  split
  · rintro _ ⟨⟩
    exact h _ _
  · exact nofun

theorem binaryOutcome_plain (op : Token.Kind) (l r : Value) :
    (binaryOutcome op l r).Plain := by
  unfold binaryOutcome
  split
  · unfold sum
    split
    · rintro _ ⟨⟩ _
      exact .number _
    · rintro _ ⟨⟩ _
      exact .string _
    · exact nofun
  · exact onNumbers_plain (fun _ _ _ => .number _) l r
  · exact onNumbers_plain (fun _ _ _ => .number _) l r
  · exact onNumbers_plain (fun _ _ _ => .number _) l r
  · exact onNumbers_plain (fun _ _ _ => .bool _) l r
  · exact onNumbers_plain (fun _ _ _ => .bool _) l r
  · exact onNumbers_plain (fun _ _ _ => .bool _) l r
  · exact onNumbers_plain (fun _ _ _ => .bool _) l r
  · rintro _ ⟨⟩ _
    exact .bool _
  · rintro _ ⟨⟩ _
    exact .bool _
  · exact nofun

theorem unaryOutcome_plain (op : Token.Kind) (r : Value) : (unaryOutcome op r).Plain := by
  unfold unaryOutcome
  split
  · rintro _ ⟨⟩ _
    exact .number _
  · exact nofun
  · rintro _ ⟨⟩ _
    exact .bool _
  · exact nofun

private theorem onNumbers_related (operation : Number → Number → Value)
    (hl : l.Related functions l')
    (hr : r.Related functions r') : onNumbers operation l r = onNumbers operation l' r' := by
  cases hl with
  | number a => cases hr <;> rfl
  | _ => rfl

private theorem sum_related (hl : l.Related functions l') (hr : r.Related functions r') :
    sum l r = sum l' r' := by
  cases hl <;> cases hr <;> rfl

theorem binaryOutcome_related (hid : Closure.OneToOne functions) (op : Token.Kind)
    (hl : l.Related functions l') (hr : r.Related functions r') :
    binaryOutcome op l r = binaryOutcome op l' r' := by
  have hequals := Value.Related.equals_eq hid hl hr
  unfold binaryOutcome
  split
  · exact sum_related hl hr
  iterate 7 exact onNumbers_related _ hl hr
  · rw [hequals]
  · rw [hequals]
  · rfl

theorem unaryOutcome_related (op : Token.Kind) (hr : r.Related functions r') :
    unaryOutcome op r = unaryOutcome op r' := by
  have htruthy := hr.truthy_eq
  cases op with
  | symbol s =>
      cases s with
      | bang => simp only [unaryOutcome, htruthy]
      | _ => cases hr <;> rfl
  | _ => rfl

/-! ### Comparisons

Results are related in the world in which a step ends, which is later than the one it
started in.  So what was related before has to stay related, and whatever is done behind
a step has to be related in every later world, not just in one.
-/

/-- A way to compare two runs. -/
structure Comparison where
  /-- What has happened in both. -/
  World : Type
  /-- What has happened in the first world has happened in the second. -/
  Grows : World → World → Prop
  /-- Which functions count as the same. -/
  functions : World → Closure.Relation
  /-- Steps that do the same in a world, given what counts as the same result afterwards. -/
  Related : {α : Type} → World → (World → α → α → Prop) → Exec α → Exec α → Prop
  /-- What counts as the same goes on doing so. -/
  grow : ∀ {u u' f g}, Grows u u' → functions u f g → functions u' f g
  /-- Functions that count as the same do the same when they are called, printed or compared. -/
  congruent : ∀ u, Closure.Congruent (functions u)
  /-- A result is related if it is so in whatever world the step ends. -/
  pure : ∀ {α : Type} {u} {A : World → α → α → Prop} {a b},
    (∀ u', Grows u u' → A u' a b) → Related u A (Pure.pure a) (Pure.pure b)
  /-- The second step starts in a later world, in which the results of the first are related. -/
  bind : ∀ {α β : Type} {u} {A : World → α → α → Prop} {B : World → β → β → Prop}
    {p q : Exec α} {k l : α → Exec β}, Related u A p q →
    (∀ u' a b, Grows u u' → A u' a b → Related u' B (k a) (l b)) → Related u B (p >>= k) (q >>= l)
  /-- Both runs are given the same fuel, so both run out of it or neither does. -/
  outOfFuel : ∀ {α : Type} {u} {A : World → α → α → Prop},
    Related u A (throw .outOfFuel) (throw .outOfFuel)
  /-- A fault is the same in both, with its token. -/
  raise : ∀ {α : Type} {u} {A : World → α → α → Prop} (token : Token) (cause : RuntimeCause),
    Related u A (Exec.raise token cause) (Exec.raise token cause)
  /-- What is printed is the same text: a function shows by its name only. -/
  emit : ∀ u (text : String), Related u (fun _ _ _ => True) (Exec.emit text) (Exec.emit text)
  /-- The clocks show the same. -/
  readClock : ∀ u, Related u (fun _ now now' => now = now') Exec.readClock Exec.readClock
  /-- What is found under a name counts as the same, and so does finding nothing. -/
  fetch : ∀ u (name : Token),
    Related u (fun u => Value.Related (functions u)) (Exec.fetch name) (Exec.fetch name)
  /-- An assignment finds its binding in both runs or in neither. -/
  assign : ∀ u (name : Token) {v w : Value}, v.Related (functions u) w →
    Related u (fun _ _ _ => True) (Exec.assign name v) (Exec.assign name w)
  /-- A definition never fails. -/
  define : ∀ u (name : Token) {v w : Value}, v.Related (functions u) w →
    Related u (fun _ _ _ => True) (Exec.define name v) (Exec.define name w)
  /-- The functions that a declaration makes in the two runs count as the same from then on. -/
  makeFunction : ∀ u (name : Token) (params : List Token) (body : List Stmt),
    Related u (fun u => Value.Related (functions u)) (Exec.makeFunction name params body)
      (Exec.makeFunction name params body)
  /-- The body of a function in a scope of its own.  The steps have to be related in all
  worlds, for making the scope is something that happens. -/
  within : ∀ u {f g : Closure} {vs ws : List Value} {p q : Exec Flow}, functions u f g →
    List.Forall₂ (Value.Related (functions u)) vs ws →
    (∀ u', Related u' (fun u => Flow.Related (functions u)) p q) →
    Related u (fun u => Flow.Related (functions u)) (Exec.within f.scope (f.arguments vs) p)
      (Exec.within g.scope (g.arguments ws) q)
  /-- A block is like that, but that nothing is bound in the scope to begin with. -/
  nested : ∀ u {p q : Exec Flow}, (∀ u', Related u' (fun u => Flow.Related (functions u)) p q) →
    Related u (fun u => Flow.Related (functions u)) (Exec.nested p) (Exec.nested q)

namespace Comparison

variable (c : Comparison)

/-- The same value in a world. -/
abbrev Values (u : c.World) : Value → Value → Prop := Value.Related (c.functions u)

/-- The same values in a world, one by one. -/
abbrev AllValues (u : c.World) : List Value → List Value → Prop := List.Forall₂ (c.Values u)

/-- The same end of a statement in a world. -/
abbrev Flows (u : c.World) : Flow → Flow → Prop := Flow.Related (c.functions u)

variable {c} {u u' : c.World}

theorem Values.grow (hu : c.Grows u u') (h : c.Values u v w) : c.Values u' v w :=
  h.mono (c.grow hu)

theorem AllValues.grow (hu : c.Grows u u') {vs ws : List Value} (h : c.AllValues u vs ws) :
    c.AllValues u' vs ws :=
  h.imp fun _ _ hv => Values.grow hu hv

theorem Flows.grow (hu : c.Grows u u') {f g : Flow} (h : c.Flows u f g) : c.Flows u' f g := by
  cases h with
  | normal => exact .normal
  | returned hv => exact .returned (Values.grow hu hv)

private theorem pureNormal : c.Related u c.Flows (Pure.pure .normal) (Pure.pure .normal) :=
  c.pure fun _ _ => .normal

private theorem pureReturned (h : c.Values u v w) :
    c.Related u c.Flows (Pure.pure (.returned v)) (Pure.pure (.returned w)) :=
  c.pure fun _ hu => .returned (Values.grow hu h)

private theorem ofOutcome (op : Token) {outcome : Outcome} (h : outcome.Plain) :
    c.Related u c.Values (Exec.ofOutcome op outcome) (Exec.ofOutcome op outcome) := by
  cases outcome with
  | ok value => exact c.pure fun u' _ => h value rfl _
  | error cause => exact c.raise op cause

/-- After a statement, go on or pass on what it returns. -/
theorem bindFlow {p q : Exec Flow} {k l : Flow → Exec Flow} (h : c.Related u c.Flows p q)
    (hnormal : ∀ u', c.Related u' c.Flows (k .normal) (l .normal))
    (hreturned : ∀ v w u', c.Values u' v w →
      c.Related u' c.Flows (k (.returned v)) (l (.returned w))) :
    c.Related u c.Flows (p >>= k) (q >>= l) :=
  c.bind h fun u' _ _ _ hflow => by
    cases hflow with
    | normal => exact hnormal u'
    | returned hv => exact hreturned _ _ u' hv

/-! ### The evaluator

The induction is on fuel.  A call runs the body of a function that may have been
declared anywhere, even in an earlier source, so there is no tree whose parts would
cover what runs.
-/

/-- With this much fuel, every function of the evaluator does the same in two runs. -/
structure Evaluator (c : Comparison) (n : Nat) : Prop where
  evaluate : ∀ u e, c.Related u c.Values (Exec.evaluate n e) (Exec.evaluate n e)
  evaluateAll : ∀ u es, c.Related u c.AllValues (Exec.evaluateAll n es) (Exec.evaluateAll n es)
  call : ∀ u f g vs ws, f.Related (c.functions u) g → c.AllValues u vs ws →
    c.Related u c.Values (Exec.call n f vs) (Exec.call n g ws)
  execute : ∀ u s, c.Related u c.Flows (Exec.execute n s) (Exec.execute n s)
  executeAll : ∀ u ss, c.Related u c.Flows (Exec.executeAll n ss) (Exec.executeAll n ss)

private theorem evaluator_zero (c : Comparison) : c.Evaluator 0 where
  evaluate _ _ := c.outOfFuel
  evaluateAll _ _ := c.outOfFuel
  call _ _ _ _ _ _ _ := c.outOfFuel
  execute _ _ := c.outOfFuel
  executeAll _ _ := c.outOfFuel

/-- A call does the same in both runs, and so does refusing it. -/
theorem Evaluator.callValue {n : Nat} (ih : c.Evaluator n) (paren : Token)
    {f g : Value} {vs ws : List Value} (hf : c.Values u f g) (hvs : c.AllValues u vs ws) :
    c.Related u c.Values
      (match f.callee? with
        | none => Exec.raise paren .notCallable
        | some f =>
          if vs.length = f.arity then Exec.call n f vs
          else Exec.raise paren (.wrongArgumentCount f.arity vs.length))
      (match g.callee? with
        | none => Exec.raise paren .notCallable
        | some g =>
          if ws.length = g.arity then Exec.call n g ws
          else Exec.raise paren (.wrongArgumentCount g.arity ws.length)) := by
  rcases hf.callee? with ⟨hnone, hnone'⟩ | ⟨f', g', hsome, hsome', hcallee⟩
  · rw [hnone, hnone']
    exact c.raise paren _
  · rw [hsome, hsome']
    simp only
    rw [← hcallee.arity_eq fun h => congrArg List.length ((c.congruent u).params h),
      ← hvs.length_eq]
    by_cases hlength : vs.length = f'.arity
    · rw [if_pos hlength, if_pos hlength]
      exact ih.call u f' g' vs ws hcallee hvs
    · rw [if_neg hlength, if_neg hlength]
      exact c.raise paren _

private theorem evaluator_succ {n : Nat} (ih : c.Evaluator n) : c.Evaluator (n + 1) where
  evaluate u e := by
    cases e with
    | assign name value =>
        exact c.bind (ih.evaluate u value) fun u₁ v w _ hv =>
          c.bind (c.assign u₁ name hv) fun u₂ _ _ hu₂ _ =>
            c.pure fun _ hu₃ => Values.grow hu₃ (Values.grow hu₂ hv)
    | binary left op right =>
        refine c.bind (ih.evaluate u left) fun u₁ l l' _ hl =>
          c.bind (ih.evaluate u₁ right) fun u₂ r r' hu₂ hr => ?_
        rw [← binaryOutcome_related (c.congruent u₂).id_iff op.kind (Values.grow hu₂ hl) hr]
        exact ofOutcome op (binaryOutcome_plain op.kind l r)
    | call callee paren arguments =>
        exact c.bind (ih.evaluate u callee) fun u₁ f g _ hf =>
          c.bind (ih.evaluateAll u₁ arguments) fun u₂ vs ws hu₂ hvs =>
            ih.callValue paren (Values.grow hu₂ hf) hvs
    | grouping inner => exact ih.evaluate u inner
    | literal value => exact c.pure fun _ _ => .ofLiteral value
    | logical left op right =>
        refine c.bind (ih.evaluate u left) fun u₁ l l' _ hl => ?_
        have hdecided : decidedByLeft op.kind l = decidedByLeft op.kind l' := by
          unfold decidedByLeft
          rw [hl.truthy_eq]
        rw [← hdecided]
        cases decidedByLeft op.kind l with
        | none => exact c.raise op _
        | some decided =>
            cases decided with
            | true => exact c.pure fun _ hu => Values.grow hu hl
            | false => exact ih.evaluate u₁ right
    | unary op right =>
        refine c.bind (ih.evaluate u right) fun u₁ r r' _ hr => ?_
        rw [← unaryOutcome_related op.kind hr]
        exact ofOutcome op (unaryOutcome_plain op.kind r)
    | var name => exact c.fetch u name
    | get object name | set object name => exact c.raise name _
    | super keyword | this keyword => exact c.raise keyword _
  evaluateAll u es := by
    cases es with
    | nil => exact c.pure fun _ _ => .nil
    | cons e es =>
        exact c.bind (ih.evaluate u e) fun u₁ v w _ hv =>
          c.bind (ih.evaluateAll u₁ es) fun u₂ vs ws hu₂ hvs =>
            c.pure fun _ hu₃ =>
              .cons (Values.grow hu₃ (Values.grow hu₂ hv)) (AllValues.grow hu₃ hvs)
  call u f g vs ws hfg hvs := by
    cases hfg with
    | @function f g hf =>
        have hbody := c.within u hf hvs fun u' => ih.executeAll u' f.body
        rw [(c.congruent u).body hf] at hbody
        show c.Related u c.Values (Exec.within _ _ (Exec.executeAll n f.body) >>= _)
          (Exec.within _ _ (Exec.executeAll n g.body) >>= _)
        rw [(c.congruent u).body hf]
        exact c.bind hbody fun u₁ flow flow' _ hflow =>
          c.pure fun _ hu₂ => (Flows.grow hu₂ hflow).result
    | native f =>
        cases f
        exact c.bind (c.readClock u) fun u₁ now now' _ hnow => by
          rw [hnow]
          exact c.pure fun _ _ => .number now'
  execute u s := by
    cases s with
    | block body => exact c.nested u fun u' => ih.executeAll u' body
    | expression value => exact c.bind (ih.evaluate u value) fun _ _ _ _ _ => pureNormal
    | function name params body =>
        exact c.bind (c.makeFunction u name params body) fun u₁ f g _ hf =>
          c.bind (c.define u₁ name hf) fun _ _ _ _ _ => pureNormal
    | conditional condition thenBranch elseBranch =>
        refine c.bind (ih.evaluate u condition) fun u₁ d d' _ hd => ?_
        rw [← hd.truthy_eq]
        by_cases htrue : d.truthy = true
        · rw [if_pos htrue]
          exact ih.execute u₁ thenBranch
        · rw [if_neg htrue]
          cases elseBranch with
          | none => exact pureNormal
          | some s => exact ih.execute u₁ s
    | print value =>
        refine c.bind (ih.evaluate u value) fun u₁ v w _ hv => ?_
        rw [← hv.text_eq fun h => congrArg Token.lexeme ((c.congruent u₁).name h)]
        exact c.bind (c.emit u₁ _) fun _ _ _ _ _ => pureNormal
    | return_ keyword value =>
        cases value with
        | none => exact pureReturned .nil
        | some value =>
            exact c.bind (ih.evaluate u value) fun _ _ _ _ hv => pureReturned hv
    | var name initializer =>
        cases initializer with
        | none => exact c.bind (c.define u name .nil) fun _ _ _ _ _ => pureNormal
        | some value =>
            exact c.bind (ih.evaluate u value) fun u₁ v w _ hv =>
              c.bind (c.define u₁ name hv) fun _ _ _ _ _ => pureNormal
    | loop condition body =>
        refine c.bind (ih.evaluate u condition) fun u₁ d d' _ hd => ?_
        rw [← hd.truthy_eq]
        by_cases htrue : d.truthy = true
        · rw [if_pos htrue]
          exact bindFlow (ih.execute u₁ body) (fun u₂ => ih.execute u₂ (.loop condition body))
            fun v w u₂ hv => pureReturned hv
        · rw [if_neg htrue]
          exact pureNormal
  executeAll u ss := by
    cases ss with
    | nil => exact pureNormal
    | cons s ss =>
        exact bindFlow (ih.execute u s) (fun u₁ => ih.executeAll u₁ ss)
          fun v w u₁ hv => pureReturned hv

/-- **Every function of the evaluator does the same in both runs, with any fuel.** -/
theorem evaluator (c : Comparison) : ∀ n, c.Evaluator n
  | 0 => c.evaluator_zero
  | n + 1 => evaluator_succ (c.evaluator n)

end Comparison

end Lox
