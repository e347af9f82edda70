/-
Layout does not matter.

Blanks, newlines and comments have one effect: the lines that items are on.  Two lists
of sources that are scanned into the same items on other lines are run in the same
way, source by source: the same is printed, the sources end in the same way, and the
faults are the same, each on the line that its item has in its own source.

Which item that is depends on the kind of fault.  A static fault is at an item of the
source it was found in.  A running program can also stop in a function of an earlier
source, so the tokens to be paired for a step are those of the sources up to it.
-/
import Lox.Proofs.Pairing.Sources

namespace Lox

/-! ### Items on other lines -/

/-- Both are tokens that are related, or both are faults that are. -/
inductive Item.Related (Q : Token → Token → Prop) (L : LexicalFault → LexicalFault → Prop) :
    Item → Item → Prop where
  | token {t t' : Token} (h : Q t t') : Related Q L (.ok t) (.ok t')
  | fault {f f' : LexicalFault} (h : L f f') : Related Q L (.error f) (.error f')

/-- Tokens that may differ in their lines only. -/
structure Token.SameButLine (t t' : Token) : Prop where
  /-- They have one kind, which has the value of a literal in it. -/
  kind : t.kind = t'.kind
  /-- They have one lexeme. -/
  lexeme : t.lexeme = t'.lexeme

/-- Faults that read the same. -/
def LexicalFault.SameButLine (f f' : LexicalFault) : Prop := f.cause.message = f'.cause.message

instance : DecidableRel Token.SameButLine := fun t t' =>
  decidable_of_iff (t.kind = t'.kind ∧ t.lexeme = t'.lexeme)
    ⟨fun h => ⟨h.1, h.2⟩, fun h => ⟨h.kind, h.lexeme⟩⟩

instance : DecidableRel LexicalFault.SameButLine := fun f f' =>
  inferInstanceAs (Decidable (f.cause.message = f'.cause.message))

instance {Q : Token → Token → Prop} {L : LexicalFault → LexicalFault → Prop} [DecidableRel Q]
    [DecidableRel L] : DecidableRel (Item.Related Q L)
  | .ok t, .ok t' => decidable_of_iff (Q t t') ⟨.token, fun | .token h => h⟩
  | .error f, .error f' => decidable_of_iff (L f f') ⟨.fault, fun | .fault h => h⟩
  | .ok _, .error _ => .isFalse nofun
  | .error _, .ok _ => .isFalse nofun

/-- The items of both sources correspond one to one and differ at most in their lines. -/
def SameButLines (source other : String) : Prop :=
  List.Forall₂ (Item.Related Token.SameButLine LexicalFault.SameButLine) (scan source) (scan other)

instance : DecidableRel SameButLines := fun source other =>
  inferInstanceAs (Decidable (List.Forall₂ _ (scan source) (scan other)))

private theorem Item.tokens_related {Q : Token → Token → Prop}
    {L : LexicalFault → LexicalFault → Prop}
    {items others : List Item} (h : List.Forall₂ (Related Q L) items others) :
    List.Forall₂ Q (tokens items) (tokens others) := by
  induction h with
  | nil => exact .nil
  | cons hitem _ ih =>
      cases hitem with
      | token h => exact .cons h ih
      | fault h => exact ih

private theorem Item.faults_related {Q : Token → Token → Prop}
    {L : LexicalFault → LexicalFault → Prop}
    {items others : List Item} (h : List.Forall₂ (Related Q L) items others) :
    List.Forall₂ L (faults items) (faults others) := by
  induction h with
  | nil => exact .nil
  | cons hitem _ ih =>
      cases hitem with
      | token h => exact ih
      | fault h => exact .cons h ih

/-! ### Items in one place

That the kind and the lexeme are the same is not enough to say which token is meant, as
a source may hold many such tokens.  Counterparts stand in the same place of their
sources, counted in items.
-/

/-- Tokens that stand in one place among the items of two sources. -/
def tokensAt (source other : String) : Token.Pairing where
  Pairs t t' := t.SameButLine t' ∧
    ∃ j : Nat, (scan source)[j]? = some (.ok t) ∧ (scan other)[j]? = some (.ok t')
  kind_eq h := h.1.kind
  lexeme_eq h := h.1.lexeme

/-- Faults that stand in one place among the items of two sources. -/
def FaultsAt (source other : String) (f f' : LexicalFault) : Prop :=
  f.SameButLine f' ∧
    ∃ j : Nat, (scan source)[j]? = some (.error f) ∧ (scan other)[j]? = some (.error f')

/-- Tokens that stand in one place of some source. -/
def tokensIn (sources others : List String) : Token.Pairing where
  Pairs t t' := ∃ (i : Nat) (source other : String), sources[i]? = some source ∧
    others[i]? = some other ∧ (tokensAt source other).Pairs t t'
  kind_eq := fun ⟨_, _, _, _, _, h⟩ => h.1.kind
  lexeme_eq := fun ⟨_, _, _, _, _, h⟩ => h.1.lexeme

private theorem forall₂_inPlace {α β : Type} {P : α → β → Prop} {as : List α} {bs : List β}
    (h : List.Forall₂ P as bs) :
    List.Forall₂ (fun a b => P a b ∧ ∃ j : Nat, as[j]? = some a ∧ bs[j]? = some b) as bs := by
  induction h with
  | nil => exact .nil
  | cons hab _ ih =>
      exact .cons ⟨hab, 0, rfl, rfl⟩ (ih.imp fun _ _ ⟨hP, j, ha, hb⟩ => ⟨hP, j + 1, ha, hb⟩)

variable {source other : String} {sources others : List String}

private theorem SameButLines.inPlace (h : SameButLines source other) :
    List.Forall₂ (Item.Related (tokensAt source other).Pairs (FaultsAt source other))
      (scan source) (scan other) :=
  (forall₂_inPlace h).imp fun _ _ ⟨hitem, j, ha, hb⟩ => by
    cases hitem with
    | token h => exact .token ⟨h, j, ha, hb⟩
    | fault h => exact .fault ⟨h, j, ha, hb⟩

/-! ### Reports on other lines -/

/-- Reports of one kind with one message, each on the line of an item in its source, and both items
in one place: an item of these two sources, or of one of these lists for a running program. -/
inductive Diagnostic.SameButLine (sources others : List String) (source other : String) :
    Diagnostic → Diagnostic → Prop where
  | lexical {f f' : LexicalFault} (h : FaultsAt source other f f') :
      SameButLine sources others source other f.diagnostic f'.diagnostic
  | syntactic {t t' : Token} (h : (tokensAt source other).Pairs t t') (message : String) :
      SameButLine sources others source other (.syntactic t message) (.syntactic t' message)
  | runtime {t t' : Token} (h : (tokensIn sources others).Pairs t t') (message : String) :
      SameButLine sources others source other (.runtime t message) (.runtime t' message)
  | io (message : String) : SameButLine sources others source other (.io message) (.io message)

/-- Runs that nobody can tell apart but by the lines they report. -/
structure SameStep (sources others : List String) (source other : String)
    (step step' : RunResult × Machine) : Prop where
  /-- They print the same. -/
  output : step.2.output = step'.2.output
  /-- A program that ran them would exit with the same code. -/
  exitCode : step.1.exitCode = step'.1.exitCode
  /-- They report as much, in the same order and in the same words. -/
  diagnostics : List.Forall₂ (Diagnostic.SameButLine sources others source other)
    step.1.diagnostics step'.1.diagnostics

theorem RunResult.Matches.diagnostics {r r' : RunResult}
    (h : r.Matches (FaultsAt source other) (tokensAt source other) (tokensIn sources others) r') :
    r.exitCode = r'.exitCode ∧
      List.Forall₂ (Diagnostic.SameButLine sources others source other) r.diagnostics
        r'.diagnostics := by
  cases h with
  | finished => exact ⟨rfl, .nil⟩
  | rejected hlexical hsyntactic =>
      refine ⟨rfl, List.rel_append ?_ ?_⟩
      · rw [List.forall₂_map_left_iff, List.forall₂_map_right_iff]
        exact hlexical.imp fun _ _ h => .lexical h
      · rw [List.forall₂_map_left_iff, List.forall₂_map_right_iff]
        refine hsyntactic.imp fun f f' h => ?_
        rw [SyntaxFault.diagnostic, SyntaxFault.diagnostic, h.cause]
        exact .syntactic h.token _
  | stopped hfault =>
      refine ⟨rfl, .cons ?_ .nil⟩
      cases hfault with
      | raised htoken _ => exact .runtime htoken _
      | outputFull => exact .io _

/-! ### Sessions

A step may stop in a function of any earlier source, so one pairing has to do for all
the steps of a session.  What is said of a single step names fewer tokens: the session
is cut off behind it, and then the pairing is that of the sources up to there.
-/

namespace Machine

variable {m m' : Machine} {steps steps' : List (RunResult × Machine)}

theorem Session.take (h : Session m sources steps) (k : Nat) :
    Session m (sources.take k) (steps.take k) := by
  induction h generalizing k with
  | nil => rw [List.take_nil, List.take_nil]; exact .nil
  | cons hrun _ ih =>
      cases k with
      | zero => exact .nil
      | succ k => exact .cons hrun (ih k)

theorem Session.length_eq (h : Session m sources steps) : steps.length = sources.length := by
  induction h with
  | nil => rfl
  | cons _ _ ih => rw [List.length_cons, List.length_cons, ih]

theorem Session.unique (h : Session m sources steps) (h' : Session m sources steps') :
    steps = steps' := by
  induction h generalizing steps' with
  | nil => cases h'; rfl
  | cons hrun _ ih =>
      cases h' with
      | cons hrun' hmore' =>
          obtain ⟨rfl, rfl⟩ := hrun.unique hrun'
          rw [ih hmore']

/-- Two sessions on machines that match go on matching step by step. -/
theorem Session.matches {R : Token.Pairing} (hm : m.Matches R m')
    (hsources : List.Forall₂ SameButLines sources others)
    (hR : ∀ (i : Nat) (source other : String), sources[i]? = some source → others[i]? = some other →
      ∀ t t', (tokensAt source other).Pairs t t' → R.Pairs t t')
    (h : Session m sources steps) :
    ∃ steps', Session m' others steps' ∧
      ∀ (i : Nat) (source other : String) (step step' : RunResult × Machine),
        sources[i]? = some source → others[i]? = some other → steps[i]? = some step →
        steps'[i]? = some step' → step.2.Matches R step'.2 ∧
          step.1.Matches (FaultsAt source other) (tokensAt source other) R step'.1 := by
  induction h generalizing m' others with
  | nil =>
      cases hsources
      exact ⟨[], .nil, fun _ _ _ _ _ _ _ hstep => nomatch hstep⟩
  | @cons m m₁ source sources r steps hrun _ ih =>
      cases hsources with
      | @cons _ other _ others hsource hmore =>
          have hplace := hsource.inPlace
          have htokens := Item.tokens_related hplace
          obtain ⟨r', m₁', hrun', hm₁, hr⟩ := hrun.matches hm (Item.faults_related hplace) htokens
            (htokens.imp (hR 0 source other rfl rfl))
          obtain ⟨steps', hsession, hsteps⟩ := ih hm₁ hmore fun i => hR (i + 1)
          refine ⟨(r', m₁') :: steps', .cons hrun' hsession, ?_⟩
          intro i source' other' step step' hs ho hstep hstep'
          cases i with
          | zero =>
              cases hs
              cases ho
              cases hstep
              cases hstep'
              exact ⟨hm₁, hr⟩
          | succ i => exact hsteps i source' other' step step' hs ho hstep hstep'

/-- **Layout does not matter.**  Where the items of two lists of sources differ in their lines only,
every session with one list has its counterpart with the other: each step prints the same, ends
in the same way, and makes the same reports, each on the line of its item. -/
theorem Session.same_but_lines {clock : Nat → Number} {room : Option Nat}
    (hsources : List.Forall₂ SameButLines sources others)
    (h : Session (start clock room) sources steps) :
    ∃ steps', Session (start clock room) others steps' ∧ steps'.length = steps.length ∧
      ∀ (i : Nat) (source other : String) (step step' : RunResult × Machine),
        sources[i]? = some source → others[i]? = some other → steps[i]? = some step →
        steps'[i]? = some step' →
        SameStep (sources.take (i + 1)) (others.take (i + 1)) source other step step' := by
  have hpairs : ∀ (sources others : List String) (i : Nat) (source other : String),
      sources[i]? = some source → others[i]? = some other →
      ∀ t t', (tokensAt source other).Pairs t t' → (tokensIn sources others).Pairs t t' :=
    fun _ _ i source other hs ho _ _ h => ⟨i, source, other, hs, ho, h⟩
  obtain ⟨steps', hsession, -⟩ := h.matches (.start clock room) hsources (hpairs sources others)
  refine ⟨steps', hsession, ?_, fun i source other step step' hs ho hstep hstep' => ?_⟩
  · rw [hsession.length_eq, h.length_eq, hsources.length_eq]
  · -- The session up to this step, with the tokens of the sources up to it.
    obtain ⟨first, hfirst, hsteps⟩ := (h.take (i + 1)).matches (.start clock room)
      (List.forall₂_take (i + 1) hsources) (hpairs (sources.take (i + 1)) (others.take (i + 1)))
    obtain rfl := hfirst.unique (hsession.take (i + 1))
    have hlast : ∀ {α : Type} (as : List α), (as.take (i + 1))[i]? = as[i]? := fun as =>
      List.getElem?_take_of_lt (Nat.lt_succ_self i)
    obtain ⟨hm, hr⟩ := hsteps i source other step step' (by rw [hlast, hs]) (by rw [hlast, ho])
      (by rw [hlast, hstep]) (by rw [hlast, hstep'])
    exact ⟨hm.output.symm, hr.diagnostics.1, hr.diagnostics.2⟩

/-- A function that negates `nil`, and a call of it. -/
def negation : List String := ["fun f() \x7b return -nil; \x7d", "f();"]

/-- The same on more lines. -/
def spreadNegation : List String :=
  ["fun f()\n\x7b\n  return // nothing\n    -nil;\n\x7d", "\nf ( ) ;"]

/-- The call stops at the operator wherever that is. -/
theorem Session.same_but_lines_negation :
    List.Forall₂ SameButLines negation spreadNegation ∧
      ∃ m₁ m₂, Session (start (fun _ => default) none) negation
          [(.finished, m₁), (.stopped (.raised ⟨.symbol .minus, "-", 1⟩ .operandNotNumber), m₂)] ∧
        ∃ steps', Session (start (fun _ => default) none) spreadNegation steps' ∧
          ∀ step', steps'[1]? = some step' →
            SameStep negation spreadNegation "f();" "\nf ( ) ;"
              (.stopped (.raised ⟨.symbol .minus, "-", 1⟩ .operandNotNumber), m₂) step' := by
  have hsources : List.Forall₂ SameButLines negation spreadNegation := by decide +kernel
  have hdeclared : (start (fun _ => default) none).Runs "fun f() \x7b return -nil; \x7d" .finished _ :=
    runs_of_fst 9 (by decide +kernel) nofun
  have hcalled : ((start (fun _ => default) none).run 9 "fun f() \x7b return -nil; \x7d").2.Runs
      "f();" (.stopped (.raised ⟨.symbol .minus, "-", 1⟩ .operandNotNumber)) _ :=
    runs_of_fst 9 (by decide +kernel) nofun
  have hsession := Session.cons hdeclared (.cons hcalled .nil)
  obtain ⟨steps', hsession', -, hsteps⟩ := hsession.same_but_lines hsources
  exact ⟨hsources, _, _, hsession, steps', hsession', fun step' => hsteps 1 _ _ _ step' rfl rfl rfl⟩

end Machine

end Lox
