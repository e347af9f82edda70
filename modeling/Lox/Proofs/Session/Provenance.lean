/-
Every report points into a source.

A fault is reported with the token it lies at, and the token comes a long way: from the
scanner through the parser into a tree, and with the body of a function into later
steps.  No one on this way makes up a token.  The parser would, at the end of its list,
but a source's list ends with an end mark, and no parser goes past it.

To prove it nothing has to be followed once more.  Pair each token of a set with itself
and no other token with any: what then matches itself has only tokens of this set in
it, and that parsing and running preserve what matches is known.
-/
import Lox.Proofs.Session.Layout

namespace Lox

/-! ### Lines of a source

The line of an item is counted from the newlines in the segments up to it, and together
the segments are the text.  So it is a line that the text has.
-/

/-- The line on which an item ends. -/
def Item.line : Item → Nat
  | .ok token => token.line
  | .error fault => fault.line

namespace Segment

private theorem line_of_item? {s : Segment} {line : Nat} {item : Item}
    (h : s.item? line = some item) : item.line = line := by
  obtain ⟨kind, -, rfl⟩ := Option.map_eq_some_iff.mp h
  cases kind <;> rfl

/-- Items lie on the lines that their segments are on. -/
theorem line_of_mem_items {item : Item} : ∀ (ss : List Segment) (line : Nat),
    item ∈ items line ss →
      line ≤ item.line ∧ item.line ≤ line + (ss.flatMap Segment.text).count '\n' := by
  intro ss
  induction ss with
  | nil =>
      intro line hmem
      rw [items, List.mem_singleton] at hmem
      rw [hmem]
      exact ⟨Nat.le_refl _, Nat.le_refl _⟩
  | cons s ss ih =>
      intro line hmem
      rw [List.flatMap_cons, List.count_append]
      have hcount : s.newlines = s.text.count '\n' := rfl
      rcases List.mem_append.mp hmem with hmem | hmem
      · have hline := line_of_item? (Option.mem_toList.mp hmem)
        omega
      · have hlater := ih _ hmem
        omega

end Segment

variable {source : String} {item : Item} {token : Token}

private theorem line_of_mem_scan (h : item ∈ scan source) :
    1 ≤ item.line ∧ item.line ≤ 1 + source.toList.count '\n' := by
  have hline := Segment.line_of_mem_items _ _ h
  rwa [Segment.split_flatMap] at hline

/-- There is one end mark in a source. -/
theorem eq_endOfFile_of_mem_scan (h : .ok token ∈ scan source) (hend : token.isEnd = true) :
    token = .endOfFile (1 + source.toList.count '\n') := by
  rw [scan_eq, List.mem_append, List.mem_singleton] at h
  rcases h with hbody | hmark
  · rw [Segment.isEnd_of_mem_bodyItems _ _ hbody] at hend
    exact absurd hend Bool.false_ne_true
  · exact Except.ok.inj hmark

private theorem Item.mem_tokens {items : List Item} : token ∈ tokens items ↔ .ok token ∈ items := by
  constructor
  · intro h
    obtain ⟨item, hmem, htoken⟩ := List.mem_filterMap.mp h
    cases item with
    | ok t =>
        cases htoken
        exact hmem
    | error fault => cases htoken
  · exact fun h => List.mem_filterMap.mpr ⟨_, h, rfl⟩

private theorem Item.mem_of_mem_faults {items : List Item} {f : LexicalFault}
    (h : f ∈ faults items) : .error f ∈ items := by
  obtain ⟨item, hmem, hfault⟩ := List.mem_filterMap.mp h
  cases item with
  | ok t => cases hfault
  | error fault =>
      cases hfault
      exact hmem

/-- The end of a source reads differently from any token. -/
theorem Diagnostic.place_eq_iff : Diagnostic.place token = " at end" ↔ token.isEnd = true := by
  unfold place
  by_cases hend : token.isEnd = true
  · simp [hend]
  · rw [if_neg hend]
    refine ⟨fun h => absurd (congrArg (fun s => s.toList[4]?) h) ?_, fun h => absurd h hend⟩
    simp [String.toList_append]

/-! ### Tokens of a set

Where a token comes from is not followed through the parser and the evaluator here.  A
set of tokens is a pairing, in which each token of the set is its own counterpart and no
other has one; and what matches itself in this way holds tokens of the set only.
-/

/-- Each token of a set is its own counterpart, and no other token has one. -/
def Token.Pairing.among (S : Token → Prop) : Token.Pairing where
  Pairs t t' := t = t' ∧ S t
  kind_eq h := by rw [h.1]
  lexeme_eq h := by rw [h.1]

variable {S : Token → Prop}

private theorem among_pairs {ts : List Token} (h : ∀ t ∈ ts, S t) :
    List.Forall₂ (Token.Pairing.among S).Pairs ts ts :=
  List.forall₂_same.mpr fun t ht => ⟨rfl, h t ht⟩

/-- The parser reports faults at tokens of the source only. -/
theorem token_of_syntaxFault {f : SyntaxFault}
    (h : f ∈ (parse (Item.tokens (scan source))).faults) : .ok f.token ∈ scan source := by
  have hfaults := (parse_source_matches
    (among_pairs fun t (ht : t ∈ Item.tokens (scan source)) => Item.mem_tokens.mp ht)).2
  exact (List.forall₂_same.mp hfaults f h).token.2

namespace Machine

variable {m m₁ : Machine} {r : RunResult}

/-- A run of tokens of a set leaves only tokens of the set on the machine, and stops at one. -/
theorem Runs.among (hm : m.Matches (.among S) m)
    (hS : Accepted source → ∀ t, .ok t ∈ scan source → S t) (h : m.Runs source r m₁) :
    m₁.Matches (.among S) m₁ ∧ ∀ token cause, r = .stopped (.raised token cause) → S token := by
  by_cases haccepted : Accepted source
  · have hinterprets := (runs_of_accepted haccepted).mp h
    have htokens := among_pairs fun t ht => hS haccepted t (Item.mem_tokens.mp ht)
    obtain ⟨r', m₁', hother, hm₁, hr⟩ :=
      hinterprets.matches (L := Eq) (S := .identity) hm (parse_source_matches htokens).1
    obtain ⟨rfl, rfl⟩ := hinterprets.unique hother
    refine ⟨hm₁, fun token cause hstopped => ?_⟩
    rw [hstopped] at hr
    cases hr with
    | stopped hfault =>
        cases hfault with
        | raised htoken _ => exact htoken.2
  · obtain ⟨rfl, rfl⟩ := (runs_of_not_accepted haccepted).mp h
    exact ⟨hm, fun _ _ => RunResult.noConfusion⟩

variable {sources : List String} {steps : List (RunResult × Machine)}

/-- In a session every program stops at a token of the set, if all tokens that are run belong to
it. -/
theorem Session.among (h : Session m sources steps) (hm : m.Matches (.among S) m)
    (hS : ∀ source ∈ sources, Accepted source → ∀ t, .ok t ∈ scan source → S t) :
    ∀ step ∈ steps, ∀ token cause, step.1 = .stopped (.raised token cause) → S token := by
  induction h with
  | nil => exact fun step hmem => absurd hmem List.not_mem_nil
  | @cons m m₁ source sources r steps hrun _ ih =>
      obtain ⟨hsource, hmore⟩ := List.forall_mem_cons.mp hS
      obtain ⟨hm₁, hstopped⟩ := hrun.among hm hsource
      exact List.forall_mem_cons.mpr ⟨hstopped, ih hm₁ hmore⟩

/-- Each step of a session is a run of its source. -/
theorem Session.runs (h : Session m sources steps) : ∀ {i : Nat} {source : String}
    {step : RunResult × Machine}, sources[i]? = some source → steps[i]? = some step →
      ∃ before : Machine, before.Runs source step.1 step.2 := by
  induction h with
  | nil =>
      intro i source step hsource
      rw [List.getElem?_nil] at hsource
      cases hsource
  | @cons m m₁ first sources r steps hrun _ ih =>
      intro i source step hsource hstep
      cases i with
      | zero =>
          cases hsource
          cases hstep
          exact ⟨m, hrun⟩
      | succ i => exact ih hsource hstep

end Machine

/-! ### Reports -/

/-- The token a report names. -/
def Diagnostic.token? : Diagnostic → Option Token
  | syntactic token _ => some token
  | runtime token _ => some token
  | _ => none

/-- A report points into this source, or if it is a running program's, into one of these that was
run. -/
inductive Diagnostic.PointsInto (sources : List String) (source : String) : Diagnostic → Prop where
  | lexical {line : Nat} {message : String} (hfirst : 1 ≤ line)
      (hlast : line ≤ 1 + source.toList.count '\n') :
      PointsInto sources source (.lexical line message)
  | syntactic {token : Token} {message : String} (hscan : .ok token ∈ scan source)
      (hplace : place token = " at end" ↔ token = .endOfFile (1 + source.toList.count '\n')) :
      PointsInto sources source (.syntactic token message)
  | runtime {token : Token} {message : String} {earlier : String} (hearlier : earlier ∈ sources)
      (haccepted : Accepted earlier) (hscan : .ok token ∈ scan earlier) :
      PointsInto sources source (.runtime token message)
  | io (message : String) : PointsInto sources source (.io message)

namespace Diagnostic

variable {sources : List String} {d : Diagnostic}

/-- The parser's stand-in for a missing end mark is in no source. -/
theorem PointsInto.ne_missingEnd (h : d.PointsInto sources source) :
    d.token? ≠ some Parser.missingEnd := by
  have hline : ∀ {source token}, .ok token ∈ scan source → token ≠ Parser.missingEnd := by
    intro source token hscan heq
    have hfirst : 1 ≤ token.line := (line_of_mem_scan hscan).1
    rw [heq] at hfirst
    exact absurd hfirst (Nat.not_lt_zero 0)
  intro htoken
  cases h with
  | lexical | io => cases htoken
  | syntactic hscan => exact hline hscan (Option.some.inj htoken)
  | runtime _ _ hscan => exact hline hscan (Option.some.inj htoken)

theorem PointsInto.of_lexical {f : LexicalFault} (h : f ∈ Item.faults (scan source)) :
    f.diagnostic.PointsInto sources source := by
  have hline := line_of_mem_scan (Item.mem_of_mem_faults h)
  exact .lexical hline.1 hline.2

theorem PointsInto.of_syntactic {f : SyntaxFault}
    (h : f ∈ (parse (Item.tokens (scan source))).faults) :
    f.diagnostic.PointsInto sources source := by
  have hscan := token_of_syntaxFault h
  refine .syntactic hscan ?_
  rw [place_eq_iff]
  constructor
  · exact eq_endOfFile_of_mem_scan hscan
  · intro heq
    rw [heq]
    rfl

end Diagnostic

namespace Machine

variable {m m₁ : Machine} {r : RunResult} {sources : List String}
  {steps : List (RunResult × Machine)}

theorem Runs.pointsInto (h : m.Runs source r m₁)
    (hstopped : ∀ token cause, r = .stopped (.raised token cause) →
      ∃ earlier ∈ sources, Accepted earlier ∧ .ok token ∈ scan earlier) :
    ∀ d ∈ r.diagnostics, d.PointsInto sources source := by
  intro d hd
  cases r with
  | finished | unfinished => exact absurd hd List.not_mem_nil
  | stopped fault =>
      rw [RunResult.diagnostics, List.mem_singleton] at hd
      subst hd
      cases fault with
      | outputFull => exact .io _
      | raised token cause =>
          obtain ⟨earlier, hearlier, haccepted, hscan⟩ := hstopped token cause rfl
          exact .runtime hearlier haccepted hscan
  | rejected lexical syntactic =>
      have hrefused : ¬ Accepted source := by
        intro haccepted
        obtain ⟨_, hinterpret, -⟩ := (runs_of_accepted haccepted).mp h
        exact interpret_ne_rejected hinterpret
      cases ((runs_of_not_accepted hrefused).mp h).1
      rcases List.mem_append.mp hd with hd | hd
      · obtain ⟨f, hf, rfl⟩ := List.mem_map.mp hd
        exact .of_lexical hf
      · obtain ⟨f, hf, rfl⟩ := List.mem_map.mp hd
        exact .of_syntactic hf

/-- **Every report of a session points into the source it comes from.**  A lexical one is on a line
of the step's source, a syntactic one at a token of it, which reads as the end where it is the end
mark, and a runtime one at a token of the sources that were run so far.  None is at the parser's
stand-in for an end mark. -/
theorem Session.reports_point_into_sources {clock : Nat → Number} {room : Option Nat}
    (h : Session (start clock room) sources steps) {i : Nat} {source : String}
    {step : RunResult × Machine} (hsource : sources[i]? = some source)
    (hstep : steps[i]? = some step) :
    ∀ d ∈ step.1.diagnostics, d.PointsInto (sources.take (i + 1)) source ∧
      d.token? ≠ some Parser.missingEnd := by
  obtain ⟨before, hrun⟩ := h.runs hsource hstep
  -- The tokens that the steps up to this one have run.
  have hamong := (h.take (i + 1)).among (.start clock room)
    (S := fun t => ∃ earlier ∈ sources.take (i + 1), Accepted earlier ∧ .ok t ∈ scan earlier)
    fun earlier hearlier haccepted t ht => ⟨earlier, hearlier, haccepted, ht⟩
  have hmem : step ∈ steps.take (i + 1) := by
    refine List.mem_of_getElem? (i := i) ?_
    rw [List.getElem?_take_of_lt (Nat.lt_succ_self i), hstep]
  intro d hd
  have hpoints := hrun.pointsInto (hamong step hmem) d hd
  exact ⟨hpoints, hpoints.ne_missingEnd⟩

/-- A function, a source that ends too early, and a call of the function. -/
def interruptedNegation : List String :=
  ["fun f() \x7b return -nil; \x7d", "print\n", "f();"]

/-- The second source is refused at its end mark, and the third stops in the first. -/
theorem Session.reports_point_into_sources_negation :
    ∃ step₁ step₂ step₃,
      Session (start (fun _ => default) none) interruptedNegation [step₁, step₂, step₃] ∧
        step₂.1.diagnostics = [.syntactic (.endOfFile 2) "Expect expression."] ∧
        step₃.1.diagnostics = [.runtime ⟨.symbol .minus, "-", 1⟩ "Operand must be a number."] ∧
        ∀ d ∈ step₃.1.diagnostics, d.PointsInto interruptedNegation "f();" := by
  have hdeclared : (start (fun _ => default) none).Runs "fun f() \x7b return -nil; \x7d"
      .finished _ := runs_of_fst 9 (by decide +kernel) RunResult.noConfusion
  have hrefused : ((start (fun _ => default) none).run 9 "fun f() \x7b return -nil; \x7d").2.Runs
      "print\n" (.rejected [] [⟨.endOfFile 2, .noExpression⟩]) _ :=
    runs_of_fst 9 (by decide +kernel) RunResult.noConfusion
  have hcalled : (((start (fun _ => default) none).run 9
        "fun f() \x7b return -nil; \x7d").2.run 9 "print\n").2.Runs
      "f();" (.stopped (.raised ⟨.symbol .minus, "-", 1⟩ .operandNotNumber)) _ :=
    runs_of_fst 9 (by decide +kernel) RunResult.noConfusion
  have hsession : Session (start (fun _ => default) none) interruptedNegation _ :=
    .cons hdeclared (.cons hrefused (.cons hcalled .nil))
  exact ⟨_, _, _, hsession, rfl, rfl, fun d hd =>
    (hsession.reports_point_into_sources (i := 2) rfl rfl d hd).1⟩

end Machine

end Lox
