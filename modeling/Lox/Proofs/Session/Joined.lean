/-
A session over many sources is a run of their concatenation.

Both sides run the same statements and differ in the lines these are said to stand
on, which no step looks at.  To say how the outcomes differ one has to know from
which source a token comes, and that a line alone cannot tell.  So there is a third
run beside the two, of the same statements, in which every line says both: the
number of the source, and the line in it.  The session's outcome and that of the
joined sources are this one with its lines read in two ways.
-/
import Mathlib.Data.Nat.Pairing
import Lox.Proofs.Grammar.Unparsing
import Lox.Proofs.Lines.Evaluation
import Lox.Proofs.Session.Printing
import Lox.Proofs.Session.Sequencing
import Lox.Proofs.Session.Source

namespace Lox

/-! ### Lines that tell the source

A pair of numbers is one number, so a line can hold the source and the line in it.
Functions that were on the machine before come from no source; their lines are numbered
with a zero, and both readings give these back as they were.
-/

/-- The number of the source a line is in, counted from one.  Zero is for what was on the machine
before. -/
def originOf (line : Nat) : Nat := line.unpair.1

/-- The line in its source. -/
def lineOf (line : Nat) : Nat := line.unpair.2

/-- How far the lines of this origin move when the sources are joined.  What was on the machine
before stays where it is. -/
def shift (sources : List String) : Nat → Nat
  | 0 => 0
  | i + 1 => offset sources i

/-- The line in the joined sources. -/
def lineIn (sources : List String) (line : Nat) : Nat :=
  lineOf line + shift sources (originOf line)

/-- The statements of sources, on lines that tell the source. -/
def numbered (sources : List String) : List (List Stmt) :=
  labelled (fun i => Nat.pair (i + 1)) sources

private theorem labelled_id (sources : List String) :
    labelled (fun _ => id) sources = sources.map statementsOf := by
  induction sources with
  | nil => rfl
  | cons source sources ih =>
      rw [labelled_cons, Stmt.relabelList_id, ih, List.map_cons]

private theorem numbered_lineOf (sources : List String) :
    (numbered sources).map (Stmt.relabelList lineOf) = sources.map statementsOf := by
  rw [numbered, labelled_relabel, ← labelled_id]
  congr 1
  funext i line
  simp [lineOf]

private theorem numbered_lineIn (sources : List String) :
    (numbered sources).map (Stmt.relabelList (lineIn sources)) =
      labelled (fun i => (· + offset sources i)) sources := by
  rw [numbered, labelled_relabel]
  congr 1
  funext i line
  simp [lineIn, shift, originOf, lineOf]

private theorem shaped_labelled {sources : List String} (h : ∀ source ∈ sources, Accepted source)
    (ρ : Nat → Nat → Nat) : ∀ p ∈ labelled ρ sources, Stmt.ShapedList false p := by
  induction sources generalizing ρ with
  | nil => exact fun _ hmem => nomatch hmem
  | cons source sources ih =>
      obtain ⟨hsource, hmore⟩ := List.forall_mem_cons.mp h
      rw [labelled_cons]
      exact List.forall_mem_cons.mpr
        ⟨(written_of_accepted hsource).relabel.isTree.1, ih hmore _⟩

/-! ### Outcomes with renamed lines -/

def RunResult.relabel (ρ : Nat → Nat) : RunResult → RunResult
  | stopped fault => stopped (fault.relabel ρ)
  | r => r

/-- Read in the joined sources, a result differs from what it is in a session by how far the
source moves that its token is from. -/
theorem RunResult.relabel_lineIn (sources : List String) (r : RunResult) :
    ∃ origin, r.relabel (lineIn sources) =
      (r.relabel lineOf).relabel (· + shift sources origin) := by
  cases r with
  | stopped fault =>
      cases fault with
      | raised token cause => exact ⟨originOf token.line, rfl⟩
      | outputFull => exact ⟨0, rfl⟩
  | _ => exact ⟨0, rfl⟩

namespace Machine

/-- Lines are not printed. -/
theorem printed_relabel {ρ : Nat → Nat} {m m' : Machine} {bytes : ByteArray} :
    m.Printed bytes (m'.relabel ρ) ↔ m.Printed bytes m' := Iff.rfl

theorem relabel_lineOf (m : Machine) : (m.relabel (Nat.pair 0)).relabel lineOf = m := by
  rw [relabel_relabel, show lineOf ∘ Nat.pair 0 = id from funext fun line => by simp [lineOf],
    relabel_id]

theorem relabel_lineIn (m : Machine) (sources : List String) :
    (m.relabel (Nat.pair 0)).relabel (lineIn sources) = m := by
  have h : lineIn sources ∘ Nat.pair 0 = id := by
    funext line
    simp [lineIn, shift, originOf, lineOf]
  rw [relabel_relabel, h, relabel_id]

theorem interpret_relabel (ρ : Nat → Nat) (m : Machine) (fuel : Nat) (program : List Stmt) :
    (m.relabel ρ).interpret fuel (Stmt.relabelList ρ program) =
      ((m.interpret fuel program).1.relabel ρ, (m.interpret fuel program).2.relabel ρ) := by
  have h := Exec.interpret_follows (ρ := ρ) fuel program m
  simp only [interpret, h]
  cases Exec.interpret fuel program m with
  | ok a m' => rfl
  | error stop m' => cases stop <;> rfl

/-- With renamed lines a program ends as it did, with renamed lines. -/
theorem interprets_relabel {ρ : Nat → Nat} {m : Machine} {program : List Stmt} {r : RunResult}
    {m' : Machine} :
    (m.relabel ρ).Interprets (Stmt.relabelList ρ program) r m' ↔
      ∃ r₀ m₀, m.Interprets program r₀ m₀ ∧ r = r₀.relabel ρ ∧ m' = m₀.relabel ρ := by
  constructor
  · rintro ⟨fuel, h, hr⟩
    rw [interpret_relabel, Prod.mk.injEq] at h
    refine ⟨(m.interpret fuel program).1, (m.interpret fuel program).2, ⟨fuel, rfl, ?_⟩,
      h.1.symm, h.2.symm⟩
    intro hunfinished
    rw [hunfinished] at h
    exact hr h.1.symm
  · rintro ⟨r₀, m₀, ⟨fuel, h, hr⟩, rfl, rfl⟩
    refine ⟨fuel, by rw [interpret_relabel, h], ?_⟩
    cases r₀ with
    | unfinished => exact absurd rfl hr
    | _ => exact nofun

/-! ### Sources -/

/-- Run on the machine, the source ends like this. -/
def Runs (m : Machine) (source : String) (r : RunResult) (m' : Machine) : Prop :=
  ∃ fuel, m.run fuel source = (r, m') ∧ r ≠ .unfinished

theorem run_of_accepted {source : String} (h : Accepted source) (m : Machine) (fuel : Nat) :
    m.run fuel source = m.interpret fuel (statementsOf source) := by
  simp only [run, statementsOf, h.1, h.2, List.isEmpty_nil, Bool.and_self, if_true]

/-- A source with static faults is refused, and leaves the machine as it was. -/
theorem run_of_not_accepted {source : String} (h : ¬ Accepted source) (m : Machine) (fuel : Nat) :
    m.run fuel source = (.rejected (Item.faults (scan source))
      (parse (Item.tokens (scan source))).faults, m) := by
  have hfaults : ((Item.faults (scan source)).isEmpty &&
      (parse (Item.tokens (scan source))).faults.isEmpty) = false := by
    rw [← Bool.not_eq_true, Bool.and_eq_true, List.isEmpty_iff, List.isEmpty_iff]
    exact h
  simp only [run, hfaults, Bool.false_eq_true, if_false]

theorem runs_of_accepted {source : String} (h : Accepted source) {m : Machine} {r : RunResult}
    {m' : Machine} : m.Runs source r m' ↔ m.Interprets (statementsOf source) r m' := by
  simp only [Runs, Interprets, run_of_accepted h]

theorem runs_of_not_accepted {source : String} (h : ¬ Accepted source) {m : Machine}
    {r : RunResult} {m' : Machine} :
    m.Runs source r m' ↔ r = .rejected (Item.faults (scan source))
      (parse (Item.tokens (scan source))).faults ∧ m' = m := by
  simp only [Runs, run_of_not_accepted h, Prod.mk.injEq]
  constructor
  · rintro ⟨_, ⟨hr, hm⟩, -⟩
    exact ⟨hr.symm, hm.symm⟩
  · rintro ⟨rfl, rfl⟩
    exact ⟨0, ⟨rfl, rfl⟩, nofun⟩

/-! ### Sessions

A session goes on behind a source that stops at a fault, and the joined sources do not.
So what is compared is the session up to there, without the sources that are refused:
one of them would have the whole joined text refused.
-/

/-- Sources run one after the other: how each ended, and the machine it left. -/
inductive Session : Machine → List String → List (RunResult × Machine) → Prop where
  | nil {m : Machine} : Session m [] []
  | cons {m m₁ : Machine} {source : String} {sources : List String} {r : RunResult}
      {steps : List (RunResult × Machine)} (h : m.Runs source r m₁)
      (hmore : Session m₁ sources steps) : Session m (source :: sources) ((r, m₁) :: steps)

/-- Sources run one after the other up to the first that stops at a fault: what each of them
wrote, how the last of them ended, or that all went well, and the machine that is left. -/
inductive UntilStop : Machine → List String → List ByteArray → RunResult → Machine → Prop where
  | nil {m : Machine} : UntilStop m [] [] .finished m
  | next {m m₁ m' : Machine} {source : String} {sources : List String} {bytes : ByteArray}
      {outputs : List ByteArray} {r r' : RunResult} (h : m.Runs source r m₁)
      (hgoesOn : ∀ fault, r ≠ .stopped fault) (hprinted : m.Printed bytes m₁)
      (hmore : UntilStop m₁ sources outputs r' m') :
      UntilStop m (source :: sources) (bytes :: outputs) r' m'
  | stop {m m' : Machine} {source : String} {sources : List String} {bytes : ByteArray}
      {fault : RuntimeFault} (h : m.Runs source (.stopped fault) m')
      (hprinted : m.Printed bytes m') :
      UntilStop m (source :: sources) [bytes] (.stopped fault) m'

theorem Runs.printed {m : Machine} {source : String} {r : RunResult} {m' : Machine}
    (h : m.Runs source r m') : ∃ bytes, m.Printed bytes m' := by
  obtain ⟨fuel, hrun, -⟩ := h
  obtain ⟨bytes, hbytes⟩ := m.run_prints fuel source
  rw [hrun] at hbytes
  exact ⟨bytes, hbytes⟩

/-- All that was written, in one piece. -/
def together (outputs : List ByteArray) : ByteArray := outputs.foldr (· ++ ·) .empty

/-- The output of the sources is what each wrote, one after the other. -/
theorem UntilStop.printed {m : Machine} {sources : List String} {outputs : List ByteArray}
    {r : RunResult} {m' : Machine} (h : UntilStop m sources outputs r m') :
    m.Printed (together outputs) m' := by
  induction h with
  | nil => exact printed_nothing _
  | next _ _ hprinted _ ih => exact hprinted.trans ih
  | @stop m m' _ _ bytes _ _ hprinted =>
      rw [together, List.foldr_cons, List.foldr_nil, ByteArray.append_empty]
      exact hprinted

/-- Leaving out a refused source changes nothing for the others. -/
theorem session_without {source : String} (h : ¬ Accepted source) {after : List String}
    {last : List (RunResult × Machine)} : ∀ {before : List String} {m : Machine}
    {first : List (RunResult × Machine)}, first.length = before.length →
      ((∃ step, Session m (before ++ source :: after) (first ++ step :: last)) ↔
        Session m (before ++ after) (first ++ last)) := by
  intro before
  induction before with
  | nil =>
      intro m first hlength
      rw [List.eq_nil_of_length_eq_zero hlength]
      constructor
      · rintro ⟨_, hsession⟩
        cases hsession with
        | cons hrun hmore =>
            obtain ⟨-, rfl⟩ := (runs_of_not_accepted h).mp hrun
            exact hmore
      · intro hsession
        exact ⟨_, .cons ((runs_of_not_accepted h).mpr ⟨rfl, rfl⟩) hsession⟩
  | cons other before ih =>
      intro m first hlength
      cases first with
      | nil => exact nomatch hlength
      | cons step first =>
          have hshorter := Nat.succ.inj hlength
          constructor
          · rintro ⟨_, hsession⟩
            cases hsession with
            | cons hrun hmore => exact .cons hrun ((ih hshorter).mp ⟨_, hmore⟩)
          · intro hsession
            cases hsession with
            | cons hrun hmore =>
                obtain ⟨step, hmore⟩ := (ih hshorter).mpr hmore
                exact ⟨step, .cons hrun hmore⟩

/-- The sources that are refused left out, the programs of the others are run in turn. -/
theorem untilStop_iff {sources : List String} : ∀ {m : Machine} {r : RunResult} {m' : Machine},
    (∃ outputs, UntilStop m sources outputs r m') ↔
      InTurn m ((sources.filter Accepted).map statementsOf) r m' := by
  induction sources with
  | nil =>
      intro m r m'
      constructor
      · rintro ⟨_, ⟨⟩⟩
        exact .nil
      · rintro ⟨⟩
        exact ⟨[], .nil⟩
  | cons source sources ih =>
      intro m r m'
      by_cases h : Accepted source
      · rw [List.filter_cons_of_pos (by simpa using h), List.map_cons]
        constructor
        · rintro ⟨_, huntil⟩
          cases huntil with
          | @next _ _ _ _ _ _ _ r₁ _ hrun hgoesOn _ hmore =>
              have hinterprets := (runs_of_accepted h).mp hrun
              cases r₁ with
              | finished => exact .next hinterprets (ih.mp ⟨_, hmore⟩)
              | rejected lexical syntactic =>
                  obtain ⟨_, hinterpret, -⟩ := hinterprets
                  exact absurd hinterpret interpret_ne_rejected
              | stopped fault => exact absurd rfl (hgoesOn fault)
              | unfinished =>
                  obtain ⟨_, -, hfinished⟩ := hinterprets
                  exact absurd rfl hfinished
          | stop hrun => exact .stop ((runs_of_accepted h).mp hrun)
        · intro hturn
          cases hturn with
          | next hp hps =>
              have hrun := (runs_of_accepted h).mpr hp
              obtain ⟨bytes, hprinted⟩ := hrun.printed
              obtain ⟨outputs, hmore⟩ := ih.mpr hps
              exact ⟨bytes :: outputs, .next hrun (fun _ => nofun) hprinted hmore⟩
          | stop hp =>
              have hrun := (runs_of_accepted h).mpr hp
              obtain ⟨bytes, hprinted⟩ := hrun.printed
              exact ⟨[bytes], .stop hrun hprinted⟩
      · rw [List.filter_cons_of_neg (by simpa using h)]
        constructor
        · rintro ⟨_, huntil⟩
          cases huntil with
          | next hrun _ _ hmore =>
              obtain ⟨-, rfl⟩ := (runs_of_not_accepted h).mp hrun
              exact ih.mp ⟨_, hmore⟩
          | stop hrun => exact nomatch ((runs_of_not_accepted h).mp hrun).1
        · intro hturn
          have hrun : m.Runs source _ m := (runs_of_not_accepted h).mpr ⟨rfl, rfl⟩
          obtain ⟨outputs, hmore⟩ := ih.mpr hturn
          exact ⟨_, .next hrun (fun _ => nofun) m.printed_nothing hmore⟩

/-! ### The session and the joined sources

Neither side is turned into the other.  Each of them is read off the run on lines that
tell the source, and what the two readings of a line differ by is how far the source was
moved.
-/

private theorem accepted_of_mem_filter {sources : List String} {source : String}
    (h : source ∈ sources.filter Accepted) : Accepted source :=
  of_decide_eq_true (List.mem_filter.mp h).2

/-- An outcome on lines that tell the source is an outcome on the lines that are read off them. -/
theorem interprets_iff_numbered {σ : Nat → Nat} {m : Machine} {sources : List String}
    (h : ∀ source ∈ sources, Accepted source) (hm : (m.relabel (Nat.pair 0)).relabel σ = m)
    {r : RunResult} {m' : Machine} :
    m.Interprets ((numbered sources).map (Stmt.relabelList σ)).flatten r m' ↔
      ∃ r₀ m₀, InTurn (m.relabel (Nat.pair 0)) (numbered sources) r₀ m₀ ∧
        r = r₀.relabel σ ∧ m' = m₀.relabel σ := by
  have hturn : ∀ r₀ m₀, InTurn (m.relabel (Nat.pair 0)) (numbered sources) r₀ m₀ ↔
      (m.relabel (Nat.pair 0)).Interprets (numbered sources).flatten r₀ m₀ :=
    fun _ _ => inTurn_iff (shaped_labelled h _)
  rw [← relabelList_flatten]
  conv => lhs; rw [← hm]
  rw [interprets_relabel]
  simp only [hturn]

/-- The outcome of a session, read off the run on lines that tell the source. -/
theorem untilStop_iff_numbered {m : Machine} {sources : List String} {r : RunResult}
    {m' : Machine} :
    (∃ outputs, UntilStop m sources outputs r m') ↔
      ∃ r₀ m₀, InTurn (m.relabel (Nat.pair 0)) (numbered (sources.filter Accepted)) r₀ m₀ ∧
        r = r₀.relabel lineOf ∧ m' = m₀.relabel lineOf := by
  have haccepted : ∀ source ∈ sources.filter Accepted, Accepted source :=
    fun _ => accepted_of_mem_filter
  have hshaped := shaped_labelled haccepted fun _ => id
  rw [labelled_id] at hshaped
  rw [untilStop_iff, inTurn_iff hshaped, ← numbered_lineOf]
  exact interprets_iff_numbered haccepted m.relabel_lineOf

/-- The outcome of the joined sources, read off the same run. -/
theorem runs_joined_iff_numbered {m : Machine} {sources : List String} {r : RunResult}
    {m' : Machine} (h : ∀ source ∈ sources, Accepted source) :
    m.Runs (joined sources) r m' ↔
      ∃ r₀ m₀, InTurn (m.relabel (Nat.pair 0)) (numbered sources) r₀ m₀ ∧
        r = r₀.relabel (lineIn sources) ∧ m' = m₀.relabel (lineIn sources) := by
  obtain ⟨haccepted, hstatements⟩ := accepted_joined h
  rw [runs_of_accepted haccepted, hstatements, ← numbered_lineIn]
  exact interprets_iff_numbered h (m.relabel_lineIn sources)

/-- **One session over many sources is one run of their concatenation.**  A refused source leaves
the machine as it was, and without it the other steps are the same.  The other sources, joined by
newlines, are not refused; run from the same machine they print what the steps print, one after
the other, up to the first that stops, and end as that step does.  The two outcomes are one and the
same but for the lines of tokens: `lineOf` reads the line in the source that a token is from, and
`lineIn` the line in the joined sources, which for what was on the machine before is no other. -/
theorem session_eq_run_joined (m : Machine) (sources : List String) :
    (∀ source, ¬ Accepted source →
      (∀ fuel, ∃ lexical syntactic, m.run fuel source = (.rejected lexical syntactic, m)) ∧
      ∀ before after first last, first.length = before.length →
        ((∃ step, m.Session (before ++ source :: after) (first ++ step :: last)) ↔
          m.Session (before ++ after) (first ++ last))) ∧
    Accepted (joined (sources.filter Accepted)) ∧
    (∀ outputs r₁ m₁, m.UntilStop sources outputs r₁ m₁ →
      ∃ r₂ m₂, m.Runs (joined (sources.filter Accepted)) r₂ m₂ ∧
        m.Printed (together outputs) m₂ ∧ m₂.output = m₁.output ∧
        ∃ origin, r₂ = r₁.relabel (· + shift (sources.filter Accepted) origin)) ∧
    (∀ r₁ m₁, (∃ outputs, m.UntilStop sources outputs r₁ m₁) ↔
      ∃ r₀ m₀, InTurn (m.relabel (Nat.pair 0)) (numbered (sources.filter Accepted)) r₀ m₀ ∧
        r₁ = r₀.relabel lineOf ∧ m₁ = m₀.relabel lineOf) ∧
    ∀ r₂ m₂, m.Runs (joined (sources.filter Accepted)) r₂ m₂ ↔
      ∃ r₀ m₀, InTurn (m.relabel (Nat.pair 0)) (numbered (sources.filter Accepted)) r₀ m₀ ∧
        r₂ = r₀.relabel (lineIn (sources.filter Accepted)) ∧
        m₂ = m₀.relabel (lineIn (sources.filter Accepted)) := by
  have haccepted : ∀ source ∈ sources.filter Accepted, Accepted source :=
    fun _ => accepted_of_mem_filter
  refine ⟨fun source h => ⟨fun fuel => ⟨_, _, run_of_not_accepted h m fuel⟩, ?_⟩,
    (accepted_joined haccepted).1, ?_, fun _ _ => untilStop_iff_numbered,
    fun _ _ => runs_joined_iff_numbered haccepted⟩
  · intro before after first last hlength
    exact session_without h hlength
  · intro outputs r₁ m₁ huntil
    have hprinted := huntil.printed
    obtain ⟨r₀, m₀, hturn, rfl, rfl⟩ := untilStop_iff_numbered.mp ⟨outputs, huntil⟩
    have hruns := (runs_joined_iff_numbered haccepted).mpr ⟨r₀, m₀, hturn, rfl, rfl⟩
    rw [printed_relabel] at hprinted
    exact ⟨_, _, hruns, printed_relabel.mpr hprinted, rfl, r₀.relabel_lineIn _⟩

end Machine

end Lox
