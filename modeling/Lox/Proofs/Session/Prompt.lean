/-
The prompt is a session.

The prompt cuts its input into lines, runs each on the machine that the one before
left, and shows the prompt in front of each and at the end.  So the machine of the
prompt is that of a session in which the lines are run, but for the prompts that are
written in between, and these make no difference to what a line does.

Two things end it: there are no more lines, or a line is no text.  A source that goes
on for ever ends nothing, but what the prompt writes up to there is still settled by the
steps before.
-/
import Lox.CommandLine
import Lox.Proofs.Output.Limited
import Lox.Proofs.Output.Written
import Lox.Proofs.Pairing.Sources

namespace Lox

/-! ### Runs without a limit

At the prompt the output has no limit.  So showing the prompt never fails, and what a
line prints is put behind it in full.
-/

namespace Machine

variable {m m' : Machine} {source : String} {r : RunResult}

theorem interpret_unlimited (h : m.output.room = none) (fuel : Nat) (program : List Stmt) :
    (m.interpret fuel program).2.output.room = none := by
  obtain ⟨bytes, hlimits⟩ := (Exec.limitsWithin fuel).executeAll program m h
  have hroom := hlimits.unlimited
  rwa [left_executeAll (r := (m.interpret fuel program).1) rfl] at hroom

/-- A run takes no room where it has no limit. -/
theorem run_unlimited (h : m.output.room = none) (fuel : Nat) (source : String) :
    (m.run fuel source).2.output.room = none := by
  by_cases haccepted : Accepted source
  · rw [run_of_accepted haccepted]
    exact interpret_unlimited h fuel _
  · rw [run_of_not_accepted haccepted]
    exact h

theorem run_of_le {n k : Nat} (le : n ≤ k) (h : m.run n source = (r, m')) (hr : r ≠ .unfinished) :
    m.run k source = (r, m') := by
  by_cases haccepted : Accepted source
  · rw [run_of_accepted haccepted] at h ⊢
    exact interpret_of_le le h hr
  · rw [run_of_not_accepted haccepted] at h ⊢
    exact h

/-- What was written by each of the steps that a machine goes through. -/
inductive Printing : Machine → List (RunResult × Machine) → List ByteArray → Prop where
  | nil {m : Machine} : Printing m [] []
  | cons {m m₁ : Machine} {r : RunResult} {steps : List (RunResult × Machine)} {bytes : ByteArray}
      {outputs : List ByteArray} (hprinted : m.Printed bytes m₁)
      (hmore : Printing m₁ steps outputs) : Printing m ((r, m₁) :: steps) (bytes :: outputs)

theorem Printing.unique {m : Machine} {steps : List (RunResult × Machine)}
    {outputs others : List ByteArray} (h : m.Printing steps outputs)
    (h' : m.Printing steps others) : outputs = others := by
  induction h generalizing others with
  | nil => cases h' with | nil => rfl
  | cons hprinted _ ih =>
      cases h' with
      | cons hprinted' hmore => rw [hprinted.unique hprinted', ih hmore]

theorem Session.printing {m : Machine} {sources : List String} {steps : List (RunResult × Machine)}
    (h : m.Session sources steps) : ∃ outputs, m.Printing steps outputs := by
  induction h with
  | nil => exact ⟨[], .nil⟩
  | cons hrun _ ih =>
      obtain ⟨bytes, hprinted⟩ := hrun.printed
      obtain ⟨outputs, hmore⟩ := ih
      exact ⟨bytes :: outputs, .cons hprinted hmore⟩

end Machine

namespace CommandLine

open Machine

/-! ### Lines -/

/-- These are the lines of an input: the pieces that end in a newline, and what is left behind the
last of them. -/
inductive Lines : List UInt8 → List (List UInt8) → Prop where
  | nil : Lines [] []
  | last {line : List UInt8} (hne : line ≠ []) (hline : 10 ∉ line) : Lines line [line]
  | cons {line rest : List UInt8} {more : List (List UInt8)} (hline : 10 ∉ line)
      (hmore : Lines rest more) : Lines (line ++ 10 :: rest) ((line ++ [10]) :: more)

theorem splitLines_append {line : List UInt8} (h : 10 ∉ line) (rest : List UInt8) :
    splitLines (line ++ 10 :: rest) = (line ++ [10]) :: splitLines rest := by
  induction line with
  | nil => simp [splitLines]
  | cons byte line ih =>
      rw [List.mem_cons, not_or] at h
      obtain ⟨hbyte, hline⟩ := h
      simp [splitLines, Ne.symm hbyte, ih hline]

theorem splitLines_of_not_mem {line : List UInt8} (hne : line ≠ []) (h : 10 ∉ line) :
    splitLines line = [line] := by
  induction line with
  | nil => exact absurd rfl hne
  | cons byte line ih =>
      rw [List.mem_cons, not_or] at h
      obtain ⟨hbyte, hline⟩ := h
      by_cases hnil : line = []
      · simp [splitLines, Ne.symm hbyte, hnil]
      · simp [splitLines, Ne.symm hbyte, ih hnil hline]

theorem lines_splitLines (bytes : List UInt8) : Lines bytes (splitLines bytes) := by
  induction bytes with
  | nil => exact .nil
  | cons byte rest ih =>
      by_cases hbyte : byte = 10
      · rw [splitLines, if_pos hbyte, hbyte]
        show Lines ([] ++ 10 :: rest) (([] ++ [10]) :: splitLines rest)
        exact .cons List.not_mem_nil ih
      · rw [splitLines, if_neg hbyte]
        generalize splitLines rest = more at ih
        cases ih with
        | nil => exact .last (by simp) (by simpa using Ne.symm hbyte)
        | last hne hline => exact .last (by simp) (by simpa [hline] using Ne.symm hbyte)
        | @cons line rest more hline hmore =>
            show Lines ((byte :: line) ++ 10 :: rest) (((byte :: line) ++ [10]) :: more)
            exact .cons (by simpa [hline] using Ne.symm hbyte) hmore

/-- The prompt's lines are the lines of its input. -/
theorem lines_iff {bytes : List UInt8} {found : List (List UInt8)} :
    Lines bytes found ↔ found = splitLines bytes := by
  constructor
  · intro h
    induction h with
    | nil => rfl
    | last hne hline => rw [splitLines_of_not_mem hne hline]
    | cons hline _ ih => rw [splitLines_append hline, ih]
  · rintro rfl
    exact lines_splitLines bytes

/-! ### Lines that are text

Lines are cut from bytes, before anyone knows if they are text.  Of every input the
lines up to the first that is no text are sources, and that line and those behind it are
the rest; either part may be empty.
-/

/-- The bytes of a source are read as the source. -/
theorem fromUTF8?_source (source : String) : String.fromUTF8? source.toUTF8 = some source :=
  dif_pos source.isValidUTF8

private theorem fromUTF8?_eq_none {bytes : ByteArray} (h : ¬ bytes.IsValidUTF8) :
    String.fromUTF8? bytes = none :=
  dif_neg h

theorem exists_toUTF8_of_isValidUTF8 {bytes : ByteArray} (h : bytes.IsValidUTF8) :
    ∃ s : String, s.toUTF8 = bytes :=
  ⟨⟨bytes, h⟩, rfl⟩

/-- The lines of an input are the `sources`, and behind them the `rest`, of which the first is no
text. -/
structure ReadAs (input : ByteArray) (sources : List String) (rest : List ByteArray) : Prop where
  /-- All the lines are there, in order and with their newlines. -/
  lines : ∃ found, Lines input.toList found ∧
    found.map List.toByteArray = sources.map String.toUTF8 ++ rest
  /-- The first that is not among the sources, if any, is no text. -/
  notText : ∀ line ∈ rest.head?, ¬ line.IsValidUTF8

/-- Among pieces of an input there is a first that is no text, or all are. -/
theorem exists_sources (pieces : List ByteArray) : ∃ (sources : List String)
    (rest : List ByteArray), pieces = sources.map String.toUTF8 ++ rest ∧
      ∀ line ∈ rest.head?, ¬ line.IsValidUTF8 := by
  induction pieces with
  | nil => exact ⟨[], [], rfl, by simp⟩
  | cons piece pieces ih =>
      by_cases hvalid : piece.IsValidUTF8
      · obtain ⟨source, rfl⟩ := exists_toUTF8_of_isValidUTF8 hvalid
        obtain ⟨sources, rest, rfl, hrest⟩ := ih
        exact ⟨source :: sources, rest, rfl, hrest⟩
      · exact ⟨[], piece :: pieces, rfl, by simpa using hvalid⟩

theorem exists_readAs (input : ByteArray) : ∃ sources rest, ReadAs input sources rest := by
  obtain ⟨sources, rest, heq, hrest⟩ :=
    exists_sources ((splitLines input.toList).map List.toByteArray)
  exact ⟨sources, rest, ⟨_, lines_splitLines _, heq⟩, hrest⟩

/-! ### What the prompt leaves

The machine of the prompt has the prompts among its output and that of the session has
not.  So the loop is compared with the session by what it has written so far: it goes on
as on the session's machine, put behind other bytes.
-/

/-- What is on the standard output before the prompt is shown once more: the prompt and behind it
what was printed, line by line. -/
def shown (outputs : List ByteArray) : ByteArray :=
  together (outputs.map (promptText.toUTF8 ++ ·))

/-- The reports of all steps, in order. -/
def reports (steps : List (RunResult × Machine)) : List String :=
  steps.flatMap fun step => step.1.diagnostics.map Diagnostic.text

private theorem lines_append (texts more : List String) :
    lines (texts ++ more) = lines texts ++ lines more := by
  rw [lines, lines, lines, List.map_append, String.join_append]

theorem shown_cons (bytes : ByteArray) (outputs : List ByteArray) :
    shown (bytes :: outputs) = promptText.toUTF8 ++ bytes ++ shown outputs := rfl

theorem lines_reports_cons (r : RunResult) (m : Machine) (steps : List (RunResult × Machine)) :
    lines (reports ((r, m) :: steps)) = report r ++ lines (reports steps) :=
  lines_append _ _

private theorem display_withWritten {m : Machine} (h : m.output.room = none) (before : ByteArray)
    (text : String) :
    display (m.withWritten before) text = m.withWritten (before ++ text.toUTF8) := by
  have hroom : (m.withWritten before).output.room = none := h
  rw [display, Output.write_unlimited hroom]
  obtain ⟨store, scope, functions, ⟨written, room⟩, clock, readings⟩ := m
  cases h
  rfl

private theorem written_display {m : Machine} (h : m.output.room = none) (text : String) :
    (display m text).output.written = m.output.written ++ text.toUTF8 := by
  rw [display, Output.write_unlimited h]

private theorem room_display {m : Machine} (h : m.output.room = none) (text : String) :
    (display m text).output.room = none := by
  rw [display, Output.write_unlimited h]

theorem answerLine_none (m : Machine) (fuel : Nat) : answerLine m fuel none = ⟨m, "", some 0⟩ := rfl

theorem answerLine_toUTF8 (m : Machine) (fuel : Nat) (source : String) :
    answerLine m fuel (some source.toUTF8) =
      ⟨(m.run fuel source).2, report (m.run fuel source).1, none⟩ := by
  simp only [answerLine, fromUTF8?_source]

theorem answerLine_of_not_valid (m : Machine) (fuel : Nat) {line : ByteArray}
    (h : ¬ line.IsValidUTF8) : answerLine m fuel (some line) =
      ⟨m, lines [ReadFault.invalidUTF8.message], some unreadableCode⟩ := by
  simp only [answerLine, fromUTF8?_eq_none h]

/-- The answer is the same whatever was written before.  So the program may write out what there is
after every line, and go on as if nothing had been written. -/
theorem answerLine_withWritten {m : Machine} {fuel : Nat} {line : Option ByteArray}
    {bytes : ByteArray} (hprinted : m.Printed bytes (answerLine m fuel line).machine)
    (before : ByteArray) : answerLine (m.withWritten before) fuel line =
      { answerLine m fuel line with
        machine := (answerLine m fuel line).machine.withWritten (before ++ bytes) } := by
  -- Where nothing is run, nothing was printed.
  have hidle (h : m.Printed bytes m) : m.withWritten before = m.withWritten (before ++ bytes) := by
    rw [h.unique m.printed_nothing, ByteArray.append_empty]
  cases line with
  | none => rw [answerLine_none, answerLine_none, ← hidle hprinted]
  | some line =>
      by_cases hvalid : line.IsValidUTF8
      · obtain ⟨source, rfl⟩ := exists_toUTF8_of_isValidUTF8 hvalid
        rw [answerLine_toUTF8] at hprinted ⊢
        have hrun : m.run fuel source = ((m.run fuel source).1, (m.run fuel source).2) := rfl
        rw [answerLine_toUTF8, run_withWritten hrun hprinted]
      · rw [answerLine_of_not_valid _ _ hvalid] at hprinted ⊢
        rw [answerLine_of_not_valid _ _ hvalid, ← hidle hprinted]

section Runs

variable {m : Machine}

/-- A line that is text: the prompt goes on with the other lines. -/
theorem runLines_cons (hroom : m.output.room = none) {fuel : Nat} {source : String}
    {r : RunResult} {m₁ : Machine} {bytes : ByteArray} (hrun : m.run fuel source = (r, m₁))
    (hprinted : m.Printed bytes m₁) (before : ByteArray) (errors : String) {line : List UInt8}
    (hline : line.toByteArray = source.toUTF8) (rest : List (List UInt8)) :
    runLines (m.withWritten before) fuel errors (line :: rest) =
      runLines (m₁.withWritten (before ++ (promptText.toUTF8 ++ bytes))) fuel
        (errors ++ report r) rest := by
  have hround : answerLine m fuel (some source.toUTF8) = ⟨m₁, report r, none⟩ := by
    rw [answerLine_toUTF8, hrun]
  have hround' := answerLine_withWritten (by rwa [hround]) (before ++ promptText.toUTF8)
  rw [hround, ByteArray.append_assoc] at hround'
  rw [runLines, hline, display_withWritten hroom, hround']
  rfl

/-- What is written goes on with what there was, however little fuel there is for the lines. -/
theorem runLines_extends (hroom : m.output.room = none) (fuel : Nat) (errors : String)
    (found : List (List UInt8)) : ∃ more moreErrors,
      (runLines m fuel errors found).output = m.output.written ++ promptText.toUTF8 ++ more ∧
        (runLines m fuel errors found).errors = errors ++ moreErrors := by
  induction found generalizing m errors with
  | nil =>
      rw [runLines, answerLine_none]
      refine ⟨.empty, "", ?_, rfl⟩
      rw [Round.transcript, written_display hroom, ByteArray.append_empty]
  | cons line rest ih =>
      rw [runLines, ← written_display hroom promptText]
      generalize hshown : display m promptText = m₁
      by_cases hvalid : line.toByteArray.IsValidUTF8
      · obtain ⟨source, hsource⟩ := exists_toUTF8_of_isValidUTF8 hvalid
        have hroom₁ : m₁.output.room = none := by rw [← hshown]; exact room_display hroom promptText
        obtain ⟨bytes, hprinted⟩ := m₁.run_prints fuel source
        obtain ⟨more, moreErrors, houtput, herrors⟩ :=
          ih (run_unlimited hroom₁ fuel source) (errors ++ report (m₁.run fuel source).1)
        rw [← hsource, answerLine_toUTF8]
        refine ⟨bytes ++ promptText.toUTF8 ++ more,
          report (m₁.run fuel source).1 ++ moreErrors, ?_, ?_⟩
        · show (runLines (m₁.run fuel source).2 fuel _ rest).output = _
          rw [houtput, hprinted, ByteArray.append_assoc, ByteArray.append_assoc,
            ByteArray.append_assoc]
        · show (runLines (m₁.run fuel source).2 fuel _ rest).errors = _
          rw [herrors, String.append_assoc]
      · rw [answerLine_of_not_valid _ _ hvalid]
        exact ⟨.empty, _, ByteArray.append_empty.symm, rfl⟩

/-- **The prompt goes on behind the steps of a session as on the machine that they leave**, and
has shown what they printed. -/
theorem runLines_session {m : Machine} {sources : List String} {steps : List (RunResult × Machine)}
    (hsession : m.Session sources steps) (hroom : m.output.room = none) {outputs : List ByteArray}
    (hprinting : m.Printing steps outputs) :
    ∃ (m' : Machine) (enough : Nat), m'.output.room = none ∧
      ∀ fuel ≥ enough, ∀ before errors first rest,
        first.map List.toByteArray = sources.map String.toUTF8 →
          runLines (m.withWritten before) fuel errors (first ++ rest) =
            runLines (m'.withWritten (before ++ shown outputs)) fuel
              (errors ++ lines (reports steps)) rest := by
  induction hsession generalizing outputs with
  | @nil m =>
      cases hprinting
      refine ⟨m, 0, hroom, fun fuel _ before errors first rest hfirst => ?_⟩
      rw [List.map_eq_nil_iff.mp hfirst]
      show _ = runLines (m.withWritten (before ++ .empty)) fuel (errors ++ "") rest
      rw [ByteArray.append_empty, String.append_empty, List.nil_append]
  | @cons m m₁ source sources r steps hrun _ ih =>
      cases hprinting with
      | @cons _ _ _ _ bytes outputs hprinted hprintings =>
          obtain ⟨n, hrun, hr⟩ := hrun
          have hroom₁ : m₁.output.room = none := by
            have hleft := run_unlimited hroom n source
            rwa [hrun] at hleft
          obtain ⟨m', enough, hroom', hmore⟩ := ih hroom₁ hprintings
          refine ⟨m', max n enough, hroom', fun fuel hfuel before errors first rest hfirst => ?_⟩
          obtain ⟨line, first, rfl, hline, hlines⟩ := List.map_eq_cons_iff.mp hfirst
          have hrun' := run_of_le (k := fuel) (by omega) hrun hr
          rw [List.cons_append, runLines_cons hroom hrun' hprinted before errors hline,
            hmore fuel (by omega) _ _ _ _ hlines]
          rw [shown_cons, lines_reports_cons, ← String.append_assoc, ByteArray.append_assoc]

end Runs

/-- The prompt on an input whose first lines are those of a session. -/
theorem runPrompt_session {m : Machine} (hempty : m.output = .empty none) {input : ByteArray}
    {found : List (List UInt8)} (hfound : Lines input.toList found) {sources : List String}
    {after : List ByteArray}
    (hsplit : found.map List.toByteArray = sources.map String.toUTF8 ++ after)
    {steps : List (RunResult × Machine)} (hsession : m.Session sources steps)
    {outputs : List ByteArray} (hprinting : m.Printing steps outputs) :
    ∃ (m' : Machine) (enough : Nat) (behind : List (List UInt8)), m'.output.room = none ∧
      behind.map List.toByteArray = after ∧ ∀ fuel ≥ enough, runPrompt m fuel input =
        runLines (m'.withWritten (shown outputs)) fuel (lines (reports steps)) behind := by
  obtain ⟨first, behind, rfl, hfirst, hbehind⟩ := List.map_eq_append_iff.mp hsplit
  have hroom : m.output.room = none := by rw [hempty]; rfl
  obtain ⟨m', enough, hroom', hmore⟩ := runLines_session hsession hroom hprinting
  refine ⟨m', enough, behind, hroom', hbehind, fun fuel hfuel => ?_⟩
  have hrest := hmore fuel hfuel .empty "" first behind hfirst
  have hsame : m.withWritten .empty = m := by
    rw [withWritten, hempty]
    show { m with output := .empty none } = m
    rw [← hempty]
  rw [hsame, ByteArray.empty_append, String.empty_append] at hrest
  rw [runPrompt, ← lines_iff.mp hfound, hrest]

/-- Behind the lines that are text the prompt is shown once more, and that is the end. -/
theorem runLines_rest {m : Machine} (hroom : m.output.room = none) (fuel : Nat)
    (before : ByteArray) (texts : List String) {found : List (List UInt8)}
    {rest : List ByteArray} (hfound : found.map List.toByteArray = rest)
    (hrest : ∀ line ∈ rest.head?, ¬ line.IsValidUTF8) :
    runLines (m.withWritten before) fuel (lines texts) found = {
      output := before ++ promptText.toUTF8
      errors := lines (texts ++ if rest = [] then [] else [ReadFault.invalidUTF8.message])
      exitCode := if rest = [] then 0 else unreadableCode } := by
  cases found with
  | nil =>
      subst hfound
      rw [runLines, display_withWritten hroom, answerLine_none, Round.transcript,
        String.append_empty, if_pos (by rfl), if_pos (by rfl), List.append_nil]
      rfl
  | cons line found =>
      subst hfound
      have hline : ¬ line.toByteArray.IsValidUTF8 := hrest _ rfl
      rw [runLines, display_withWritten hroom, answerLine_of_not_valid _ _ hline, List.map_cons,
        if_neg (List.cons_ne_nil _ _), if_neg (List.cons_ne_nil _ _), lines_append]
      rfl

/-- **The prompt is a session over the lines of its input.**  The lines up to the first that is no
text are run as the sources of one session.  What is printed by each has the prompt before it, and
the prompt is shown once more; the faults of all of them are reported, whatever they are.  Only a
line that is no text is a failure, and it comes behind all the lines before it.

If a line goes on for ever there are no steps for all the sources.  Then those of the lines before
it are what the output and the reports begin with. -/
theorem runPrompt_eq_session (clock : Nat → Number) (input : ByteArray) :
    (∃ sources rest, ReadAs input sources rest) ∧
    ∀ sources rest, ReadAs input sources rest →
      (∀ steps, (start clock none).Session sources steps →
        ∃ outputs, (start clock none).Printing steps outputs ∧
          ∃ enough, ∀ fuel ≥ enough, runPrompt (start clock none) fuel input = {
            output := shown outputs ++ promptText.toUTF8
            errors := lines (reports steps ++
              if rest = [] then [] else [ReadFault.invalidUTF8.message])
            exitCode := if rest = [] then 0 else 74 }) ∧
      ∀ first later steps, sources = first ++ later → (start clock none).Session first steps →
        ∃ outputs, (start clock none).Printing steps outputs ∧
          ∃ enough, ∀ fuel ≥ enough, ∃ more moreErrors,
            (runPrompt (start clock none) fuel input).output =
              shown outputs ++ promptText.toUTF8 ++ more ∧
            (runPrompt (start clock none) fuel input).errors =
              lines (reports steps) ++ moreErrors := by
  refine ⟨exists_readAs input, fun sources rest ⟨⟨found, hfound, hsplit⟩, hrest⟩ =>
    ⟨fun steps hsession => ?_, fun first later steps hsources hsession => ?_⟩⟩
  · obtain ⟨outputs, hprinting⟩ := hsession.printing
    obtain ⟨m', enough, behind, hroom, hbehind, hruns⟩ :=
      runPrompt_session rfl hfound hsplit hsession hprinting
    refine ⟨outputs, hprinting, enough, fun fuel hfuel => ?_⟩
    rw [hruns fuel hfuel]
    exact runLines_rest hroom fuel _ _ hbehind hrest
  · obtain ⟨outputs, hprinting⟩ := hsession.printing
    rw [hsources, List.map_append, List.append_assoc] at hsplit
    obtain ⟨m', enough, behind, hroom, -, hruns⟩ :=
      runPrompt_session rfl hfound hsplit hsession hprinting
    refine ⟨outputs, hprinting, enough, fun fuel hfuel => ?_⟩
    rw [hruns fuel hfuel]
    exact runLines_extends (m := m'.withWritten (shown outputs)) hroom fuel _ behind

/-- A line that prints, a line that goes wrong, and a line that is no text, with another behind
it. -/
def spoiltInput : ByteArray :=
  "print 1;\n-nil;\n".toUTF8 ++ [255, 10].toByteArray ++ "print 2;\n".toUTF8

/-- The prompt is shown for all three of them, and the last line is not run. -/
theorem runPrompt_eq_session_spoiltInput : ∃ enough, ∀ fuel ≥ enough,
    runPrompt (start (fun _ => default) none) fuel spoiltInput = {
      output := "> 1\n> > ".toUTF8
      errors := "Operand must be a number.\n[line 1]\n" ++
        "stream did not contain valid UTF-8\n"
      exitCode := 74 } := by
  have hread : ReadAs spoiltInput ["print 1;\n", "-nil;\n"]
      [[255, 10].toByteArray, "print 2;\n".toUTF8] :=
    ⟨⟨_, lines_splitLines _, by decide +kernel⟩, by decide +kernel⟩
  have hprints : (start (fun _ => default) none).Runs "print 1;\n" .finished _ :=
    runs_of_fst 9 (by decide +kernel) RunResult.noConfusion
  have hstops : ((start (fun _ => default) none).run 9 "print 1;\n").2.Runs "-nil;\n"
      (.stopped (.raised ⟨.symbol .minus, "-", 1⟩ .operandNotNumber)) _ :=
    runs_of_fst 9 (by decide +kernel) RunResult.noConfusion
  obtain ⟨outputs, hprinting, enough, h⟩ :=
    ((runPrompt_eq_session (fun _ => default) spoiltInput).2 _ _ hread).1 _
      (.cons hprints (.cons hstops .nil))
  have houtputs : outputs = ["1\n".toUTF8, .empty] := by
    refine hprinting.unique (.cons ?_ (.cons ?_ .nil))
    · show _ = _
      decide +kernel
    · show _ = _
      decide +kernel
  rw [houtputs] at h
  exact ⟨enough, h⟩

end CommandLine

end Lox
