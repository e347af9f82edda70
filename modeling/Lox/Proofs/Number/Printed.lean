/-
Printed numbers are source for the same numbers.

What is printed for a finite number is scanned as a minus sign, if it has one, and one
number.  These are the tokens of an expression, and its value is the number: negation
gives the sign back that the text has in front.  So what is printed can be printed
again.
-/
import Lox.Proofs.Grammar.Unparsing
import Lox.Proofs.Number.Reading
import Lox.Proofs.Output.Limited
import Lox.Proofs.Session.Joined
import Lox.Proofs.Token.Spelling

namespace Lox

/-! ### Cutting off symbols and numbers -/

namespace Segment

/-- A symbol that no `=` makes longer begins whatever stands behind it. -/
theorem begins_symbol {c : Char} {s : Symbol} (h : Symbol.ofChar? c = some s)
    (hplain : s.withEqual? = none) (hslash : c ≠ '/') (rest : List Char) :
    Begins (c :: rest) ⟨.symbol s, [c]⟩ := by
  have hcomment : ¬ ['/', '/'] <+: c :: rest :=
    fun hstart => hslash (List.cons_prefix_cons.mp hstart).1.symm
  have hbegins := begins_next c rest
  rw [next_symbol h hcomment] at hbegins
  unfold symbol at hbegins
  split at hbegins
  · rename_i hlonger
    rw [hplain] at hlonger
    cases hlonger
  · exact hbegins

/-- A number is cut off where neither a digit nor a point follows. -/
theorem begins_number {w rest : List Char} (hw : NumberText w)
    (hrest : ∀ c ∈ rest.head?, ¬ IsDigit c ∧ c ≠ '.') : Begins (w ++ rest) ⟨.number, w⟩ := by
  cases rest with
  | nil =>
      rw [List.append_nil]
      exact .number (.self hw)
  | cons c rest =>
      obtain ⟨hdigit, hpoint⟩ := hrest c rfl
      exact .number ((Longest.self hw).append_cons (fun v hv => hv.notMem hdigit hpoint) rest)

end Segment

/-! ### The segments and the tokens of a printed number -/

namespace Number

/-- What is printed for a number is cut into these. -/
def segments (n : Number) : List Segment :=
  (if n.isNegative then [⟨.symbol .minus, ['-']⟩] else []) ++ [⟨.number, n.magnitudeText⟩]

/-- And these are the tokens that it gives. -/
def tokens (n : Number) : List Token :=
  (if n.isNegative then [⟨.symbol .minus, "-", 1⟩] else []) ++
    [⟨.number (ofMagnitude n.magnitude), String.ofList n.magnitudeText, 1⟩]

variable {n : Number} {rest : List Char} {ss : List Segment}

private theorem splits_text (h : n.isFinite = true)
    (hrest : ∀ c ∈ rest.head?, ¬ IsDigit c ∧ c ≠ '.') (hmore : Segment.Splits rest ss) :
    Segment.Splits (n.text.toList ++ rest) (n.segments ++ ss) := by
  obtain ⟨d, hnumeral, -⟩ := exists_numeral h
  have hnumber : Segment.Splits (n.magnitudeText ++ rest) (⟨.number, n.magnitudeText⟩ :: ss) :=
    .cons (s := ⟨.number, n.magnitudeText⟩) (Segment.begins_number ⟨d, hnumeral⟩ hrest) hmore
  rw [toList_text h, segments]
  by_cases hsign : n.isNegative = true
  · rw [if_pos hsign, if_pos hsign]
    exact .cons (s := ⟨.symbol .minus, ['-']⟩)
      (Segment.begins_symbol rfl rfl (by decide) (n.magnitudeText ++ rest)) hnumber
  · rw [if_neg hsign, if_neg hsign]
    exact hnumber

private theorem items_segments (h : n.isFinite = true) (ss : List Segment) :
    Segment.items 1 (n.segments ++ ss) = n.tokens.map .ok ++ Segment.items 1 ss := by
  obtain ⟨d, hnumeral, hread⟩ := exists_numeral h
  have hnewline : '\n' ∉ n.magnitudeText :=
    NumberText.notMem ⟨d, hnumeral⟩ (by decide) (by decide)
  have hlines : Segment.newlines ⟨.number, n.magnitudeText⟩ = 0 :=
    List.count_eq_zero.mpr hnewline
  have hnumber : Segment.items 1 (⟨.number, n.magnitudeText⟩ :: ss) =
      .ok ⟨.number (ofMagnitude n.magnitude), String.ofList n.magnitudeText, 1⟩ ::
        Segment.items 1 ss := by
    rw [Segment.items, hlines, Segment.item?, Segment.kind?,
      Segment.numberValue_of_numeral hnumeral, hread]
    rfl
  rw [segments, tokens]
  by_cases hsign : n.isNegative = true
  · rw [if_pos hsign, if_pos hsign]
    show _ :: Segment.items 1 (⟨.number, n.magnitudeText⟩ :: ss) = _
    rw [hnumber]
    rfl
  · rw [if_neg hsign, if_neg hsign]
    exact hnumber

/-- What is printed for a finite number is scanned as its tokens. -/
theorem scan_text (h : n.isFinite = true) :
    scan n.text = n.tokens.map .ok ++ [.ok (.endOfFile 1)] := by
  have hsplits : Segment.Splits (n.text.toList ++ []) (n.segments ++ []) :=
    splits_text h (by simp) .nil
  rw [List.append_nil, List.append_nil] at hsplits
  have hitems := items_segments h []
  rw [List.append_nil] at hitems
  rw [scan, ← hsplits.eq_split, hitems]
  rfl

theorem scan_text_of_not_isNegative (h : n.isFinite = true) (hsign : n.isNegative = false) :
    scan n.text = [.ok ⟨.number n, n.text, 1⟩, .ok (.endOfFile 1)] := by
  have htext : String.ofList n.magnitudeText = n.text := by
    rw [← String.toList_inj, toList_text h, String.toList_ofList,
      if_neg (ne_true_of_eq_false hsign)]
  rw [scan_text h, tokens, if_neg (ne_true_of_eq_false hsign), ofMagnitude_magnitude hsign, htext]
  rfl

theorem scan_text_of_isNegative (h : n.isFinite = true) (hsign : n.isNegative = true) :
    ∃ digits, n.text = "-" ++ digits ∧
      scan n.text = [.ok ⟨.symbol .minus, "-", 1⟩,
        .ok ⟨.number (ofMagnitude n.magnitude), digits, 1⟩, .ok (.endOfFile 1)] := by
  refine ⟨String.ofList n.magnitudeText, ?_, ?_⟩
  · simp [← String.toList_inj, toList_text h, hsign]
  · rw [scan_text h, tokens, if_pos hsign]
    rfl

/-! ### Printing it again

The printed text of a negative number is not a literal but an operator in front of one.
It reads back all the same, as negation does no more than change the sign bit.
-/

end Number

private theorem tokens_map_ok (ts : List Token) : Item.tokens (ts.map .ok) = ts := by
  induction ts with
  | nil => rfl
  | cons t ts ih => exact congrArg _ ih

/-- Statements written with the tokens that a source is scanned into are those of the source. -/
theorem accepted_of_scan {source : String} {ts : List Token} {line : Nat} {ss : List Stmt}
    (hscan : scan source = ts.map .ok ++ [.ok (.endOfFile line)])
    (hwritten : (Clause.declarations false ss).Written ts) :
    Accepted source ∧ statementsOf source = ss := by
  have htokens := tokens_scan source
  rw [hscan, tokens_append, tokens_map_ok] at htokens
  have hts : ts = sourceTokens source := List.append_inj_left' htokens rfl
  refine accepted_of_written ?_ (hts ▸ hwritten)
  rw [hscan, faults_append, faults_map_ok]
  rfl

namespace Number

variable {n : Number}

/-- The program that prints what is printed for the number. -/
def printer (n : Number) : String := "print " ++ n.text ++ ";"

/-- The expression that a printed number is read as. -/
def expression (n : Number) : Expr :=
  if n.isNegative then
    .unary ⟨.symbol .minus, "-", 1⟩ (.literal (.number (ofMagnitude n.magnitude)))
  else .literal (.number (ofMagnitude n.magnitude))

/-- The tokens of this program. -/
def printerTokens (n : Number) : List Token :=
  ⟨.keyword .print_, "print", 1⟩ :: (n.tokens ++ [⟨.symbol .semicolon, ";", 1⟩])

private theorem scan_printer (h : n.isFinite = true) :
    scan n.printer = n.printerTokens.map .ok ++ [.ok (.endOfFile 1)] := by
  have hsemicolon : Segment.Splits [';'] [⟨.symbol .semicolon, [';']⟩] :=
    .cons (s := ⟨.symbol .semicolon, [';']⟩) (Segment.begins_symbol rfl rfl (by decide) []) .nil
  have hends : ∀ c ∈ [';'].head?, ¬ IsDigit c ∧ c ≠ '.' := by
    rintro _ ⟨⟩
    decide
  have hnumber : Segment.Splits (n.text.toList ++ [';'])
      (n.segments ++ [⟨.symbol .semicolon, [';']⟩]) := splits_text h hends hsemicolon
  have hblank : Segment.Splits (' ' :: (n.text.toList ++ [';']))
      (⟨.blank, [' ']⟩ :: (n.segments ++ [⟨.symbol .semicolon, [';']⟩])) :=
    .cons (s := ⟨.blank, [' ']⟩) (.blank (.inl rfl)) hnumber
  have hword : Segment.Begins ("print".toList ++ ' ' :: (n.text.toList ++ [';']))
      ⟨.word, "print".toList⟩ :=
    (Segment.Begins.word (.self (Keyword.wordText .print_))).append_layout (by decide) (.inl rfl)
      (by decide) _
  have hsplits : Segment.Splits n.printer.toList (⟨.word, "print".toList⟩ :: ⟨.blank, [' ']⟩ ::
      (n.segments ++ [⟨.symbol .semicolon, [';']⟩])) := by
    rw [printer, String.toList_append, String.toList_append, List.append_assoc]
    exact .cons (s := ⟨.word, "print".toList⟩) hword hblank
  have hitems : ∀ ss, Segment.items 1 (⟨.word, "print".toList⟩ :: ⟨.blank, [' ']⟩ :: ss) =
      .ok ⟨.keyword .print_, "print", 1⟩ :: Segment.items 1 ss := fun ss => rfl
  have hlast : Segment.items 1 [⟨.symbol .semicolon, [';']⟩] =
      [.ok ⟨.symbol .semicolon, ";", 1⟩, .ok (.endOfFile 1)] := rfl
  rw [scan, ← hsplits.eq_split, hitems, items_segments h, hlast, printerTokens, List.map_cons,
    List.map_append, List.cons_append, List.append_assoc]
  rfl

/-- The tokens of a printed number unparse its expression. -/
theorem unparses_tokens (n : Number) : Unparses n.expression.pieces n.tokens := by
  unfold expression tokens
  by_cases hsign : n.isNegative = true
  · rw [if_pos hsign, if_pos hsign]
    exact .cons rfl (.single rfl)
  · rw [if_neg hsign, if_neg hsign]
    exact .single rfl

private theorem shaped_expression (n : Number) : n.expression.Shaped := by
  unfold expression
  by_cases hsign : n.isNegative = true
  · rw [if_pos hsign]
    exact ⟨.inr rfl, trivial, show 7 ≤ 9 by decide⟩
  · rw [if_neg hsign]
    trivial

private theorem unparses_printerTokens (n : Number) :
    Unparses (Stmt.piecesList [.print n.expression]) n.printerTokens := by
  show Unparses (.keyword .print_ :: (n.expression.pieces ++ [.symbol .semicolon]) ++ []) _
  rw [List.append_nil]
  exact .cons rfl (.append n.unparses_tokens (.single rfl))

/-- The program prints one expression. -/
theorem statementsOf_printer (h : n.isFinite = true) :
    Accepted n.printer ∧ statementsOf n.printer = [.print n.expression] :=
  accepted_of_scan (scan_printer h)
    (Stmt.written_list false _ _ ⟨n.shaped_expression, trivial⟩ n.unparses_printerTokens)

private theorem evaluate_expression (n : Number) (fuel : Nat) (m : Machine) :
    Exec.evaluate (fuel + 2) n.expression m = .ok (.number n) m := by
  unfold expression
  cases hsign : n.isNegative with
  | false =>
      have hvalue := ofMagnitude_magnitude hsign
      simp only [hvalue]
      rfl
  | true =>
      have hvalue := neg_ofMagnitude_magnitude hsign
      show EStateM.Result.ok (Value.number (-ofMagnitude n.magnitude)) m = _
      rw [hvalue]

/-- With room for it, the number is printed as it was. -/
theorem runs_printer (h : n.isFinite = true) {m : Machine} (hroom : m.output.room = none) :
    m.Runs n.printer .finished (m.print (n.text ++ "\n")) := by
  obtain ⟨haccepted, hstatements⟩ := statementsOf_printer h
  have hemit : Exec.emit (n.text ++ "\n") m = .ok () (m.print (n.text ++ "\n")) := by
    rw [Exec.emit_apply, Output.write_unlimited hroom]
  have hexecute : Exec.execute 3 (.print n.expression) m =
      .ok .normal (m.print (n.text ++ "\n")) := by
    rw [Exec.execute]
    exact (Exec.bind_of_ok (n.evaluate_expression 0 m)).trans (Exec.bind_of_ok hemit)
  have hall : Exec.executeAll 4 [.print n.expression] m =
      .ok .normal (m.print (n.text ++ "\n")) := by
    rw [Exec.executeAll]
    exact Exec.bind_of_ok hexecute
  refine ⟨4, ?_, RunResult.noConfusion⟩
  rw [Machine.run_of_accepted haccepted, hstatements, Machine.interpret_eq, hall]

/-- **Printed numbers are source for the same numbers.**  The text that is printed for a finite
number is scanned as a number with the same bits, or, if it has a sign, as a minus sign and a
number with the same bits but this.  No other finite number is printed like that.  And a program
that prints this text prints the text, and does nothing else. -/
theorem text_reads_back (n : Number) (h : n.isFinite = true) :
    let t := (Value.number n).text
    (n.isNegative = false → scan t = [.ok ⟨.number n, t, 1⟩, .ok (.endOfFile 1)]) ∧
    (n.isNegative = true → ∃ digits, t = "-" ++ digits ∧ scan t =
      [.ok ⟨.symbol .minus, "-", 1⟩, .ok ⟨.number (ofMagnitude n.magnitude), digits, 1⟩,
        .ok (.endOfFile 1)]) ∧
    (∀ other, other.isFinite = true → (Value.number other).text = t → other = n) ∧
    ∀ m : Machine, m.output.room = none →
      m.Runs ("print " ++ t ++ ";") .finished (m.print (t ++ "\n")) ∧
        m.Printed (t ++ "\n").toUTF8 (m.print (t ++ "\n")) := by
  refine ⟨scan_text_of_not_isNegative h, scan_text_of_isNegative h,
    fun other hother htext => text_inj hother h htext, fun m hroom => ⟨runs_printer h hroom, ?_⟩⟩
  rw [Machine.Printed, Machine.print, Output.write_unlimited hroom]

/-- The number nearest to a tenth, with a sign. -/
def minusTenth : Number := ⟨0xbfb999999999999a⟩

/-- It is printed with one digit behind the point, and printed again by negating a tenth. -/
theorem text_reads_back_minusTenth :
    scan "-0.1" = [.ok ⟨.symbol .minus, "-", 1⟩, .ok ⟨.number ⟨0x3fb999999999999a⟩, "0.1", 1⟩,
        .ok (.endOfFile 1)] ∧
      (Machine.start (fun _ => default) none).Runs "print -0.1;" .finished
        ((Machine.start (fun _ => default) none).print "-0.1\n") := by
  have htext : (Value.number minusTenth).text = "-0.1" := by decide +kernel
  obtain ⟨-, hsigned, -, hruns⟩ := text_reads_back minusTenth (by decide +kernel)
  simp only [htext] at hsigned hruns
  obtain ⟨digits, hdigits, hscan⟩ := hsigned (by decide)
  have hsame : "0.1" = digits := (String.append_right_inj "-").mp hdigits
  have hbits : ofMagnitude minusTenth.magnitude = ⟨0x3fb999999999999a⟩ := by decide
  rw [← hsame, hbits] at hscan
  exact ⟨hscan, (hruns (.start (fun _ => default) none) rfl).1⟩

end Number

end Lox
