/-
Scanning, from the text to the items.

A text splits into segments that each begin what is left of it.  There is one way
to do that, and it loses nothing.  Every segment but layout then gives one item, on
the line where the segment ends, and the end mark comes last.
-/
import Lox.Token.Scan
import Lox.Proofs.Token.Lexis

namespace Lox

namespace Segment

/-! ### Splitting

That `split` gives one way is shown for texts up to a length, since a segment may be any
number of characters.  That there is no other goes along the other way itself, in which
each segment is the one that would have been cut off.
-/

/-- The text falls apart into these segments. -/
inductive Splits : List Char → List Segment → Prop where
  | nil : Splits [] []
  | cons {s : Segment} {ss : List Segment} {rest : List Char} (h : Begins (s.text ++ rest) s)
      (hrest : Splits rest ss) : Splits (s.text ++ rest) (s :: ss)

private theorem Begins.text_ne_nil {text : List Char} {s : Segment} (h : Begins text s) :
    s.text ≠ [] := by
  cases h with
  | @symbol s =>
      rcases s.text_cases with ⟨c, hc, -⟩ | ⟨c, _, hc, -⟩ <;> simp [hc]
  | number h =>
      obtain ⟨c, more, rfl, -⟩ := numberText_head h.holds
      exact List.cons_ne_nil c more
  | word h =>
      obtain ⟨hc, -⟩ := h.holds
      exact List.cons_ne_nil _ _
  | _ => exact List.cons_ne_nil _ _

theorem splits_split : ∀ (n : Nat) (text : List Char), text.length ≤ n →
    Splits text (split text) := by
  intro n
  induction n with
  | zero =>
      intro text hn
      rw [List.eq_nil_of_length_eq_zero (Nat.le_zero.mp hn)]
      exact .nil
  | succ n ih =>
      intro text hn
      cases text with
      | nil => exact .nil
      | cons first rest =>
          have hbegins := begins_next first rest
          have hshorter := next_length_le first rest
          rw [List.length_cons] at hn
          have hmore := ih (next first rest).2 (by omega)
          rw [← next_append first rest] at hbegins
          have hsplits := Splits.cons hbegins hmore
          rwa [next_append, ← split_cons] at hsplits

theorem Splits.eq_split {text : List Char} {ss : List Segment} (h : Splits text ss) :
    ss = split text := by
  induction h with
  | nil => rfl
  | @cons s ss rest hbegins hrest ih =>
      obtain ⟨first, more, htext⟩ : ∃ first more, s.text ++ rest = first :: more :=
        List.exists_cons_of_ne_nil (List.append_ne_nil_of_left_ne_nil hbegins.text_ne_nil rest)
      rw [htext] at hbegins ⊢
      have hs := eq_next_of_begins hbegins
      have hleft : (next first more).2 = rest := by
        have hwhole := next_append first more
        rw [← htext, ← hs] at hwhole
        exact List.append_cancel_left hwhole
      rw [split_cons, hleft, ← hs, ih]

/-- **A text splits in one way.** -/
theorem splits_iff {text : List Char} {ss : List Segment} :
    Splits text ss ↔ ss = split text := by
  constructor
  · exact Splits.eq_split
  · rintro rfl
    exact splits_split _ text (Nat.le_refl _)

/-! ### Items -/

/-- The segment separates others, and is nothing itself. -/
def IsLayoutSegment (s : Segment) : Prop := s.shape = .blank ∨ s.shape = .comment

/-- The item stands for the segment, which ends on this line. -/
inductive ItemOf (line : Nat) : Segment → Item → Prop where
  | symbol {s : Symbol} {w : List Char} :
      ItemOf line ⟨.symbol s, w⟩ (.ok ⟨.symbol s, String.ofList w, line⟩)
  | string {contents : List Char} :
      ItemOf line ⟨.string, '"' :: (contents ++ ['"'])⟩
        (.ok ⟨.string (String.ofList contents), String.ofList ('"' :: (contents ++ ['"'])), line⟩)
  | number {w : List Char} {d : Decimal} (h : Numeral w d) :
      ItemOf line ⟨.number, w⟩ (.ok ⟨.number (.ofDecimal d), String.ofList w, line⟩)
  | keyword {w : List Char} {k : Keyword} (h : k.text = String.ofList w) :
      ItemOf line ⟨.word, w⟩ (.ok ⟨.keyword k, String.ofList w, line⟩)
  | identifier {w : List Char} (h : ∀ k : Keyword, k.text ≠ String.ofList w) :
      ItemOf line ⟨.word, w⟩ (.ok ⟨.identifier, String.ofList w, line⟩)
  | unterminated {w : List Char} {fault : LexicalFault}
      (h : fault.diagnostic = .lexical line "Unterminated string.") :
      ItemOf line ⟨.unterminated, w⟩ (.error fault)
  | stray {w : List Char} {fault : LexicalFault}
      (h : fault.diagnostic = .lexical line "Unexpected character.") :
      ItemOf line ⟨.stray, w⟩ (.error fault)

/-- The line on which a text ends, if it starts on the first. -/
def lastLine (text : List Char) : Nat := 1 + text.count '\n'

/-- The items of segments that stand behind some text, one for each that is not layout. -/
inductive Yields : (before : List Char) → List Segment → List Item → Prop where
  | nil {before : List Char} : Yields before [] []
  | layout {before : List Char} {s : Segment} {ss : List Segment} {items : List Item}
      (hs : s.IsLayoutSegment) (hmore : Yields (before ++ s.text) ss items) :
      Yields before (s :: ss) items
  | item {before : List Char} {s : Segment} {ss : List Segment} {item : Item}
      {items : List Item} (hs : ¬ s.IsLayoutSegment)
      (hitem : ItemOf (lastLine (before ++ s.text)) s item)
      (hmore : Yields (before ++ s.text) ss items) : Yields before (s :: ss) (item :: items)

end Segment

theorem Keyword.ofText?_eq_some_iff {w : String} {k : Keyword} :
    ofText? w = some k ↔ k.text = w := by
  constructor
  · intro h
    simpa using List.find?_some h
  · rintro rfl
    cases k <;> rfl

theorem Keyword.ofText?_eq_none_iff {w : String} :
    ofText? w = none ↔ ∀ k : Keyword, k.text ≠ w := by
  rw [Option.eq_none_iff_forall_ne_some]
  exact forall_congr' fun k => not_congr ofText?_eq_some_iff

/-- The digits around a point are those of the decimal that is written. -/
theorem Segment.numberValue_of_numeral {w : List Char} {d : Decimal} (h : Numeral w d) :
    numberValue w = .ofDecimal d := by
  cases h with
  | whole hne hds =>
      have hpos : ∀ c ∈ w, c.isDigit = true := fun c hc => isDigit_iff.mpr (hds c hc)
      rw [numberValue, List.takeWhile_eq_self_iff.mpr hpos, List.dropWhile_eq_nil_iff.mpr hpos,
        List.drop_nil]
  | @fraction ds fs hne hds hfne hfs =>
      have hpos : ∀ c ∈ ds, c.isDigit = true := fun c hc => isDigit_iff.mpr (hds c hc)
      rw [numberValue, List.takeWhile_append_of_pos hpos, List.dropWhile_append_of_pos hpos,
        List.takeWhile_cons_of_neg (by decide), List.dropWhile_cons_of_neg (by decide),
        List.append_nil, List.drop_one, List.tail_cons]

namespace Segment

/-- A segment of a text gives nothing if it is layout, and else the item that stands for it. -/
theorem item?_of_begins {text : List Char} {s : Segment} (h : Begins text s) (line : Nat) :
    s.IsLayoutSegment ∧ s.item? line = none ∨
      ¬ s.IsLayoutSegment ∧ ∃ item, s.item? line = some item ∧ ItemOf line s item := by
  cases h with
  | blank => exact .inl ⟨.inl rfl, rfl⟩
  | comment => exact .inl ⟨.inr rfl, rfl⟩
  | symbol => exact .inr ⟨by simp [IsLayoutSegment], _, rfl, .symbol⟩
  | @string contents rest =>
      have hcontents : Segment.contents ('"' :: (contents ++ ['"'])) = contents := by
        rw [Segment.contents, List.drop_one, List.tail_cons, List.dropLast_concat]
      refine .inr ⟨by simp [IsLayoutSegment], _, rfl, ?_⟩
      rw [hcontents]
      exact .string
  | number h =>
      obtain ⟨d, hd⟩ := h.holds
      refine .inr ⟨by simp [IsLayoutSegment], _, rfl, ?_⟩
      rw [numberValue_of_numeral hd]
      exact .number hd
  | @word _ w h =>
      refine .inr ⟨by simp [IsLayoutSegment], _, rfl, ?_⟩
      cases hword : Keyword.ofText? (String.ofList w) with
      | none =>
          simp only [Token.Kind.ofWord, hword]
          exact .identifier (Keyword.ofText?_eq_none_iff.mp hword)
      | some k =>
          simp only [Token.Kind.ofWord, hword]
          exact .keyword (Keyword.ofText?_eq_some_iff.mp hword)
  | unterminated => exact .inr ⟨by simp [IsLayoutSegment], _, rfl, .unterminated rfl⟩
  | stray => exact .inr ⟨by simp [IsLayoutSegment], _, rfl, .stray rfl⟩

theorem lastLine_append (before text : List Char) :
    lastLine (before ++ text) = lastLine before + text.count '\n' := by
  simp [lastLine, Nat.add_assoc]

/-- The items of a text behind another, up to the end mark. -/
theorem Splits.yields {text : List Char} {ss : List Segment} (h : Splits text ss) :
    ∀ before : List Char, ∃ items, Yields before ss items ∧
      Segment.items (lastLine before) ss =
        items ++ [.ok (.endOfFile (lastLine (before ++ text)))] := by
  induction h with
  | nil => exact fun before => ⟨[], .nil, by rw [List.append_nil]; rfl⟩
  | @cons s ss rest hbegins hrest ih =>
      intro before
      obtain ⟨items, hyields, heq⟩ := ih (before ++ s.text)
      rw [List.append_assoc, lastLine_append] at heq
      rw [Segment.items, newlines, heq, ← lastLine_append]
      rcases item?_of_begins hbegins (lastLine (before ++ s.text)) with
        ⟨hlayout, hnone⟩ | ⟨htoken, item, hsome, hitem⟩
      · rw [hnone]
        exact ⟨items, .layout hlayout hyields, rfl⟩
      · rw [hsome]
        exact ⟨item :: items, .item htoken hitem hyields, rfl⟩

end Segment

/-! ### Sources -/

open Segment in
/-- **A source is cut by longest match, and nothing of it is lost.**  At every place one segment
begins; so the source splits in one way, and joined together the segments are the source.  They
are scanned to one item each, layout apart, with the end mark behind them on the last line. -/
theorem scan_eq_items_of_segments (source : String) :
    (∀ first rest, ∃ s, Begins (first :: rest) s ∧ ∀ t, Begins (first :: rest) t → t = s) ∧
    ∃ ss, Splits source.toList ss ∧ (∀ others, Splits source.toList others → others = ss) ∧
      ss.flatMap Segment.text = source.toList ∧
      ∃ items, Yields [] ss items ∧
        scan source = items ++ [.ok ⟨.endOfFile, "", lastLine source.toList⟩] := by
  refine ⟨fun first rest => ⟨_, begins_next first rest, fun t => eq_next_of_begins⟩, ?_⟩
  have hsplits : Splits source.toList (split source.toList) := splits_iff.mpr rfl
  obtain ⟨items, hyields, hitems⟩ := hsplits.yields []
  exact ⟨_, hsplits, fun others => splits_iff.mp, split_flatMap _, items, hyields, hitems⟩

end Lox
