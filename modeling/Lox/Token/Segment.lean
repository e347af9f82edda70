/-
Segments: how a source text falls apart.

The text is cut from the front into the longest pieces of each shape: blanks one
character at a time, comments, symbols, strings, numbers, words, and what is none
of these.  Nothing is dropped at this stage, so the pieces joined together are the
text again; which of them become tokens is decided afterwards.
-/
import Lox.Token

namespace Lox

/-! ### Characters -/

/-- Characters that only separate: space, carriage return, tab and newline. -/
def isBlank (c : Char) : Bool := c = ' ' || c = '\r' || c = '\t' || c = '\n'

/-- Can a word start with this character?  Words are made of ASCII letters, digits and `_`. -/
def isWordStart (c : Char) : Bool := c.isAlpha || c = '_'

/-- Can a word go on with this character? -/
def isWordRest (c : Char) : Bool := isWordStart c || c.isDigit

/-- What a segment of a source text is. -/
inductive Segment.Shape where
  | blank
  | comment
  | symbol (symbol : Symbol)
  | string
  | number
  | word
  /-- A string that is never closed; it runs to the end. -/
  | unterminated
  /-- A character no token can hold. -/
  | stray
deriving DecidableEq, Repr

/-- A piece of a source text. -/
structure Segment where
  shape : Segment.Shape
  text : List Char
deriving DecidableEq, Repr

namespace Segment

/-! ### Cutting off the first segment

Each function below is given the text after the character that decided the shape,
and returns the segment with what is left. -/

/-- A comment runs up to the end of its line, the newline not included. -/
def comment (rest : List Char) : Segment × List Char :=
  (⟨.comment, '/' :: rest.takeWhile (· ≠ '\n')⟩, rest.dropWhile (· ≠ '\n'))

/-- A string runs to the next quote, over any number of lines. -/
def string (rest : List Char) : Segment × List Char :=
  let contents := rest.takeWhile (· ≠ '"')
  match rest.dropWhile (· ≠ '"') with
  | [] => (⟨.unterminated, '"' :: contents⟩, [])
  | quote :: rest => (⟨.string, '"' :: (contents ++ [quote])⟩, rest)

/-- A number is digits, and a point with digits after it if both follow. -/
def number (first : Char) (rest : List Char) : Segment × List Char :=
  let whole := first :: rest.takeWhile Char.isDigit
  match rest.dropWhile Char.isDigit with
  | '.' :: digit :: rest =>
    if digit.isDigit then
      (⟨.number, whole ++ '.' :: digit :: rest.takeWhile Char.isDigit⟩,
        rest.dropWhile Char.isDigit)
    else (⟨.number, whole⟩, '.' :: digit :: rest)
  | rest => (⟨.number, whole⟩, rest)

/-- A word runs as far as its characters do. -/
def word (first : Char) (rest : List Char) : Segment × List Char :=
  (⟨.word, first :: rest.takeWhile isWordRest⟩, rest.dropWhile isWordRest)

/-- A symbol takes an `=` behind it if that makes another symbol. -/
def symbol (first : Char) (symbol : Symbol) (rest : List Char) : Segment × List Char :=
  match rest, symbol.withEqual? with
  | '=' :: rest, some longer => (⟨.symbol longer, [first, '=']⟩, rest)
  | rest, _ => (⟨.symbol symbol, [first]⟩, rest)

/-- The first segment of a text, given its first character, and what is left. -/
def next (first : Char) (rest : List Char) : Segment × List Char :=
  if isBlank first then (⟨.blank, [first]⟩, rest)
  else if first = '"' then string rest
  else if first.isDigit then number first rest
  else if isWordStart first then word first rest
  else if first = '/' && rest.head? = some '/' then comment rest
  else match Symbol.ofChar? first with
    | some s => symbol first s rest
    | none => (⟨.stray, [first]⟩, rest)

/-! ### Nothing is lost -/

theorem comment_append (rest : List Char) :
    (comment rest).1.text ++ (comment rest).2 = '/' :: rest := by
  simp [comment, List.takeWhile_append_dropWhile]

theorem string_append (rest : List Char) :
    (string rest).1.text ++ (string rest).2 = '"' :: rest := by
  have whole := List.takeWhile_append_dropWhile (p := (· ≠ '"')) (l := rest)
  unfold string
  split <;> rename_i h <;> rw [h] at whole <;> simpa using whole

theorem word_append (first : Char) (rest : List Char) :
    (word first rest).1.text ++ (word first rest).2 = first :: rest := by
  simp [word, List.takeWhile_append_dropWhile]

theorem number_append (first : Char) (rest : List Char) :
    (number first rest).1.text ++ (number first rest).2 = first :: rest := by
  have whole := List.takeWhile_append_dropWhile (p := Char.isDigit) (l := rest)
  unfold number
  split
  · rename_i digit more h
    rw [h] at whole
    split <;> simp [List.takeWhile_append_dropWhile, whole]
  · simp [whole]

theorem symbol_append (first : Char) (s : Symbol) (rest : List Char) :
    (symbol first s rest).1.text ++ (symbol first s rest).2 = first :: rest := by
  unfold symbol
  split <;> simp

/-- Cutting off a segment loses nothing. -/
theorem next_append (first : Char) (rest : List Char) :
    (next first rest).1.text ++ (next first rest).2 = first :: rest := by
  unfold next
  split
  · simp
  split
  · rename_i h; rw [h]; exact string_append rest
  split
  · exact number_append first rest
  split
  · exact word_append first rest
  split
  · rename_i h
    simp only [Bool.and_eq_true, decide_eq_true_eq] at h
    rw [h.1]; exact comment_append rest
  split
  · exact symbol_append first _ rest
  · simp

/-- A segment has a character at least. -/
theorem next_text_ne_nil (first : Char) (rest : List Char) :
    (next first rest).1.text ≠ [] := by
  unfold next
  split
  · simp
  split
  · unfold string; split <;> simp
  split
  · unfold number; split
    · split <;> simp
    · simp
  split
  · simp [word]
  split
  · simp [comment]
  split
  · unfold symbol; split <;> simp
  · simp

/-- What is left after the first segment is shorter. -/
theorem next_length_le (first : Char) (rest : List Char) :
    (next first rest).2.length ≤ rest.length := by
  have whole := congrArg List.length (next_append first rest)
  have : 0 < (next first rest).1.text.length :=
    List.length_pos_iff.2 (next_text_ne_nil first rest)
  simp only [List.length_append, List.length_cons] at whole
  omega

/-! ### Cutting the whole text -/

/-- The segments of a text, at most one for each character of `bound`. -/
def splitWithin : (bound : List Char) → List Char → List Segment
  | _ :: bound, first :: rest =>
    let (segment, rest) := next first rest
    segment :: splitWithin bound rest
  | _, _ => []

/-- The segments of a text.  Each takes a character at least, so the text bounds their number. -/
def split (text : List Char) : List Segment := splitWithin text text

/-- The bound of `splitWithin` is never felt if it is as long as the text. -/
theorem splitWithin_eq_split (bound : List Char) : ∀ (text : List Char),
    text.length ≤ bound.length → splitWithin bound text = split text := by
  suffices same : ∀ (a b text : List Char), text.length ≤ a.length → text.length ≤ b.length →
      splitWithin a text = splitWithin b text from
    fun text h => same bound text text h (Nat.le_refl _)
  clear bound
  intro a
  induction a with
  | nil => intro b text ha _; cases text <;> simp_all [splitWithin]
  | cons _ a ih =>
      intro b text ha hb
      cases text with
      | nil => simp [splitWithin]
      | cons first rest =>
          cases b with
          | nil => simp at hb
          | cons _ b =>
              have shorter := next_length_le first rest
              simp only [List.length_cons] at ha hb
              simp only [splitWithin, ih b (next first rest).2 (by omega) (by omega)]

theorem split_nil : split [] = [] := rfl

theorem split_cons (first : Char) (rest : List Char) :
    split (first :: rest) = (next first rest).1 :: split (next first rest).2 := by
  show splitWithin (first :: rest) (first :: rest) = _
  simp only [splitWithin, splitWithin_eq_split rest _ (next_length_le first rest)]

/-- The segments of a text joined together are the text. -/
theorem split_flatMap (text : List Char) : (split text).flatMap Segment.text = text := by
  suffices whole : ∀ (n : Nat) (text : List Char), text.length ≤ n →
      (split text).flatMap Segment.text = text from whole _ text (Nat.le_refl _)
  intro n
  induction n with
  | zero => intro text h; simp_all [split_nil]
  | succ n ih =>
      intro text h
      cases text with
      | nil => rfl
      | cons first rest =>
          have shorter := next_length_le first rest
          simp only [List.length_cons] at h
          rw [split_cons, List.flatMap_cons, ih _ (by omega), next_append]

end Segment

end Lox
