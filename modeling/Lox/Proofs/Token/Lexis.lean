/-
What a source text is made of.

`Begins` says which segment stands at the start of a text: one rule for each shape,
and longest match wherever more than one prefix of a text has the shape.  It knows
nothing of how a segment is cut off.  That it agrees with `Segment.next` is shown in
both directions: what is cut off begins the text, and nothing else does.
-/
import Lox.Token.Segment
import Mathlib.Data.List.TakeWhile

namespace Lox

/-! ### Words over characters

The shapes are said of whole texts, as lists of characters, and `Longest` picks the
longest prefix of a shape.  There is no state in this and no order in which rules are
tried.
-/

def IsDigit (c : Char) : Prop := '0' ≤ c ∧ c ≤ '9'

/-- A letter of the alphabet or `_`. -/
def IsLetter (c : Char) : Prop := ('A' ≤ c ∧ c ≤ 'Z') ∨ ('a' ≤ c ∧ c ≤ 'z') ∨ c = '_'

def IsLayout (c : Char) : Prop := c = ' ' ∨ c = '\r' ∨ c = '\t' ∨ c = '\n'

instance : DecidablePred IsDigit := fun _ => inferInstanceAs (Decidable (_ ∧ _))

instance : DecidablePred IsLetter := fun _ => inferInstanceAs (Decidable (_ ∨ _))

instance : DecidablePred IsLayout := fun _ => inferInstanceAs (Decidable (_ ∨ _))

/-- The text is digits, which may be followed by a point and more digits, and it writes this
decimal. -/
inductive Numeral : List Char → Decimal → Prop where
  | whole {ds : List Char} (hne : ds ≠ []) (hds : ∀ c ∈ ds, IsDigit c) :
      Numeral ds (.ofDigits ds [])
  | fraction {ds fs : List Char} (hne : ds ≠ []) (hds : ∀ c ∈ ds, IsDigit c)
      (hfne : fs ≠ []) (hfs : ∀ c ∈ fs, IsDigit c) :
      Numeral (ds ++ '.' :: fs) (.ofDigits ds fs)

def NumberText (w : List Char) : Prop := ∃ d, Numeral w d

/-- The text is a letter, and then letters and digits. -/
inductive WordText : List Char → Prop where
  | mk {c : Char} {cs : List Char} (hc : IsLetter c) (hcs : ∀ d ∈ cs, IsLetter d ∨ IsDigit d) :
      WordText (c :: cs)

def SymbolText (w : List Char) : Prop := ∃ s : Symbol, w = s.text.toList

/-- `w` is the longest of the prefixes of the text that `P` holds of. -/
structure Longest (P : List Char → Prop) (text w : List Char) : Prop where
  /-- It is a prefix. -/
  start : w <+: text
  /-- It is of the kind asked for. -/
  holds : P w
  /-- No prefix of that kind is longer. -/
  longest : ∀ v, v <+: text → P v → v.length ≤ w.length

theorem Longest.unique {P : List Char → Prop} {text v w : List Char} (hv : Longest P text v)
    (hw : Longest P text w) : v = w := by
  have hlength : v.length = w.length :=
    Nat.le_antisymm (hw.longest v hv.start hv.holds) (hv.longest w hw.start hw.holds)
  exact (List.prefix_of_prefix_length_le hv.start hw.start (Nat.le_of_eq hlength)).eq_of_length
    hlength

/-! ### Segments

No rule has to be preferred to another.  The first character decides, except that a
slash may start a comment or a symbol, and a quote a string that is closed or one that
is not; and there the rules say what else has to hold.
-/

namespace Segment

/-- The segment stands at the start of the text. -/
inductive Begins : List Char → Segment → Prop where
  | blank {c : Char} {rest : List Char} (h : IsLayout c) : Begins (c :: rest) ⟨.blank, [c]⟩
  | comment {body rest : List Char} (hbody : '\n' ∉ body) (hrest : ∀ c ∈ rest.head?, c = '\n') :
      Begins ('/' :: '/' :: (body ++ rest)) ⟨.comment, '/' :: '/' :: body⟩
  | symbol {s : Symbol} {text : List Char} (hcomment : ¬ ['/', '/'] <+: text)
      (h : Longest SymbolText text s.text.toList) : Begins text ⟨.symbol s, s.text.toList⟩
  | string {contents rest : List Char} (h : '"' ∉ contents) :
      Begins ('"' :: (contents ++ '"' :: rest)) ⟨.string, '"' :: (contents ++ ['"'])⟩
  | number {text w : List Char} (h : Longest NumberText text w) : Begins text ⟨.number, w⟩
  | word {text w : List Char} (h : Longest WordText text w) : Begins text ⟨.word, w⟩
  | unterminated {contents : List Char} (h : '"' ∉ contents) :
      Begins ('"' :: contents) ⟨.unterminated, '"' :: contents⟩
  | stray {c : Char} {rest : List Char} (hlayout : ¬ IsLayout c) (hquote : c ≠ '"')
      (hdigit : ¬ IsDigit c) (hletter : ¬ IsLetter c)
      (hsymbol : ∀ s : Symbol, s.text.toList.head? ≠ some c) : Begins (c :: rest) ⟨.stray, [c]⟩

end Segment

/-! ### Characters -/

theorem isBlank_iff {c : Char} : isBlank c = true ↔ IsLayout c := by
  simp [isBlank, IsLayout, or_assoc]

theorem isDigit_iff {c : Char} : c.isDigit = true ↔ IsDigit c := by
  simp [Char.isDigit, IsDigit, Char.le_def]

theorem isWordStart_iff {c : Char} : isWordStart c = true ↔ IsLetter c := by
  have hupper : c.isUpper = decide ('A' ≤ c ∧ c ≤ 'Z') := rfl
  have hlower : c.isLower = ('a' ≤ c && c ≤ 'z') := rfl
  have halpha : c.isAlpha = (c.isUpper || c.isLower) := rfl
  simp [isWordStart, IsLetter, halpha, hupper, hlower, or_assoc]

theorem isWordRest_iff {c : Char} : isWordRest c = true ↔ IsLetter c ∨ IsDigit c := by
  simp [isWordRest, isWordStart_iff, isDigit_iff]

theorem IsLetter.not_isDigit {c : Char} (h : IsLetter c) : ¬ IsDigit c := by
  rintro ⟨-, hnine⟩
  rcases h with ⟨hletter, -⟩ | ⟨hletter, -⟩ | rfl
  · exact absurd (Char.le_trans hletter hnine) (by decide)
  · exact absurd (Char.le_trans hletter hnine) (by decide)
  · exact absurd hnine (by decide)

theorem IsLayout.not_isDigit {c : Char} (h : IsLayout c) : ¬ IsDigit c := by
  rcases h with rfl | rfl | rfl | rfl <;> decide

theorem IsLayout.not_isLetter {c : Char} (h : IsLayout c) : ¬ IsLetter c := by
  rcases h with rfl | rfl | rfl | rfl <;> decide

/-! ### Runs of characters -/

section Runs

variable {p : Char → Bool} {v text fs : List Char} {c : Char}

/-- A prefix of `p`s is a part of the run of `p`s. -/
theorem length_le_takeWhile (h : v <+: text) (hv : ∀ c ∈ v, p c = true) :
    v.length ≤ (text.takeWhile p).length := by
  obtain ⟨rest, rfl⟩ := h
  rw [List.takeWhile_append_of_pos hv, List.length_append]
  exact Nat.le_add_right _ _

/-- A run of `p`s ends where the first character stands that is none. -/
theorem takeWhile_of_ends (hv : ∀ c ∈ v, p c = true) (hc : p c = false)
    (h : v ++ c :: fs <+: text) :
    text.takeWhile p = v ∧ ∃ more, text.dropWhile p = c :: more ∧ fs <+: more := by
  obtain ⟨rest, rfl⟩ := h
  rw [List.append_assoc, List.takeWhile_append_of_pos hv, List.dropWhile_append_of_pos hv]
  simp [hc]

theorem of_mem_takeWhile (h : c ∈ text.takeWhile p) : p c = true :=
  List.all_eq_true.mp List.all_takeWhile c h

private theorem of_dropWhile_eq_cons (h : text.dropWhile p = c :: fs) : p c = false := by
  have hhead := List.head?_dropWhile_not p text
  rwa [h] at hhead

end Runs

/-! ### Symbols -/

/-- The symbol written like this. -/
def Symbol.ofText? : List Char → Option Symbol
  | [c] => ofChar? c
  | [c, '='] => (ofChar? c).bind withEqual?
  | _ => none

private theorem Symbol.ofText?_text (s : Symbol) : ofText? s.text.toList = some s := by
  cases s <;> rfl

private theorem Symbol.text_ofChar? {c : Char} {s : Symbol} (h : ofChar? c = some s) :
    s.text.toList = [c] := by
  unfold ofChar? at h
  split at h <;> cases h <;> rfl

private theorem Symbol.text_withEqual? {c : Char} {s longer : Symbol} (h : ofChar? c = some s)
    (hlonger : s.withEqual? = some longer) : longer.text.toList = [c, '='] := by
  unfold ofChar? at h
  split at h <;> cases h <;> cases hlonger <;> rfl

/-- The texts of symbols are one character, or one and `=`. -/
theorem Symbol.text_cases (s : Symbol) :
    (∃ c, s.text.toList = [c] ∧ ofChar? c = some s) ∨
      ∃ c first, s.text.toList = [c, '='] ∧ ofChar? c = some first ∧ first.withEqual? = some s := by
  have h := s.ofText?_text
  unfold ofText? at h
  split at h <;> rename_i heq
  · exact .inl ⟨_, heq, h⟩
  · obtain ⟨first, hfirst, hlonger⟩ := Option.bind_eq_some_iff.mp h
    exact .inr ⟨_, first, heq, hfirst, hlonger⟩
  · contradiction

theorem Symbol.text_inj {s t : Symbol} (h : s.text.toList = t.text.toList) : s = t := by
  rw [← Option.some.injEq, ← s.ofText?_text, ← t.ofText?_text, h]

/-- The character a symbol starts with is a symbol. -/
theorem Symbol.ofChar?_of_head? {s : Symbol} {c : Char} (h : s.text.toList.head? = some c) :
    ∃ first, ofChar? c = some first := by
  rcases s.text_cases with ⟨d, htext, hfirst⟩ | ⟨d, first, htext, hfirst, -⟩ <;>
    rw [htext, List.head?_cons, Option.some.injEq] at h <;>
    exact ⟨_, h ▸ hfirst⟩

/-- The characters that start a symbol start nothing else but a comment. -/
theorem Symbol.ofChar?_spec {c : Char} {s : Symbol} (h : ofChar? c = some s) :
    isBlank c = false ∧ c ≠ '"' ∧ c.isDigit = false ∧ isWordStart c = false := by
  unfold ofChar? at h
  split at h <;> first | contradiction | decide

namespace Segment

/-! ### Longest matches

A word is a run of characters, and a symbol is one or two.  A number is neither: a
prefix that ends with a point is none, though a longer one may be, so the longest is not
found by going on for as long as the shape holds.
-/

private theorem longest_symbol {first : Char} (rest : List Char) {s : Symbol}
    (h : Symbol.ofChar? first = some s) :
    ∃ t : Symbol, (symbol first s rest).1 = ⟨.symbol t, t.text.toList⟩ ∧
      Longest SymbolText (first :: rest) t.text.toList := by
  unfold symbol
  split <;> rename_i heq
  · have htext := Symbol.text_withEqual? h heq
    refine ⟨_, by rw [htext], ?_⟩
    rw [htext]
    refine ⟨by simp, ⟨_, htext.symm⟩, ?_⟩
    rintro _ - ⟨t, rfl⟩
    rcases t.text_cases with ⟨c, hc, -⟩ | ⟨c, _, hc, -⟩ <;> simp [hc]
  · have htext := Symbol.text_ofChar? h
    refine ⟨_, by rw [htext], ?_⟩
    rw [htext]
    refine ⟨by simp, ⟨_, htext.symm⟩, ?_⟩
    rintro _ hstart ⟨t, rfl⟩
    rcases t.text_cases with ⟨c, hc, -⟩ | ⟨c, f, hc, hf, hlonger⟩
    · simp [hc]
    · exfalso
      rw [hc] at hstart
      obtain ⟨more, hmore⟩ := hstart
      obtain ⟨rfl, rfl⟩ := List.cons.inj hmore
      cases hf.symm.trans h
      exact heq _ _ rfl hlonger

private theorem longest_word {first : Char} {rest : List Char} (h : isWordStart first = true) :
    Longest WordText (first :: rest) (word first rest).1.text := by
  refine ⟨List.prefix_cons_iff.mpr (.inr ⟨_, rfl, List.takeWhile_prefix _⟩), ?_, ?_⟩
  · exact .mk (isWordStart_iff.mp h) fun d hd => isWordRest_iff.mp (of_mem_takeWhile hd)
  · intro v hstart hv
    cases hv with
    | mk hc hcs =>
        obtain ⟨-, hstart⟩ := List.cons_prefix_cons.mp hstart
        exact Nat.succ_le_succ
          (length_le_takeWhile hstart fun d hd => isWordRest_iff.mpr (hcs d hd))

private theorem isDigit_point : Char.isDigit '.' = false := by decide

/-- A numeral is a run of digits, or two with a point between them. -/
theorem numberText_cases {w : List Char} (h : NumberText w) :
    (∀ c ∈ w, c.isDigit = true) ∨
      ∃ ds fs, w = ds ++ '.' :: fs ∧ (∀ c ∈ ds, c.isDigit = true) ∧
        fs ≠ [] ∧ ∀ c ∈ fs, c.isDigit = true := by
  obtain ⟨d, hd⟩ := h
  cases hd with
  | whole hne hds => exact .inl fun c hc => isDigit_iff.mpr (hds c hc)
  | fraction hne hds hfne hfs =>
      exact .inr ⟨_, _, rfl, fun c hc => isDigit_iff.mpr (hds c hc), hfne,
        fun c hc => isDigit_iff.mpr (hfs c hc)⟩

theorem numberText_head {w : List Char} (h : NumberText w) :
    ∃ c more, w = c :: more ∧ IsDigit c := by
  obtain ⟨d, hd⟩ := h
  cases hd with
  | whole hne hds =>
      obtain ⟨c, more, rfl⟩ := List.exists_cons_of_ne_nil hne
      exact ⟨c, more, rfl, hds c List.mem_cons_self⟩
  | fraction hne hds =>
      obtain ⟨c, more, rfl⟩ := List.exists_cons_of_ne_nil hne
      exact ⟨c, _, rfl, hds c List.mem_cons_self⟩

private theorem isDigit_of_mem_takeWhile {text : List Char} :
    ∀ c ∈ text.takeWhile Char.isDigit, IsDigit c :=
  fun _ hc => isDigit_iff.mp (of_mem_takeWhile hc)

/-- Without a point and a digit behind them, digits are a numeral by themselves. -/
theorem longest_whole {text : List Char} (hne : text.takeWhile Char.isDigit ≠ [])
    (h : ∀ d more, text.dropWhile Char.isDigit = '.' :: d :: more → d.isDigit = false) :
    Longest NumberText text (text.takeWhile Char.isDigit) := by
  refine ⟨List.takeWhile_prefix _, ⟨_, .whole hne isDigit_of_mem_takeWhile⟩, ?_⟩
  intro v hv hnumber
  rcases numberText_cases hnumber with hdigits | ⟨ds, fs, rfl, hds, hne, hfs⟩
  · exact length_le_takeWhile hv hdigits
  · exfalso
    obtain ⟨-, after, hafter, hstart⟩ := takeWhile_of_ends hds isDigit_point hv
    cases fs with
    | nil => exact hne rfl
    | cons d fs =>
        obtain ⟨more, rfl⟩ := hstart
        have hdigit := h d _ hafter
        rw [hfs d List.mem_cons_self] at hdigit
        exact Bool.noConfusion hdigit

private theorem longest_fraction {text more : List Char} {d : Char}
    (hne : text.takeWhile Char.isDigit ≠ [])
    (h : text.dropWhile Char.isDigit = '.' :: d :: more) (hd : d.isDigit = true) :
    Longest NumberText text
      (text.takeWhile Char.isDigit ++ '.' :: (d :: more).takeWhile Char.isDigit) := by
  have hfne : (d :: more).takeWhile Char.isDigit ≠ [] := by simp [hd]
  refine ⟨?_, ⟨_, .fraction hne isDigit_of_mem_takeWhile hfne isDigit_of_mem_takeWhile⟩, ?_⟩
  · have hwhole := List.takeWhile_append_dropWhile (p := Char.isDigit) (l := text)
    rw [h] at hwhole
    refine ⟨(d :: more).dropWhile Char.isDigit, ?_⟩
    rw [List.append_assoc, List.cons_append, List.takeWhile_append_dropWhile, hwhole]
  · intro v hv hnumber
    rcases numberText_cases hnumber with hdigits | ⟨ds, fs, rfl, hds, -, hfs⟩
    · rw [List.length_append]
      exact Nat.le_add_right_of_le (length_le_takeWhile hv hdigits)
    · obtain ⟨hsame, after, hafter, hstart⟩ := takeWhile_of_ends hds isDigit_point hv
      obtain ⟨-, rfl⟩ := List.cons.inj (h.symm.trans hafter)
      have hfraction := length_le_takeWhile hstart hfs
      rw [hsame]
      simp only [List.length_append, List.length_cons]
      omega

private theorem longest_number {first : Char} {rest : List Char} (h : first.isDigit = true) :
    Longest NumberText (first :: rest) (number first rest).1.text := by
  have htake : (first :: rest).takeWhile Char.isDigit = first :: rest.takeWhile Char.isDigit :=
    List.takeWhile_cons_of_pos h
  have hdrop : (first :: rest).dropWhile Char.isDigit = rest.dropWhile Char.isDigit :=
    List.dropWhile_cons_of_pos h
  have hne : (first :: rest).takeWhile Char.isDigit ≠ [] := by simp [htake]
  unfold number
  split <;> rename_i heq
  · rename_i d more
    split <;> rename_i hd
    · have hlongest := longest_fraction hne (hdrop.trans heq) hd
      rwa [htake, List.takeWhile_cons_of_pos hd] at hlongest
    · rw [← htake]
      refine longest_whole hne fun d' more' hafter => ?_
      rw [hdrop, heq] at hafter
      cases hafter
      exact Bool.eq_false_iff.mpr hd
  · rw [← htake]
    refine longest_whole hne fun d more hafter => ?_
    rw [hdrop] at hafter
    exact absurd hafter (heq d more)

/-! ### The first segment -/

private theorem begins_string {rest : List Char} : Begins ('"' :: rest) (string rest).1 := by
  have hnone : '"' ∉ rest.takeWhile (· ≠ '"') := fun hmem => by
    simpa using of_mem_takeWhile hmem
  have hwhole := List.takeWhile_append_dropWhile (p := (· ≠ '"')) (l := rest)
  unfold string
  split <;> rename_i heq <;> rw [heq] at hwhole
  · rw [List.append_nil] at hwhole
    simp only [hwhole] at hnone ⊢
    exact .unterminated hnone
  · have hquote := of_dropWhile_eq_cons heq
    simp only [ne_eq, decide_not, Bool.not_eq_false', decide_eq_true_eq] at hquote
    subst hquote
    have hbegins := @Begins.string _ ‹List Char› hnone
    rwa [hwhole] at hbegins

private theorem begins_comment {rest : List Char} :
    Begins ('/' :: '/' :: rest) (comment ('/' :: rest)).1 := by
  have hnone : '\n' ∉ rest.takeWhile (· ≠ '\n') := fun hmem => by
    simpa using of_mem_takeWhile hmem
  have hrest : ∀ c ∈ (rest.dropWhile (· ≠ '\n')).head?, c = '\n' := by
    intro c hc
    obtain ⟨more, heq⟩ := List.head?_eq_some_iff.mp hc
    simpa using of_dropWhile_eq_cons heq
  have hbegins := Begins.comment hnone hrest
  rw [List.takeWhile_append_dropWhile] at hbegins
  simpa [comment] using hbegins

private theorem number_eq (first : Char) (rest : List Char) :
    (number first rest).1 = ⟨.number, (number first rest).1.text⟩ := by
  unfold number
  split
  · split <;> rfl
  · rfl

section Next

variable {c : Char} {rest : List Char}

private theorem next_layout (h : IsLayout c) : next c rest = (⟨.blank, [c]⟩, rest) := by
  rw [next, isBlank_iff.mpr h, if_pos rfl]

private theorem next_string : next '"' rest = string rest := rfl

private theorem next_comment : next '/' ('/' :: rest) = comment ('/' :: rest) := rfl

private theorem next_digit (h : IsDigit c) : next c rest = number c rest := by
  have hblank : isBlank c = false := by
    rw [← Bool.not_eq_true, isBlank_iff]
    exact fun hlayout => hlayout.not_isDigit h
  have hquote : c ≠ '"' := by
    rintro rfl
    exact absurd h (by decide)
  simp only [next, hblank, hquote, isDigit_iff.mpr h, if_true, if_false, Bool.false_eq_true]

private theorem next_letter (h : IsLetter c) : next c rest = word c rest := by
  have hblank : isBlank c = false := by
    rw [← Bool.not_eq_true, isBlank_iff]
    exact fun hlayout => hlayout.not_isLetter h
  have hquote : c ≠ '"' := by
    rintro rfl
    exact absurd h (by decide)
  have hdigit : c.isDigit = false := by
    rw [← Bool.not_eq_true, isDigit_iff]
    exact h.not_isDigit
  simp only [next, hblank, hquote, hdigit, isWordStart_iff.mpr h, if_true, if_false,
    Bool.false_eq_true]

theorem next_symbol {s : Symbol} (h : Symbol.ofChar? c = some s)
    (hcomment : ¬ ['/', '/'] <+: c :: rest) : next c rest = symbol c s rest := by
  obtain ⟨hblank, hquote, hdigit, hletter⟩ := Symbol.ofChar?_spec h
  have hslashes : (c = '/' && rest.head? = some '/') = false := by
    rw [← Bool.not_eq_true, Bool.and_eq_true, decide_eq_true_eq, decide_eq_true_eq]
    rintro ⟨rfl, hhead⟩
    obtain ⟨more, rfl⟩ := List.head?_eq_some_iff.mp hhead
    exact hcomment ⟨more, rfl⟩
  simp only [next, hblank, hquote, hdigit, hletter, hslashes, h, if_false, Bool.false_eq_true]

private theorem next_stray (hlayout : ¬ IsLayout c) (hquote : c ≠ '"') (hdigit : ¬ IsDigit c)
    (hletter : ¬ IsLetter c) (hsymbol : Symbol.ofChar? c = none) :
    next c rest = (⟨.stray, [c]⟩, rest) := by
  have hslash : c ≠ '/' := by
    rintro rfl
    exact nomatch hsymbol
  simp only [← isBlank_iff, ← isDigit_iff, ← isWordStart_iff, Bool.not_eq_true] at *
  simp only [next, hlayout, hquote, hdigit, hletter, hslash, hsymbol, if_false, Bool.false_eq_true,
    decide_false, Bool.false_and]

end Next

/-- What is cut off a text begins it. -/
theorem begins_next (first : Char) (rest : List Char) :
    Begins (first :: rest) (next first rest).1 := by
  by_cases hlayout : IsLayout first
  · rw [next_layout hlayout]
    exact .blank hlayout
  by_cases hquote : first = '"'
  · subst hquote
    rw [next_string]
    exact begins_string
  by_cases hdigit : IsDigit first
  · rw [next_digit hdigit, number_eq]
    exact .number (longest_number (isDigit_iff.mpr hdigit))
  by_cases hletter : IsLetter first
  · rw [next_letter hletter]
    exact .word (longest_word (isWordStart_iff.mpr hletter))
  cases hsymbol : Symbol.ofChar? first with
  | none =>
      rw [next_stray hlayout hquote hdigit hletter hsymbol]
      refine .stray hlayout hquote hdigit hletter fun s hs => ?_
      obtain ⟨_, hfirst⟩ := Symbol.ofChar?_of_head? hs
      exact nomatch hsymbol.symm.trans hfirst
  | some s =>
      by_cases hcomment : ['/', '/'] <+: first :: rest
      · obtain ⟨rest, heq⟩ := hcomment
        cases heq
        exact begins_comment
      · rw [next_symbol hsymbol hcomment]
        obtain ⟨t, heq, hlongest⟩ := longest_symbol _ hsymbol
        rw [heq]
        exact .symbol hcomment hlongest

/-- Nothing but what is cut off a text begins it. -/
theorem eq_next_of_begins {first : Char} {rest : List Char} {s : Segment}
    (h : Begins (first :: rest) s) : s = (next first rest).1 := by
  generalize htext : first :: rest = text at h
  cases h with
  | blank hlayout =>
      cases htext
      rw [next_layout hlayout]
  | @comment body rest hbody hrest =>
      cases htext
      have hpos : ∀ c ∈ body, decide (c ≠ '\n') = true := by
        intro c hc
        exact decide_eq_true fun heq => hbody (heq ▸ hc)
      have hstop : rest.takeWhile (· ≠ '\n') = [] := by
        cases rest with
        | nil => rfl
        | cons c more => simp [hrest c rfl]
      rw [next_comment, comment, List.takeWhile_cons_of_pos (by decide),
        List.takeWhile_append_of_pos hpos, hstop, List.append_nil]
  | @symbol s _ hcomment hlongest =>
      subst htext
      obtain ⟨c, f, hsymbol, hhead⟩ : ∃ c f, Symbol.ofChar? c = some f ∧
          s.text.toList.head? = some c := by
        rcases s.text_cases with ⟨c, hc, hf⟩ | ⟨c, f, hc, hf, -⟩
        · exact ⟨c, _, hf, by rw [hc]; rfl⟩
        · exact ⟨c, _, hf, by rw [hc]; rfl⟩
      obtain ⟨more, hmore⟩ := List.head?_eq_some_iff.mp hhead
      have hfirst := hlongest.start
      rw [hmore] at hfirst
      obtain ⟨rfl, -⟩ := List.cons_prefix_cons.mp hfirst
      obtain ⟨t, heq, ht⟩ := longest_symbol rest hsymbol
      rw [next_symbol hsymbol hcomment, heq, Symbol.text_inj (hlongest.unique ht)]
  | @string contents rest hcontents =>
      cases htext
      have hpos : ∀ c ∈ contents, decide (c ≠ '"') = true := by
        intro c hc
        exact decide_eq_true fun heq => hcontents (heq ▸ hc)
      rw [next_string, string, List.takeWhile_append_of_pos hpos, List.dropWhile_append_of_pos hpos,
        List.takeWhile_cons_of_neg (by decide), List.dropWhile_cons_of_neg (by decide),
        List.append_nil]
  | number hlongest =>
      subst htext
      have hdigit : IsDigit first := by
        obtain ⟨c, more, rfl, hc⟩ := numberText_head hlongest.holds
        rwa [(List.cons_prefix_cons.mp hlongest.start).1] at hc
      rw [next_digit hdigit, number_eq, hlongest.unique (longest_number (isDigit_iff.mpr hdigit))]
  | word hlongest =>
      subst htext
      have hletter : IsLetter first := by
        obtain ⟨hc, -⟩ := hlongest.holds
        rwa [(List.cons_prefix_cons.mp hlongest.start).1] at hc
      rw [next_letter hletter, hlongest.unique (longest_word (isWordStart_iff.mpr hletter))]
      rfl
  | unterminated hcontents =>
      cases htext
      have hpos : ∀ c ∈ rest, decide (c ≠ '"') = true := by
        intro c hc
        exact decide_eq_true fun heq => hcontents (heq ▸ hc)
      rw [next_string, string, List.takeWhile_eq_self_iff.mpr hpos,
        List.dropWhile_eq_nil_iff.mpr hpos]
  | stray hlayout hquote hdigit hletter hsymbol =>
      cases htext
      have hnone : Symbol.ofChar? first = none := by
        rw [Option.eq_none_iff_forall_ne_some]
        intro s hs
        exact hsymbol s (by rw [Symbol.text_ofChar? hs]; rfl)
      rw [next_stray hlayout hquote hdigit hletter hnone]

end Segment

end Lox
