/-
Tokens written out.

Tokens are written out by setting their lexemes one behind the other, with something
between them that begins with a blank or a newline.  That much is needed, and it is
enough: no segment but a comment or a string goes on over a blank, so each lexeme is cut
off where it ends, whatever comes next.  Scanning gives the tokens back, and only their
lines are new.
-/
import Lox.Proofs.Token.Joining

namespace Lox

open Segment (lastLine)

/-! ### Kinds and their lexemes -/

/-- A kind of token can be written like this. -/
inductive Token.Kind.Spelled : Token.Kind → List Char → Prop where
  | symbol (s : Symbol) : Spelled (.symbol s) s.text.toList
  | keyword (k : Keyword) : Spelled (.keyword k) k.text.toList
  | identifier {w : List Char} (hw : WordText w) (hk : ∀ k : Keyword, k.text ≠ String.ofList w) :
      Spelled .identifier w
  | number {w : List Char} {d : Decimal} (hw : Numeral w d) : Spelled (.number (.ofDecimal d)) w
  | string {contents : List Char} (h : '"' ∉ contents) :
      Spelled (.string (String.ofList contents)) ('"' :: (contents ++ ['"']))

/-- The kind and the lexeme of the token fit. -/
def Token.Fits (t : Token) : Prop := t.kind.Spelled t.lexeme.toList

theorem Longest.self {P : List Char → Prop} {w : List Char} (h : P w) : Longest P w w :=
  ⟨List.prefix_refl w, h, fun _ hstart _ => hstart.length_le⟩

theorem WordText.of_all {c : Char} {cs : List Char} (hc : isWordStart c = true)
    (hcs : cs.all isWordRest = true) : WordText (c :: cs) :=
  .mk (isWordStart_iff.mp hc) fun d hd => isWordRest_iff.mp (List.all_eq_true.mp hcs d hd)

theorem Keyword.wordText (k : Keyword) : WordText k.text.toList := by
  cases k <;> exact .of_all (by decide) (by decide)

/-- A lexeme that fits is a segment by itself, and gives a token of its kind. -/
theorem Token.Kind.Spelled.begins {kind : Token.Kind} {w : List Char} (h : kind.Spelled w) :
    ∃ shape : Segment.Shape, Segment.Begins w ⟨shape, w⟩ ∧
      Segment.kind? ⟨shape, w⟩ = some (.ok kind) := by
  cases h with
  | symbol s =>
      refine ⟨.symbol s, .symbol ?_ (.self ⟨s, rfl⟩), rfl⟩
      cases s <;> decide
  | keyword k =>
      refine ⟨.word, .word (.self k.wordText), ?_⟩
      have hword : Keyword.ofText? k.text = some k := Keyword.ofText?_eq_some_iff.mpr rfl
      simp only [Segment.kind?, Token.Kind.ofWord, String.ofList_toList, hword]
  | identifier hw hk =>
      refine ⟨.word, .word (.self hw), ?_⟩
      have hword : Keyword.ofText? (String.ofList w) = none := Keyword.ofText?_eq_none_iff.mpr hk
      simp only [Segment.kind?, Token.Kind.ofWord, hword]
  | number hw =>
      refine ⟨.number, .number (.self ⟨_, hw⟩), ?_⟩
      simp only [Segment.kind?, Segment.numberValue_of_numeral hw]
  | @string contents h =>
      refine ⟨.string, .string h, ?_⟩
      simp only [Segment.kind?, Segment.contents, List.drop_one, List.tail_cons,
        List.dropLast_concat]

/-- A segment that gives a token is a lexeme that fits it. -/
theorem Token.Kind.spelled_of_begins {text : List Char} {s : Segment} {kind : Token.Kind}
    (h : Segment.Begins text s) (hkind : s.kind? = some (.ok kind)) : kind.Spelled s.text := by
  cases h with
  | blank | comment | unterminated | stray => cases hkind
  | symbol =>
      cases hkind
      exact .symbol _
  | @string contents rest h =>
      cases hkind
      simp only [Segment.contents, List.drop_one, List.tail_cons, List.dropLast_concat]
      exact .string h
  | number hlongest =>
      obtain ⟨d, hd⟩ := hlongest.holds
      cases hkind
      rw [Segment.numberValue_of_numeral hd]
      exact .number hd
  | @word _ w hlongest =>
      simp only [Segment.kind?, Token.Kind.ofWord] at hkind
      cases hword : Keyword.ofText? (String.ofList w) with
      | none =>
          rw [hword] at hkind
          cases hkind
          exact .identifier hlongest.holds (Keyword.ofText?_eq_none_iff.mp hword)
      | some k =>
          rw [hword] at hkind
          cases hkind
          have htext : w = k.text.toList := by
            rw [Keyword.ofText?_eq_some_iff.mp hword, String.toList_ofList]
          rw [htext]
          exact .keyword k

/-- The kind of token that a text is if it is one segment; any other kind if it is not. -/
def Token.Kind.ofLexeme (w : List Char) : Token.Kind :=
  match (Segment.split w).head?.bind Segment.kind? with
  | some (.ok kind) => kind
  | _ => .endOfFile

/-- A lexeme tells its kind. -/
theorem Token.Kind.Spelled.ofLexeme_eq {kind : Token.Kind} {w : List Char} (h : kind.Spelled w) :
    ofLexeme w = kind := by
  obtain ⟨shape, hbegins, hkind⟩ := h.begins
  have hwhole : Segment.Begins (w ++ []) ⟨shape, w⟩ := by rwa [List.append_nil]
  have hsplit := (Segment.Splits.cons (s := ⟨shape, w⟩) hwhole .nil).eq_split
  rw [List.append_nil] at hsplit
  rw [ofLexeme, ← hsplit, List.head?_cons, Option.bind_some, hkind]

namespace Segment

private theorem fits_of_mem_bodyItems {text : List Char} {ss : List Segment} (h : Splits text ss)
    {t : Token} : ∀ line : Nat, .ok t ∈ bodyItems line ss → t.Fits := by
  induction h with
  | nil => exact fun _ hmem => absurd hmem List.not_mem_nil
  | @cons s ss rest hbegins _ ih =>
      intro line hmem
      rcases List.mem_append.mp hmem with hmem | hmem
      · obtain ⟨kind, hkind, heq⟩ := Option.map_eq_some_iff.mp (Option.mem_toList.mp hmem)
        cases kind with
        | error cause => cases heq
        | ok kind =>
            cases heq
            have hspelled := Token.Kind.spelled_of_begins hbegins hkind
            rwa [← String.toList_ofList (l := s.text)] at hspelled
      · exact ih _ hmem

end Segment

/-- The tokens of a source fit. -/
theorem Token.fits_of_mem_sourceTokens {source : String} {t : Token}
    (h : t ∈ sourceTokens source) : t.Fits := by
  obtain ⟨item, hitem, heq⟩ := List.mem_filterMap.mp h
  cases item with
  | error fault => cases heq
  | ok token =>
      cases heq
      exact Segment.fits_of_mem_bodyItems (Segment.splits_iff.mpr rfl) 1 hitem

/-! ### Layout

Some layout is needed between two lexemes and not just allowed: a name behind a keyword
would be one word with it.  A gap begins with a blank or a newline, for a comment right
behind a slash would take the slash in.
-/

/-- Blanks, newlines, and comments that end with their line. -/
inductive Filler : List Char → Prop where
  | nil : Filler []
  | layout {c : Char} {rest : List Char} (hc : IsLayout c) (hrest : Filler rest) :
      Filler (c :: rest)
  | comment {body rest : List Char} (hbody : '\n' ∉ body) (hrest : Filler rest) :
      Filler ('/' :: '/' :: (body ++ '\n' :: rest))

/-- Filler that begins with a blank or a newline. -/
def Gap (w : List Char) : Prop := ∃ c rest, w = c :: rest ∧ IsLayout c ∧ Filler rest

theorem Gap.filler {w : List Char} (h : Gap w) : Filler w := by
  obtain ⟨c, rest, rfl, hc, hrest⟩ := h
  exact .layout hc hrest

namespace Segment

variable {w rest : List Char} {ss : List Segment}

/-- In front of layout, or at the end, a token is cut off where it ends. -/
theorem Begins.append_of_head? {s : Segment} {kind : Token.Kind} (h : Begins w s)
    (hkind : s.kind? = some (.ok kind)) (hrest : ∀ c ∈ rest.head?, IsLayout c) :
    Begins (w ++ rest) s := by
  cases rest with
  | nil => rwa [List.append_nil]
  | cons c rest =>
      refine h.append_layout (fun hshape => ?_) (hrest c rfl) (fun hshape => ?_) rest
      · simp [kind?, hshape] at hkind
      · simp [kind?, hshape] at hkind

/-- Filler is cut into segments that give nothing. -/
theorem splits_filler (h : Filler w) (hrest : Splits rest ss) :
    ∃ fs, Splits (w ++ rest) (fs ++ ss) ∧ fs.flatMap Segment.text = w ∧
      ∀ line, bodyItems line fs = [] := by
  induction h with
  | nil => exact ⟨[], hrest, rfl, fun _ => rfl⟩
  | @layout c w hc _ ih =>
      obtain ⟨fs, hsplits, htext, hnone⟩ := ih
      have hblank : Splits ([c] ++ (w ++ rest)) (⟨.blank, [c]⟩ :: (fs ++ ss)) :=
        .cons (s := ⟨.blank, [c]⟩) (.blank hc) hsplits
      refine ⟨⟨.blank, [c]⟩ :: fs, hblank, ?_, fun line => hnone _⟩
      rw [List.flatMap_cons, htext]
      rfl
  | @comment body w hbody _ ih =>
      obtain ⟨fs, hsplits, htext, hnone⟩ := ih
      have hnewline : Splits (['\n'] ++ (w ++ rest)) (⟨.blank, ['\n']⟩ :: (fs ++ ss)) :=
        .cons (s := ⟨.blank, ['\n']⟩) (.blank isLayout_newline) hsplits
      have hcomment : Splits (('/' :: '/' :: body) ++ (['\n'] ++ (w ++ rest)))
          (⟨.comment, '/' :: '/' :: body⟩ :: ⟨.blank, ['\n']⟩ :: (fs ++ ss)) := by
        refine .cons (s := ⟨.comment, '/' :: '/' :: body⟩) (.comment hbody fun c hc => ?_) hnewline
        exact (Option.some.inj hc).symm
      refine ⟨⟨.comment, '/' :: '/' :: body⟩ :: ⟨.blank, ['\n']⟩ :: fs, ?_, ?_, fun line => hnone _⟩
      · simpa using hcomment
      · rw [List.flatMap_cons, List.flatMap_cons, htext]
        simp

end Segment

/-! ### Tokens written out -/

/-- The lexemes of tokens, each with what stands behind it. -/
def spellOut (pieces : List (Token × List Char)) : List Char :=
  pieces.flatMap fun (t, after) => t.lexeme.toList ++ after

/-- Between two lexemes there is a gap; behind the last there may be one. -/
inductive Separated : List (Token × List Char) → Prop where
  | nil : Separated []
  | last {t : Token} {after : List Char} (hafter : after = [] ∨ Gap after) :
      Separated [(t, after)]
  | cons {t : Token} {between : List Char} {next : Token × List Char}
      {more : List (Token × List Char)} (hbetween : Gap between)
      (hmore : Separated (next :: more)) : Separated ((t, between) :: next :: more)

/-- The tokens behind some text, each on the line on which its lexeme ends. -/
def placed (before : List Char) : List (Token × List Char) → List Token
  | [] => []
  | (t, after) :: more =>
    { t with line := lastLine (before ++ t.lexeme.toList) } ::
      placed (before ++ t.lexeme.toList ++ after) more

/-- Behind a lexeme there is filler, and what follows there begins with layout. -/
theorem Separated.behind {t : Token} {after : List Char} {more : List (Token × List Char)}
    (h : Separated ((t, after) :: more)) :
    Filler after ∧ (∀ c ∈ (after ++ spellOut more).head?, IsLayout c) ∧ Separated more := by
  have hgap : ∀ {w rest : List Char}, Gap w → ∀ c ∈ (w ++ rest).head?, IsLayout c := by
    intro w rest hw c hc
    obtain ⟨first, others, rfl, hfirst, -⟩ := hw
    cases hc
    exact hfirst
  cases h with
  | last hafter =>
      rcases hafter with rfl | hafter
      · exact ⟨.nil, fun c hc => absurd hc (Option.not_mem_none c), .nil⟩
      · exact ⟨hafter.filler, hgap hafter, .nil⟩
  | cons hbetween hmore => exact ⟨hbetween.filler, hgap hbetween, hmore⟩

/-- Cut into segments, what is written out gives the tokens on their lines. -/
theorem Separated.splits {pieces : List (Token × List Char)} (h : ∀ piece ∈ pieces, piece.1.Fits)
    (hseparated : Separated pieces) :
    ∃ ss, Segment.Splits (spellOut pieces) ss ∧ ∀ before,
      Segment.items (lastLine before) ss = (placed before pieces).map .ok ++
        [.ok (.endOfFile (lastLine (before ++ spellOut pieces)))] := by
  induction pieces with
  | nil =>
      refine ⟨[], .nil, fun before => ?_⟩
      rw [spellOut, List.flatMap_nil, List.append_nil]
      rfl
  | cons piece more ih =>
      obtain ⟨t, after⟩ := piece
      obtain ⟨ht, hmore⟩ := List.forall_mem_cons.mp h
      obtain ⟨hfiller, hhead, hrest⟩ := hseparated.behind
      obtain ⟨ss, hsplits, hitems⟩ := ih hmore hrest
      obtain ⟨fs, hfs, htext, hnone⟩ := Segment.splits_filler hfiller hsplits
      obtain ⟨shape, hbegins, hkind⟩ := Token.Kind.Spelled.begins ht
      have hlonger := hbegins.append_of_head? hkind hhead
      have hspell : spellOut ((t, after) :: more) =
          t.lexeme.toList ++ (after ++ spellOut more) := by
        rw [spellOut, List.flatMap_cons, List.append_assoc]
        rfl
      refine ⟨⟨shape, t.lexeme.toList⟩ :: (fs ++ ss), ?_, fun before => ?_⟩
      · rw [hspell]
        exact .cons (s := ⟨shape, t.lexeme.toList⟩) hlonger hfs
      · have hline : lastLine before + Segment.newlines ⟨shape, t.lexeme.toList⟩ =
            lastLine (before ++ t.lexeme.toList) := (Segment.lastLine_append _ _).symm
        have hitem : Segment.item? ⟨shape, t.lexeme.toList⟩ (lastLine (before ++ t.lexeme.toList)) =
            some (.ok { t with line := lastLine (before ++ t.lexeme.toList) }) := by
          rw [Segment.item?, hkind, Option.map_some, String.ofList_toList]
        rw [Segment.items, hline, hitem, Segment.items_append, hnone, htext,
          ← Segment.lastLine_append, hitems, hspell, placed]
        simp only [List.append_assoc]
        rfl

theorem faults_map_ok (ts : List Token) : Item.faults (ts.map .ok) = [] := by
  induction ts with
  | nil => rfl
  | cons t ts ih => exact ih

private theorem map_placed {α : Type} {f : Token → α}
    (hf : ∀ t line, f { t with line := line } = f t)
    (pieces : List (Token × List Char)) : ∀ before : List Char,
      (placed before pieces).map f = pieces.map fun piece => f piece.1 := by
  induction pieces with
  | nil => exact fun before => rfl
  | cons piece more ih =>
      intro before
      rw [placed, List.map_cons, List.map_cons, ih, hf]

/-- **Tokens that are written out are scanned again.**  Set apart by gaps, with filler in front or
without, lexemes that fit give their tokens back: no faults, the same kinds, literals and lexemes
in the same order, each token on the line on which it ends, and the end mark behind them. -/
theorem scan_spellOut {lead : List Char} {pieces : List (Token × List Char)} (hlead : Filler lead)
    (hfits : ∀ piece ∈ pieces, piece.1.Fits) (hseparated : Separated pieces) :
    let items := scan (String.ofList (lead ++ spellOut pieces))
    items = (placed lead pieces).map .ok ++
        [.ok (.endOfFile (lastLine (lead ++ spellOut pieces)))] ∧
      Item.faults items = [] ∧
      (placed lead pieces).map (fun t => (t.kind, t.literal?, t.lexeme)) =
        pieces.map fun piece => (piece.1.kind, piece.1.literal?, piece.1.lexeme) := by
  have hscan : scan (String.ofList (lead ++ spellOut pieces)) = (placed lead pieces).map .ok ++
      [.ok (.endOfFile (lastLine (lead ++ spellOut pieces)))] := by
    obtain ⟨ss, hsplits, hitems⟩ := hseparated.splits hfits
    obtain ⟨fs, hfs, htext, hnone⟩ := Segment.splits_filler hlead hsplits
    rw [scan, String.toList_ofList, ← hfs.eq_split, Segment.items_append, hnone, htext]
    exact hitems lead
  refine ⟨hscan, ?_, map_placed (fun _ _ => rfl) pieces lead⟩
  rw [hscan, faults_append, faults_map_ok]
  rfl

/-- A comment in front, a name that begins like a keyword, a slash before a comment, and a string on
two lines. -/
theorem scan_spellOut_orchid :
    scan "// fruit\norchid /\t//\n\"a\nb\"" =
      [.ok ⟨.identifier, "orchid", 2⟩, .ok ⟨.symbol .slash, "/", 2⟩,
        .ok ⟨.string "a\nb", "\"a\nb\"", 4⟩, .ok (.endOfFile 4)] := by
  let pieces : List (Token × List Char) :=
    [(⟨.identifier, "orchid", 0⟩, [' ']), (⟨.symbol .slash, "/", 0⟩, ['\t', '/', '/', '\n']),
      (⟨.string "a\nb", "\"a\nb\"", 0⟩, [])]
  have hlead : Filler "// fruit\n".toList := .comment (by decide : '\n' ∉ " fruit".toList) .nil
  have hspace : Gap [' '] := ⟨' ', [], rfl, by decide, .nil⟩
  have hcomment : Gap ['\t', '/', '/', '\n'] :=
    ⟨'\t', _, rfl, by decide, .comment (List.not_mem_nil : '\n' ∉ []) .nil⟩
  have hname : Token.Fits ⟨.identifier, "orchid", 0⟩ :=
    .identifier (.of_all (by decide) (by decide)) fun k => by cases k <;> decide
  have hstring : Token.Fits ⟨.string "a\nb", "\"a\nb\"", 0⟩ :=
    .string (by decide : '"' ∉ "a\nb".toList)
  have hfits : ∀ piece ∈ pieces, piece.1.Fits :=
    List.forall_mem_cons.mpr ⟨hname, List.forall_mem_cons.mpr ⟨.symbol .slash,
      List.forall_mem_singleton.mpr hstring⟩⟩
  have hscan := scan_spellOut hlead hfits (.cons hspace (.cons hcomment (.last (.inl rfl))))
  exact hscan.1

end Lox
