/-
Scanning sources one below the other.

A newline ends every segment but a string that is not closed, so a source in which all
strings are closed is cut in the same places whatever stands on the lines below it.
What comes below is scanned as by itself, on lines further down.
-/
import Lox.Proofs.Lines.Relabel
import Lox.Proofs.Token.Scanning

namespace Lox

/-! ### Texts without layout -/

private theorem start_of_start_cons {c : Char} {v text more : List Char}
    (h : v <+: text ++ c :: more) (hv : c ∉ v) : v <+: text := by
  obtain ⟨rest, hrest⟩ := h
  rcases List.append_eq_append_iff.mp hrest with ⟨after, rfl, -⟩ | ⟨after, rfl, hafter⟩
  · exact List.prefix_append v after
  · cases after with
    | nil => exact ⟨[], by simp⟩
    | cons d after =>
        obtain ⟨rfl, -⟩ := List.cons.inj hafter
        simp at hv

theorem Longest.append_cons {P : List Char → Prop} {c : Char} (hP : ∀ v, P v → c ∉ v)
    {text w : List Char} (h : Longest P text w) (more : List Char) :
    Longest P (text ++ c :: more) w :=
  ⟨h.start.trans (List.prefix_append _ _), h.holds,
    fun v hstart hv => h.longest v (start_of_start_cons hstart (hP v hv)) hv⟩

/-- There are digits in a number, a point, and nothing else. -/
theorem NumberText.notMem {c : Char} {w : List Char} (h : NumberText w) (hdigit : ¬ IsDigit c)
    (hpoint : c ≠ '.') : c ∉ w := by
  obtain ⟨d, hd⟩ := h
  cases hd with
  | whole hne hds => exact fun hmem => hdigit (hds c hmem)
  | fraction hne hds hfne hfs =>
      simp only [List.mem_append, List.mem_cons]
      rintro (hmem | heq | hmem)
      · exact hdigit (hds c hmem)
      · exact hpoint heq
      · exact hdigit (hfs c hmem)

namespace IsLayout

variable {c : Char}

private theorem notMem_symbolText (hc : IsLayout c) (w : List Char) (h : SymbolText w) : c ∉ w := by
  obtain ⟨s, rfl⟩ := h
  rcases hc with rfl | rfl | rfl | rfl <;> cases s <;> decide

private theorem notMem_numberText (hc : IsLayout c) (w : List Char) (h : NumberText w) : c ∉ w := by
  refine h.notMem hc.not_isDigit ?_
  rcases hc with rfl | rfl | rfl | rfl <;> decide

private theorem notMem_wordText (hc : IsLayout c) (w : List Char) (h : WordText w) : c ∉ w := by
  obtain ⟨hfirst, hcs⟩ := h
  simp only [List.mem_cons]
  rintro (rfl | hmem)
  · exact hc.not_isLetter hfirst
  · exact (hcs c hmem).elim hc.not_isLetter hc.not_isDigit

end IsLayout

namespace Segment

/-! ### Segments before layout

What comes behind a text can change how it is cut, as a name or a number may go on
there.  Layout ends every segment but two, a string that is not closed and a comment;
and a newline ends a comment as well.
-/

/-- What begins a text begins it with layout and anything more behind as well, unless it is a string
that this might close, or a comment, which only a newline ends. -/
theorem Begins.append_layout {text : List Char} {s : Segment} {c : Char} (h : Begins text s)
    (hs : s.shape ≠ .unterminated) (hc : IsLayout c) (hcomment : s.shape = .comment → c = '\n')
    (more : List Char) : Begins (text ++ c :: more) s := by
  cases h with
  | blank hlayout => exact .blank hlayout
  | @comment body rest hbody hrest =>
      simp only [List.cons_append, List.append_assoc]
      refine .comment hbody ?_
      cases rest with
      | nil => exact fun d hd => (Option.some.inj hd).symm.trans (hcomment rfl)
      | cons d rest => exact hrest
  | symbol hslashes hlongest =>
      refine .symbol (fun hstart => hslashes ?_) (hlongest.append_cons hc.notMem_symbolText more)
      refine start_of_start_cons hstart ?_
      rcases hc with rfl | rfl | rfl | rfl <;> decide
  | string hcontents =>
      simp only [List.cons_append, List.append_assoc]
      exact .string hcontents
  | number hlongest => exact .number (hlongest.append_cons hc.notMem_numberText more)
  | word hlongest => exact .word (hlongest.append_cons hc.notMem_wordText more)
  | unterminated => exact absurd rfl hs
  | stray hlayout hquote hdigit hletter hsymbol =>
      exact .stray hlayout hquote hdigit hletter hsymbol

theorem isLayout_newline : IsLayout '\n' := .inr (.inr (.inr rfl))

theorem Splits.append_newline {text more : List Char} {ss ts : List Segment} (h : Splits text ss)
    (hss : ∀ s ∈ ss, s.shape ≠ .unterminated) (hmore : Splits more ts) :
    Splits (text ++ '\n' :: more) (ss ++ ⟨.blank, ['\n']⟩ :: ts) := by
  induction h with
  | nil =>
      exact .cons (s := ⟨.blank, ['\n']⟩) (.blank isLayout_newline) hmore
  | @cons s ss rest hbegins hrest ih =>
      obtain ⟨hs, hothers⟩ := List.forall_mem_cons.mp hss
      have hlonger := hbegins.append_layout hs isLayout_newline (fun _ => rfl) more
      rw [List.append_assoc] at hlonger ⊢
      exact .cons hlonger (ih hothers)

theorem split_append_newline {text : List Char}
    (h : ∀ s ∈ split text, s.shape ≠ .unterminated) (more : List Char) :
    split (text ++ '\n' :: more) = split text ++ ⟨.blank, ['\n']⟩ :: split more :=
  ((splits_iff.mpr rfl).append_newline h (splits_iff.mpr rfl)).eq_split.symm

/-! ### Items above and below

Scanning carries nothing along but the number of the line.  So items that stand further
down are the same items with their lines moved.
-/

/-- The items of segments that begin on this line, without the end mark. -/
def bodyItems (line : Nat) : List Segment → List Item
  | [] => []
  | s :: rest => (s.item? (line + s.newlines)).toList ++ bodyItems (line + s.newlines) rest

theorem items_append (ss ts : List Segment) : ∀ line : Nat,
    items line (ss ++ ts) =
      bodyItems line ss ++ items (line + (ss.flatMap Segment.text).count '\n') ts := by
  induction ss with
  | nil => exact fun line => rfl
  | cons s ss ih =>
      intro line
      rw [List.cons_append, items, ih, bodyItems, List.flatMap_cons, List.count_append,
        List.append_assoc, newlines, Nat.add_assoc]

private theorem items_eq_bodyItems (ss : List Segment) (line : Nat) :
    items line ss =
      bodyItems line ss ++ [.ok (.endOfFile (line + (ss.flatMap Segment.text).count '\n'))] := by
  have h := items_append ss [] line
  rwa [List.append_nil] at h

end Segment

def LexicalFault.relabel (ρ : Nat → Nat) (f : LexicalFault) : LexicalFault :=
  { f with line := ρ f.line }

def Item.relabel (ρ : Nat → Nat) : Item → Item
  | .ok token => .ok (token.relabel ρ)
  | .error fault => .error (fault.relabel ρ)

namespace Segment

private theorem item?_relabel (s : Segment) (line k : Nat) :
    s.item? (line + k) = (s.item? line).map (Item.relabel (· + k)) := by
  simp only [item?, Option.map_map]
  congr 1
  funext kind
  cases kind <;> rfl

private theorem items_relabel (k : Nat) : ∀ (ss : List Segment) (line : Nat),
    items (line + k) ss = (items line ss).map (Item.relabel (· + k)) := by
  intro ss
  induction ss with
  | nil => exact fun line => rfl
  | cons s ss ih =>
      intro line
      simp only [items, List.map_append]
      rw [Nat.add_right_comm line k, ih, item?_relabel]
      cases s.item? (line + s.newlines) <;> rfl

/-- A string that is not closed is a fault. -/
theorem exists_fault_of_unterminated {s : Segment} (hs : s.shape = .unterminated) :
    ∀ (ss : List Segment) (line : Nat), s ∈ ss →
      ∃ f ∈ Item.faults (items line ss), f.cause = .unterminatedString := by
  intro ss
  induction ss with
  | nil => exact fun _ hmem => absurd hmem List.not_mem_nil
  | cons first ss ih =>
      intro line hmem
      rw [items, Item.faults, List.filterMap_append]
      rcases List.mem_cons.mp hmem with rfl | hmem
      · refine ⟨⟨line + s.newlines, .unterminatedString⟩, List.mem_append_left _ ?_, rfl⟩
        simp [item?, kind?, hs]
      · obtain ⟨f, hf, hcause⟩ := ih (line + first.newlines) hmem
        exact ⟨f, List.mem_append_right _ hf, hcause⟩

private theorem kind?_ne_endOfFile (s : Segment) : s.kind? ≠ some (.ok .endOfFile) := by
  obtain ⟨shape, text⟩ := s
  cases shape with
  | word =>
      simp only [kind?, Token.Kind.ofWord]
      split <;> simp
  | _ => simp [kind?]

/-- Only the end mark is an end mark. -/
theorem isEnd_of_mem_bodyItems {token : Token} : ∀ (ss : List Segment) (line : Nat),
    .ok token ∈ bodyItems line ss → token.isEnd = false := by
  intro ss
  induction ss with
  | nil => exact fun _ hmem => nomatch hmem
  | cons s ss ih =>
      intro line hmem
      rw [bodyItems, List.mem_append] at hmem
      rcases hmem with hmem | hmem
      · obtain ⟨kind, hkind, heq⟩ := Option.map_eq_some_iff.mp (Option.mem_toList.mp hmem)
        cases kind with
        | error cause => exact nomatch heq
        | ok kind =>
            cases heq
            refine decide_eq_false fun hend => s.kind?_ne_endOfFile ?_
            rw [hkind]
            exact congrArg _ (congrArg _ hend)
      · exact ih _ hmem

end Segment

/-! ### Sources above and below -/

/-- The tokens of a source without the end mark. -/
def sourceTokens (source : String) : List Token :=
  Item.tokens (Segment.bodyItems 1 (Segment.split source.toList))

/-- The line on which a source ends. -/
def sourceEnd (source : String) : Nat := Segment.lastLine source.toList

theorem tokens_append (items others : List Item) :
    Item.tokens (items ++ others) = Item.tokens items ++ Item.tokens others :=
  List.filterMap_append

theorem faults_append (items others : List Item) :
    Item.faults (items ++ others) = Item.faults items ++ Item.faults others :=
  List.filterMap_append

theorem tokens_relabel (ρ : Nat → Nat) (items : List Item) :
    Item.tokens (items.map (Item.relabel ρ)) = (Item.tokens items).map (Token.relabel ρ) := by
  induction items with
  | nil => rfl
  | cons item items ih =>
      cases item with
      | ok token => exact congrArg _ ih
      | error fault => exact ih

theorem faults_relabel (ρ : Nat → Nat) (items : List Item) :
    Item.faults (items.map (Item.relabel ρ)) =
      (Item.faults items).map (LexicalFault.relabel ρ) := by
  induction items with
  | nil => rfl
  | cons item items ih =>
      cases item with
      | ok token => exact ih
      | error fault => exact congrArg _ ih

theorem scan_eq (source : String) :
    scan source = Segment.bodyItems 1 (Segment.split source.toList) ++
      [.ok (.endOfFile (sourceEnd source))] := by
  rw [scan, Segment.items_eq_bodyItems, Segment.split_flatMap]
  rfl

theorem tokens_scan (source : String) :
    Item.tokens (scan source) = sourceTokens source ++ [.endOfFile (sourceEnd source)] := by
  rw [scan_eq, tokens_append]
  rfl

theorem faults_scan (source : String) :
    Item.faults (scan source) =
      Item.faults (Segment.bodyItems 1 (Segment.split source.toList)) := by
  rw [scan_eq, faults_append]
  exact List.append_nil _

theorem isEnd_of_mem_sourceTokens {source : String} :
    ∀ token ∈ sourceTokens source, token.isEnd = false := by
  intro token hmem
  obtain ⟨item, hitem, htoken⟩ := List.mem_filterMap.mp hmem
  cases item with
  | error fault => exact nomatch htoken
  | ok _ =>
      cases htoken
      exact Segment.isEnd_of_mem_bodyItems _ _ hitem

/-- What stands below a source in which all strings are closed is scanned as by itself, only further
down. -/
theorem scan_below_of_closed {above : String}
    (h : ∀ f ∈ Item.faults (scan above), f.cause ≠ .unterminatedString) (below : String) :
    scan (above ++ "\n" ++ below) = Segment.bodyItems 1 (Segment.split above.toList) ++
      (scan below).map (Item.relabel (· + sourceEnd above)) := by
  have hlist : (above ++ "\n" ++ below).toList = above.toList ++ '\n' :: below.toList := by
    simp
  have hshapes : ∀ s ∈ Segment.split above.toList, s.shape ≠ .unterminated := by
    intro s hmem hs
    obtain ⟨f, hf, hcause⟩ := Segment.exists_fault_of_unterminated hs _ 1 hmem
    exact h f hf hcause
  rw [scan, hlist, Segment.split_append_newline hshapes, Segment.items_append,
    Segment.split_flatMap, Segment.items, scan, ← Segment.items_relabel]
  congr 1
  rw [show (⟨.blank, ['\n']⟩ : Segment).item? _ = none from rfl]
  simp [Segment.newlines, sourceEnd, Segment.lastLine, Nat.add_comm]

/-- **What stands below a source without faults is scanned as by itself, only further down.** -/
theorem scan_below {above : String} (h : Item.faults (scan above) = []) (below : String) :
    scan (above ++ "\n" ++ below) = Segment.bodyItems 1 (Segment.split above.toList) ++
      (scan below).map (Item.relabel (· + sourceEnd above)) := by
  refine scan_below_of_closed (fun f hf => ?_) below
  rw [h] at hf
  exact absurd hf List.not_mem_nil

theorem LexicalCause.message_eq_iff {cause : LexicalCause} :
    cause.message = "Unterminated string." ↔ cause = .unterminatedString := by
  cases cause <;> decide

/-- **A newline cuts every source in two that are scanned by themselves**, unless it stands in a
string.  The items above it are those of the first source, faults included, but for the end mark;
the items below it are those of the second, on lines further down. -/
theorem scan_append_newline {above : String}
    (h : ∀ f ∈ Item.faults (scan above), f.diagnostic.message ≠ "Unterminated string.")
    (below : String) :
    ∃ items, scan above = items ++ [.ok (.endOfFile (1 + above.toList.count '\n'))] ∧
      scan (above ++ "\n" ++ below) =
        items ++ (scan below).map (Item.relabel (· + (1 + above.toList.count '\n'))) := by
  refine ⟨_, scan_eq above, scan_below_of_closed (fun f hf hcause => ?_) below⟩
  exact h f hf (LexicalCause.message_eq_iff.mpr hcause)

/-- A stray character and half an operator: nothing that stands below makes up for them. -/
theorem scan_append_newline_halfOperator :
    (∀ f ∈ Item.faults (scan "@ <"), f.diagnostic.message ≠ "Unterminated string.") ∧
      scan "@ <\n= x" = [.error ⟨1, .unexpectedCharacter⟩, .ok ⟨.symbol .less, "<", 1⟩,
        .ok ⟨.symbol .equal, "=", 2⟩, .ok ⟨.identifier, "x", 2⟩, .ok (.endOfFile 2)] := by
  have hfaults : Item.faults (scan "@ <") = [⟨1, .unexpectedCharacter⟩] := by decide +kernel
  have h : ∀ f ∈ Item.faults (scan "@ <"), f.diagnostic.message ≠ "Unterminated string." := by
    rw [hfaults]
    decide
  have habove : scan "@ <" = [.error ⟨1, .unexpectedCharacter⟩, .ok ⟨.symbol .less, "<", 1⟩] ++
      [.ok (.endOfFile 1)] := rfl
  have hbelow : scan "= x" = [.ok ⟨.symbol .equal, "=", 1⟩, .ok ⟨.identifier, "x", 1⟩,
      .ok (.endOfFile 1)] := rfl
  obtain ⟨items, hitems, hscan⟩ := scan_append_newline h "= x"
  rw [habove] at hitems
  obtain rfl := List.append_inj_left' hitems rfl
  rw [hbelow] at hscan
  exact ⟨h, hscan⟩

end Lox
