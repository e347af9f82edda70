/-
What survives a bad parse.

A program with faults still gives statements, namely the declarations in which no
fault was reported.  Each of them was read from tokens of its own, one behind the
other, and those tokens alone are parsed as that one statement: nothing that stands
in front of it or behind it, and no fault on the way there, has left a trace in it.

The invariant is on the list of declarations.  A declaration either was read without
a fault, and then it is written with the tokens it took, or is dropped, and then its
tokens are a gap.  That no declaration takes the end mark, whatever it does to recover,
is what `Parser.Matches` says of tokens that are their own counterparts.
-/
import Lox.Proofs.Grammar.Replies
import Lox.Proofs.Pairing.Parsing

namespace Lox

/-- The segments stand in the list in this order, one behind the other, with gaps between them. -/
inductive Scattered {α : Type} : List (List α) → List α → Prop where
  | none (rest : List α) : Scattered [] rest
  | next (gap segment : List α) {segments : List (List α)} {rest : List α}
      (hrest : Scattered segments rest) : Scattered (segment :: segments) (gap ++ segment ++ rest)

namespace Scattered

variable {α : Type} {segments : List (List α)} {rest : List α}

/-- More in front of the first segment. -/
theorem behind (gap : List α) (h : Scattered segments rest) : Scattered segments (gap ++ rest) := by
  cases h with
  | none => exact .none _
  | next gap' segment hrest =>
      rw [← List.append_assoc, ← List.append_assoc]
      exact .next (gap ++ gap') segment hrest

theorem cons (segment : List α) (h : Scattered segments rest) :
    Scattered (segment :: segments) (segment ++ rest) := .next [] segment h

theorem subset (h : Scattered segments rest) : ∀ segment ∈ segments, segment ⊆ rest := by
  induction h with
  | none => exact fun _ hmem => absurd hmem List.not_mem_nil
  | next gap segment _ ih =>
      refine List.forall_mem_cons.mpr ⟨fun a ha => ?_, fun other hother a ha => ?_⟩
      · exact List.mem_append_left _ (List.mem_append_right _ ha)
      · exact List.mem_append_right _ (ih other hother ha)

end Scattered

namespace Parser

/-- A declaration leaves the end of the program where it is. -/
theorem declaration_leaves (insideFunction : Bool) {tail : List Token}
    (h : (tail.headD missingEnd).isEnd = true) (ts : List Token) :
    ∃ left, left <:+ ts ∧ (declaration insideFunction (ts ++ tail)).rest = left ++ tail := by
  obtain ⟨left, -, hsuffix, -, hrest, -⟩ :=
    (Matches.declaration (E := ⟨tail, tail, h, rfl⟩) insideFunction ts ts
      (Token.Pairing.identity_pairs ts)).rest
  exact ⟨left, hsuffix, hrest⟩

/-- A declaration is read without a fault, or else dropped with one. -/
theorem declaration_cases (insideFunction : Bool) (tokens : List Token) :
    (∃ s rest, (declaration insideFunction).Reads tokens (some s) rest) ∨
      ∃ faults rest, faults ≠ [] ∧ declaration insideFunction tokens = ⟨some none, faults, rest⟩ := by
  have hreason := (Composed.declarationBody (Composed.statement insideFunction)
    (.declaration true)).givesReason tokens
  simp only [Reads, declaration_apply, recovering]
  generalize declarationBody (statement insideFunction) (declaration true) tokens = reply at *
  obtain ⟨result, faults, rest⟩ := reply
  cases result with
  | none => exact .inr ⟨faults, synchronized rest, hreason rfl, rfl⟩
  | some s =>
      cases faults with
      | nil => exact .inl ⟨s, rest, rfl⟩
      | cons fault faults => exact .inr ⟨fault :: faults, rest, List.cons_ne_nil _ _, rfl⟩

/-- **The statements of a list of declarations are written in it here and there, and everywhere
if nothing was reported.** -/
theorem declarations_scattered {tail : List Token} (htail : (tail.headD missingEnd).isEnd = true) :
    ∀ (bound ts : List Token), (∀ token ∈ ts, token.isEnd = false) → ts.length ≤ bound.length →
      ∃ ss faults rest segments,
        declarations Token.isEnd (declaration false) bound (ts ++ tail) = ⟨some ss, faults, rest⟩ ∧
        List.Forall₂ (fun s us => (Clause.declaration false s).Written us) ss segments ∧
        Scattered segments ts ∧ (faults = [] → segments.flatten = ts) := by
  intro bound
  induction bound with
  | nil =>
      intro ts _ hlength
      have hnil : ts = [] := List.eq_nil_of_length_eq_zero (Nat.le_zero.mp hlength)
      subst hnil
      exact ⟨[], [], tail, [], rfl, .nil, .none [], fun _ => rfl⟩
  | cons token bound ih =>
      intro ts hts hlength
      cases ts with
      | nil => exact ⟨[], [], tail, [], declarations_of_stop htail _, .nil, .none [], fun _ => rfl⟩
      | cons t more =>
          have hstop : ((t :: more ++ tail).headD missingEnd).isEnd = false := hts t List.mem_cons_self
          obtain ⟨left, ⟨taken, htaken⟩, hrest⟩ := declaration_leaves false htail (t :: more)
          have hadvance := declaration_advances false t (more ++ tail) (hts t List.mem_cons_self)
          have hshort : left.length ≤ bound.length := by
            rw [← List.cons_append, hrest] at hadvance
            simp only [List.length_append, List.length_cons] at hadvance hlength
            omega
          have hleft : ∀ token ∈ left, token.isEnd = false := fun token hmem =>
            hts token (htaken ▸ List.mem_append_right taken hmem)
          obtain ⟨ss, faults, rest, segments, hmore, hsegments, hscattered, hall⟩ :=
            ih left hleft hshort
          rcases declaration_cases false (t :: more ++ tail) with
            ⟨s, mid, hread⟩ | ⟨first, mid, hfirst, hdropped⟩
          · have hmid : mid = left ++ tail := by rw [← hrest, hread]
            subst hmid
            obtain ⟨us, htokens, s', hs', hwritten⟩ := sound_declaration false _ _ _ hread
            obtain rfl := Option.some.inj hs'
            have hus : taken = us := by
              rw [← htaken, List.append_assoc, List.append_cancel_right_eq] at htokens
              exact htokens
            subst hus
            refine ⟨s :: ss, faults, rest, taken :: segments,
              declarations_cons hstop hread hmore, .cons hwritten hsegments, ?_, ?_⟩
            · rw [← htaken]
              exact hscattered.cons taken
            · intro hnone
              rw [List.flatten_cons, hall hnone, htaken]
          · have hmid : mid = left ++ tail := by rw [← hrest, hdropped]
            subst hmid
            refine ⟨ss, first ++ faults, rest, segments,
              declarations_cons hstop hdropped hmore, hsegments, ?_, ?_⟩
            · rw [← htaken]
              exact hscattered.behind taken
            · intro hnone
              exact absurd (List.append_eq_nil_iff.mp hnone).1 hfirst

end Parser

open Lox.Parser

/-- The statements that parsing gives are written with segments of the tokens. -/
theorem parse_scattered (tokens : List Token) :
    ∃ segments : List (List Token),
      List.Forall₂ (fun s us => (Clause.declaration false s).Written us) (parse tokens).statements
        segments ∧
      Scattered segments (tokens.takeWhile (!·.isEnd)) ∧
      ((parse tokens).faults = [] → segments.flatten = tokens.takeWhile (!·.isEnd)) := by
  have hbefore : ∀ token ∈ tokens.takeWhile (!·.isEnd), token.isEnd = false := by
    intro token hmem
    simpa using List.all_eq_true.mp List.all_takeWhile token hmem
  have hend : ((tokens.dropWhile (!·.isEnd)).headD missingEnd).isEnd = true := by
    have hhead := List.head?_dropWhile_not (!·.isEnd) tokens
    cases hdrop : tokens.dropWhile (!·.isEnd) with
    | nil => rfl
    | cons mark rest =>
        rw [hdrop] at hhead
        simpa using hhead
  obtain ⟨ss, faults, rest, segments, hread, hwritten, hscattered, hall⟩ :=
    declarations_scattered hend tokens _ hbefore (List.takeWhile_prefix _).length_le
  rw [List.takeWhile_append_dropWhile] at hread
  have hparse : parse tokens = ⟨ss, faults⟩ := by
    show Parsed.mk ((declarations Token.isEnd (declaration false) tokens tokens).result.getD [])
      (declarations Token.isEnd (declaration false) tokens tokens).faults = _
    rw [hread]
    rfl
  rw [hparse]
  exact ⟨segments, hwritten, hscattered, hall⟩

/-- **Only good code survives a bad parse.**  Whatever the tokens, the statements that parsing
gives belong to segments of the tokens before the end mark, one behind the other, and each
segment alone is parsed as its statement and nothing else, without a fault.  If nothing was
reported, the segments are all the tokens before the end mark. -/
theorem parse_survivors (tokens : List Token) :
    ∃ segments : List (List Token),
      List.Forall₂ (fun s segment => ∀ lexeme line,
          parse (segment ++ [⟨.endOfFile, lexeme, line⟩]) = ⟨[s], []⟩)
        (parse tokens).statements segments ∧
      Scattered segments (tokens.takeWhile (!·.isEnd)) ∧
      ((parse tokens).faults = [] → segments.flatten = tokens.takeWhile (!·.isEnd)) := by
  obtain ⟨segments, hwritten, hscattered, hall⟩ := parse_scattered tokens
  refine ⟨segments, hwritten.imp fun s us hus lexeme line => ?_, hscattered, hall⟩
  have halone : (Clause.declarations false [s]).Written us := by
    rw [← List.append_nil us]
    exact .cons hus .nil
  exact (parse_append_eq_iff halone.isEnd_eq_false rfl).mpr halone

end Lox
