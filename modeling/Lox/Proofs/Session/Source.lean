/-
Sources that are run, and sources joined by newlines.

A source without static faults is run as the statements it is parsed into.  Joined
by newlines such sources are one more, and its statements are theirs, with the lines
of each moved down by all that stands above it.
-/
import Lox.Proofs.Lines.Grammar
import Lox.Proofs.Token.Joining
import Lox.Session

namespace Lox

open Lox.Parser

/-- The source has neither lexical nor syntactic faults. -/
def Accepted (source : String) : Prop :=
  Item.faults (scan source) = [] ∧ (parse (Item.tokens (scan source))).faults = []

instance : DecidablePred Accepted := fun _ => inferInstanceAs (Decidable (_ ∧ _))

/-- The statements a source is parsed into. -/
def statementsOf (source : String) : List Stmt := (parse (Item.tokens (scan source))).statements

/-! ### Statements of a source -/

theorem written_of_accepted {source : String} (h : Accepted source) :
    (Clause.declarations false (statementsOf source)).Written (sourceTokens source) := by
  obtain ⟨-, hfaults⟩ := h
  have hend : (Token.endOfFile (sourceEnd source)).isEnd = true := rfl
  rw [← parse_append_eq_iff isEnd_of_mem_sourceTokens hend, ← tokens_scan, ← hfaults]
  rfl

/-- Statements that can be written with a source's tokens are those of the source. -/
theorem accepted_of_written {source : String} {ss : List Stmt}
    (hlexical : Item.faults (scan source) = [])
    (hwritten : (Clause.declarations false ss).Written (sourceTokens source)) :
    Accepted source ∧ statementsOf source = ss := by
  have hend : (Token.endOfFile (sourceEnd source)).isEnd = true := rfl
  have hparse := (parse_append_eq_iff isEnd_of_mem_sourceTokens hend).mpr hwritten
  rw [← tokens_scan] at hparse
  exact ⟨⟨hlexical, by rw [hparse]⟩, by rw [statementsOf, hparse]⟩

/-! ### One source below another

What stands above must be free of faults, or a string that it leaves open would take in
what stands below.  Then the tokens of the whole are those of both sources, and
declarations behind declarations are declarations.
-/

private theorem sourceTokens_below {above : String} (h : Item.faults (scan above) = [])
    (below : String) : sourceTokens (above ++ "\n" ++ below) =
      sourceTokens above ++ (sourceTokens below).map (Token.relabel (· + sourceEnd above)) := by
  have htokens := tokens_scan (above ++ "\n" ++ below)
  rw [scan_below h, tokens_append, tokens_relabel, tokens_scan, List.map_append,
    ← List.append_assoc] at htokens
  exact (List.append_inj_left' htokens rfl).symm

private theorem faults_below {above : String} (h : Item.faults (scan above) = []) (below : String) :
    Item.faults (scan (above ++ "\n" ++ below)) =
      (Item.faults (scan below)).map (LexicalFault.relabel (· + sourceEnd above)) := by
  rw [scan_below h, faults_append, faults_relabel, ← faults_scan, h, List.nil_append]

/-- **A source below another adds its statements, on lines further down.** -/
theorem accepted_below {above below : String} (ha : Accepted above) (hb : Accepted below) :
    Accepted (above ++ "\n" ++ below) ∧ statementsOf (above ++ "\n" ++ below) =
      statementsOf above ++
        Stmt.relabelList (· + sourceEnd above) (statementsOf below) := by
  have hmoved := (written_of_accepted hb).relabel (ρ := (· + sourceEnd above))
  have hwritten := (written_of_accepted ha).append hmoved
  rw [← sourceTokens_below ha.1] at hwritten
  refine accepted_of_written ?_ hwritten
  rw [faults_below ha.1, hb.1, List.map_nil]

/-! ### Many sources -/

/-- How far down the source of this number is moved by those above it. -/
def offset : List String → Nat → Nat
  | source :: sources, i + 1 => offset sources i + sourceEnd source
  | _, _ => 0

/-- The statements of sources, with the lines of each renamed in its own way. -/
def labelled (ρ : Nat → Nat → Nat) (sources : List String) : List (List Stmt) :=
  sources.mapIdx fun i source => Stmt.relabelList (ρ i) (statementsOf source)

theorem labelled_cons (ρ : Nat → Nat → Nat) (source : String) (sources : List String) :
    labelled ρ (source :: sources) =
      Stmt.relabelList (ρ 0) (statementsOf source) :: labelled (fun i => ρ (i + 1)) sources :=
  List.mapIdx_cons

/-- Renaming the lines of all of them afterwards is one renaming for each. -/
theorem labelled_relabel (ρ : Nat → Nat → Nat) (σ : Nat → Nat) (sources : List String) :
    (labelled ρ sources).map (Stmt.relabelList σ) = labelled (fun i => σ ∘ ρ i) sources := by
  induction sources generalizing ρ with
  | nil => rfl
  | cons source sources ih =>
      rw [labelled_cons, labelled_cons, List.map_cons, Stmt.relabelList_relabelList, ih]

theorem relabelList_flatten (ρ : Nat → Nat) (programs : List (List Stmt)) :
    Stmt.relabelList ρ programs.flatten = (programs.map (Stmt.relabelList ρ)).flatten := by
  have hmap : Stmt.relabelList ρ = List.map (Stmt.relabel ρ) :=
    funext (Stmt.relabelList_eq_map ρ)
  rw [hmap, List.map_flatten]

/-- The sources one below the other. -/
def joined (sources : List String) : String := "\n".intercalate sources

private theorem joined_cons_cons (first second : String) (sources : List String) :
    joined (first :: second :: sources) = first ++ "\n" ++ joined (second :: sources) :=
  String.intercalate_cons_cons

theorem accepted_empty : Accepted "" ∧ statementsOf "" = [] := by
  constructor
  · decide
  · rfl

/-- **Joined by newlines, sources without faults are a source without faults.** -/
theorem accepted_joined {sources : List String} (h : ∀ source ∈ sources, Accepted source) :
    Accepted (joined sources) ∧
      statementsOf (joined sources) =
        (labelled (fun i => (· + offset sources i)) sources).flatten := by
  induction sources with
  | nil => exact accepted_empty
  | cons first sources ih =>
      obtain ⟨hfirst, hmore⟩ := List.forall_mem_cons.mp h
      have hfirstLabel : Stmt.relabelList (· + offset (first :: sources) 0) (statementsOf first) =
          statementsOf first := Stmt.relabelList_id _
      rw [labelled_cons]
      cases sources with
      | nil =>
          refine ⟨hfirst, ?_⟩
          rw [show labelled _ [] = [] from rfl, List.flatten_cons, List.flatten_nil,
            List.append_nil, hfirstLabel]
          rfl
      | cons second sources =>
          obtain ⟨hrest, hstatements⟩ := ih hmore
          rw [joined_cons_cons]
          obtain ⟨haccepted, hsum⟩ := accepted_below hfirst hrest
          refine ⟨haccepted, ?_⟩
          rw [hsum, hstatements, relabelList_flatten, labelled_relabel, List.flatten_cons,
            hfirstLabel]
          congr 3
          funext i
          exact funext fun line => Nat.add_assoc _ _ _

end Lox
