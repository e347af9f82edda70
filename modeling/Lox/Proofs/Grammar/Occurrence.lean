/-
The expressions of a source.

Whatever parsing leaves of a source, its statements are written with tokens of the
source.  So an expression that stands in one of them, or in another expression there,
has the shape of parsed ones, and the lexemes of its tokens are those of their kinds.
What holds of a sound expression holds of all that is in it, so it is enough to look at
the statements.
-/
import Lox.Proofs.Grammar.Equality
import Lox.Proofs.Grammar.Survivors
import Lox.Proofs.Session.Source
import Lox.Proofs.Token.Spelling

namespace Lox

/-! ### Expressions and what is in them -/

/-- The expression has the shape of parsed ones, and its tokens have lexemes that fit. -/
structure Expr.Sound (e : Expr) : Prop where
  /-- Its operands bind as tightly as the places require in which they stand. -/
  shaped : e.Shaped
  /-- Each token has the lexeme that its kind is scanned from. -/
  fits : MadeOf Token.Fits e.pieces

namespace Expr

mutual

/-- An expression, and the expressions in it. -/
def parts : Expr → List Expr
  | assign name value => assign name value :: value.parts
  | binary left op right => binary left op right :: (left.parts ++ right.parts)
  | call callee paren arguments =>
    call callee paren arguments :: (callee.parts ++ partsAll arguments)
  | get object name => get object name :: object.parts
  | grouping inner => grouping inner :: inner.parts
  | literal value => [literal value]
  | logical left op right => logical left op right :: (left.parts ++ right.parts)
  | set object name value => set object name value :: (object.parts ++ value.parts)
  | super keyword method => [super keyword method]
  | this keyword => [this keyword]
  | unary op right => unary op right :: right.parts
  | var name => [var name]

def partsAll : List Expr → List Expr
  | [] => []
  | e :: es => e.parts ++ partsAll es

end

theorem parts_subset_partsAll {es : List Expr} : ∀ e ∈ es, e.parts ⊆ partsAll es := by
  induction es with
  | nil => exact fun _ hmem => absurd hmem List.not_mem_nil
  | cons e es ih =>
      refine List.forall_mem_cons.mpr ⟨List.subset_append_left _ _, fun other hother => ?_⟩
      exact List.subset_append_of_subset_right _ (ih other hother)

theorem mem_parts_self (e : Expr) : e ∈ e.parts := by
  cases e <;> exact List.mem_cons_self

end Expr

/-- The expression is one of those that parsing leaves of the source, or in one of them. -/
def OccursIn (source : String) (e : Expr) : Prop :=
  ∃ whole ∈ Stmt.expressionsList (statementsOf source), e ∈ whole.parts

/-! ### The parts of sound expressions

Soundness of an expression is said of all its pieces at once, and its parts have some of
these.  They are taken out one constructor at a time; the list of parts is then gone
through by recursion on the tree.
-/

private theorem Expr.shaped_of_mem : ∀ {es : List Expr}, ShapedList es → ∀ e ∈ es, e.Shaped
  | [], _ => fun _ hmem => absurd hmem List.not_mem_nil
  | _ :: _, h => List.forall_mem_cons.mpr ⟨h.1, shaped_of_mem h.2⟩

namespace Expr.Sound

variable {left right callee inner value : Expr} {name op paren : Token} {arguments : List Expr}

theorem assign (h : (Expr.assign name value).Sound) :
    name.kind = .identifier ∧ name.Fits ∧ value.Sound := by
  obtain ⟨⟨hname, hvalue⟩, hfits⟩ := h
  simp only [pieces, MadeOf.cons_iff, MadeOf.kept_iff] at hfits
  exact ⟨hname, hfits.1, hvalue, hfits.2.2⟩

theorem binary (h : (Expr.binary left op right).Sound) :
    (∃ k, binaryStrength? op.kind = some k) ∧ op.Fits ∧ left.Sound ∧ right.Sound := by
  obtain ⟨⟨k, hk, hleft, -, hright, -⟩, hfits⟩ := h
  simp only [pieces, MadeOf.append_iff, MadeOf.cons_iff, MadeOf.kept_iff] at hfits
  exact ⟨⟨k, hk⟩, hfits.2.1, ⟨hleft, hfits.1⟩, ⟨hright, hfits.2.2⟩⟩

theorem logical (h : (Expr.logical left op right).Sound) :
    (∃ k, logicalStrength? op.kind = some k) ∧ op.Fits ∧ left.Sound ∧ right.Sound := by
  obtain ⟨⟨k, hk, hleft, -, hright, -⟩, hfits⟩ := h
  simp only [pieces, MadeOf.append_iff, MadeOf.cons_iff, MadeOf.kept_iff] at hfits
  exact ⟨⟨k, hk⟩, hfits.2.1, ⟨hleft, hfits.1⟩, ⟨hright, hfits.2.2⟩⟩

theorem grouping (h : (Expr.grouping inner).Sound) : inner.Sound := by
  obtain ⟨hinner, hfits⟩ := h
  simp only [pieces, MadeOf.append_iff, MadeOf.cons_iff] at hfits
  exact ⟨hinner, hfits.2.1⟩

theorem unary (h : (Expr.unary op right).Sound) :
    (op.kind = .symbol .bang ∨ op.kind = .symbol .minus) ∧ op.Fits ∧ right.Sound := by
  obtain ⟨⟨hop, hright, -⟩, hfits⟩ := h
  simp only [pieces, MadeOf.cons_iff, MadeOf.kept_iff] at hfits
  exact ⟨hop, hfits.1, hright, hfits.2⟩

theorem var (h : (Expr.var name).Sound) : name.kind = .identifier ∧ name.Fits := by
  obtain ⟨hname, hfits⟩ := h
  simp only [pieces, MadeOf.cons_iff, MadeOf.kept_iff] at hfits
  exact ⟨hname, hfits.1⟩

theorem call (h : (Expr.call callee paren arguments).Sound) :
    callee.Sound ∧ paren.kind = .symbol .rightParen ∧ paren.Fits ∧ ∀ e ∈ arguments, e.Sound := by
  obtain ⟨⟨hcallee, -, hparen, harguments, -⟩, hfits⟩ := h
  simp only [pieces, MadeOf.append_iff, MadeOf.cons_iff, MadeOf.kept_iff] at hfits
  obtain ⟨hcalleeFits, -, hargumentsFits, hparenFits, -⟩ := hfits
  exact ⟨⟨hcallee, hcalleeFits⟩, hparen, hparenFits, fun e hmem =>
    ⟨shaped_of_mem harguments e hmem, hargumentsFits.of_arguments e hmem⟩⟩

end Expr.Sound

namespace Expr

mutual

/-- What is in a sound expression is sound. -/
theorem Sound.of_mem_parts : ∀ {e : Expr}, e.Sound → ∀ part ∈ e.parts, part.Sound
  | .assign _ _, h => List.forall_mem_cons.mpr ⟨h, h.assign.2.2.of_mem_parts⟩
  | .binary _ _ _, h => List.forall_mem_cons.mpr ⟨h, List.forall_mem_append.mpr
      ⟨h.binary.2.2.1.of_mem_parts, h.binary.2.2.2.of_mem_parts⟩⟩
  | .call _ _ _, h => List.forall_mem_cons.mpr ⟨h, List.forall_mem_append.mpr
      ⟨h.call.1.of_mem_parts, Sound.of_mem_partsAll h.call.2.2.2⟩⟩
  | .get _ _, h => h.shaped.elim
  | .grouping _, h => List.forall_mem_cons.mpr ⟨h, h.grouping.of_mem_parts⟩
  | .literal _, h => List.forall_mem_singleton.mpr h
  | .logical _ _ _, h => List.forall_mem_cons.mpr ⟨h, List.forall_mem_append.mpr
      ⟨h.logical.2.2.1.of_mem_parts, h.logical.2.2.2.of_mem_parts⟩⟩
  | .set _ _ _, h => h.shaped.elim
  | .super _ _, h => h.shaped.elim
  | .this _, h => h.shaped.elim
  | .unary _ _, h => List.forall_mem_cons.mpr ⟨h, h.unary.2.2.of_mem_parts⟩
  | .var _, h => List.forall_mem_singleton.mpr h

theorem Sound.of_mem_partsAll : ∀ {es : List Expr}, (∀ e ∈ es, e.Sound) →
    ∀ part ∈ partsAll es, part.Sound
  | [], _ => fun _ hmem => absurd hmem List.not_mem_nil
  | _ :: _, h => by
      obtain ⟨he, hes⟩ := List.forall_mem_cons.mp h
      exact List.forall_mem_append.mpr ⟨he.of_mem_parts, Sound.of_mem_partsAll hes⟩

end

end Expr

namespace Stmt

private theorem sound_of_optional {before : List Piece} {value : Option Expr}
    (hshaped : ∀ e ∈ value, e.Shaped) (hfits : MadeOf Token.Fits (optionalPieces before value)) :
    ∀ e ∈ value.toList, e.Sound := by
  intro e hmem
  have hvalue : e ∈ value := Option.mem_toList.mp hmem
  exact ⟨hshaped e hvalue, hfits.of_optional e hvalue⟩

mutual

/-- The expressions of a statement are sound if it has the shape of parsed ones, and its tokens have
lexemes that fit. -/
theorem sound_of_mem_expressions : ∀ {f : Bool} {s : Stmt}, s.Shaped f →
    MadeOf Token.Fits s.pieces → ∀ e ∈ s.expressions, e.Sound
  | _, block body, hs, hfits => by
      simp only [pieces, MadeOf.cons_iff, MadeOf.append_iff] at hfits
      exact sound_of_mem_expressionsList hs hfits.2.1
  | _, expression value, hs, hfits => by
      simp only [pieces, MadeOf.append_iff] at hfits
      exact List.forall_mem_singleton.mpr ⟨hs, hfits.1⟩
  | _, function name params body, hs, hfits => by
      simp only [pieces, MadeOf.cons_iff, MadeOf.append_iff] at hfits
      obtain ⟨-, -, -, -, -, -, hbody, -⟩ := hfits
      exact sound_of_mem_expressionsList hs.2.2.2 hbody
  | _, conditional condition thenBranch elseBranch, hs, hfits => by
      simp only [pieces, MadeOf.cons_iff, MadeOf.append_iff] at hfits
      obtain ⟨-, -, hcondition, -, hthen, helse⟩ := hfits
      refine List.forall_mem_cons.mpr ⟨⟨hs.1, hcondition⟩, List.forall_mem_append.mpr ⟨?_, ?_⟩⟩
      · exact sound_of_mem_expressions hs.2.1 hthen
      · exact sound_of_mem_expressionsElse hs.2.2.2.2 helse
  | _, print value, hs, hfits => by
      simp only [pieces, MadeOf.cons_iff, MadeOf.append_iff] at hfits
      exact List.forall_mem_singleton.mpr ⟨hs, hfits.2.1⟩
  | _, return_ keyword value, hs, hfits => by
      simp only [pieces, MadeOf.cons_iff, MadeOf.append_iff] at hfits
      exact sound_of_optional hs.2.2 hfits.2.1
  | _, var name initializer, hs, hfits => by
      simp only [pieces, MadeOf.cons_iff, MadeOf.append_iff] at hfits
      exact sound_of_optional hs.2 hfits.2.2.1
  | _, loop condition body, hs, hfits => by
      simp only [pieces, MadeOf.cons_iff, MadeOf.append_iff] at hfits
      obtain ⟨-, -, hcondition, -, hbody⟩ := hfits
      exact List.forall_mem_cons.mpr ⟨⟨hs.1, hcondition⟩, sound_of_mem_expressions hs.2.1 hbody⟩

theorem sound_of_mem_expressionsList : ∀ {f : Bool} {ss : List Stmt}, ShapedList f ss →
    MadeOf Token.Fits (piecesList ss) → ∀ e ∈ expressionsList ss, e.Sound
  | _, [], _, _ => fun _ hmem => absurd hmem List.not_mem_nil
  | _, s :: ss, hs, hfits => by
      rw [piecesList, MadeOf.append_iff] at hfits
      exact List.forall_mem_append.mpr ⟨sound_of_mem_expressions hs.1 hfits.1,
        sound_of_mem_expressionsList hs.2 hfits.2⟩

theorem sound_of_mem_expressionsElse : ∀ {f : Bool} {s : Option Stmt}, ShapedElse f s →
    MadeOf Token.Fits (piecesElse s) → ∀ e ∈ expressionsElse s, e.Sound
  | _, none, _, _ => fun _ hmem => absurd hmem List.not_mem_nil
  | _, some s, hs, hfits => by
      rw [piecesElse, MadeOf.cons_iff] at hfits
      exact sound_of_mem_expressions hs.1 hfits.2

end

end Stmt

private theorem sound_of_written {ss : List Stmt} {segments : List (List Token)}
    (h : List.Forall₂ (fun s us => (Clause.declaration false s).Written us) ss segments)
    (hfits : ∀ us ∈ segments, ∀ t ∈ us, t.Fits) :
    ∀ e ∈ Stmt.expressionsList ss, e.Sound := by
  induction h with
  | nil => exact fun _ hmem => absurd hmem List.not_mem_nil
  | cons hs _ ih =>
      obtain ⟨hus, hmore⟩ := List.forall_mem_cons.mp hfits
      exact List.forall_mem_append.mpr
        ⟨Stmt.sound_of_mem_expressions hs.isTree.1 (hs.madeOf hus), ih hmore⟩

/-- Whatever faults a source has, what is left of it is written with tokens of the source. -/
theorem written_statementsOf (source : String) :
    ∃ segments : List (List Token),
      List.Forall₂ (fun s us => (Clause.declaration false s).Written us) (statementsOf source)
        segments ∧
      ∀ us ∈ segments, us ⊆ sourceTokens source := by
  obtain ⟨segments, hwritten, hscattered, -⟩ := parse_scattered (Item.tokens (scan source))
  have htokens : (Item.tokens (scan source)).takeWhile (!·.isEnd) = sourceTokens source := by
    rw [tokens_scan, List.takeWhile_append_of_pos]
    · exact List.append_nil _
    · intro t ht
      rw [isEnd_of_mem_sourceTokens t ht]
      rfl
  rw [htokens] at hscattered
  exact ⟨segments, hwritten, hscattered.subset⟩

/-- **The expressions of a source are sound**, whether it has faults or not. -/
theorem sound_of_occursIn {source : String} {e : Expr} (h : OccursIn source e) : e.Sound := by
  obtain ⟨whole, hwhole, hpart⟩ := h
  obtain ⟨segments, hwritten, hsegments⟩ := written_statementsOf source
  have hsound := sound_of_written hwritten fun us hus t ht =>
    Token.fits_of_mem_sourceTokens (hsegments us hus ht)
  exact (hsound whole hwhole).of_mem_parts e hpart

end Lox
