/-
Trees that are equal to themselves.

Comparison of trees compares number literals as floats, and a NaN differs from itself.
But a tree holds nothing that was not in its tokens: what can be said of all tokens can
be said of those that the tree has kept, and of those that its numbers come from.  So a
tree is equal to itself if the tokens are that it was read from.  And all tokens of a
source are, since digits never make a NaN.
-/
import Lox.Proofs.Grammar.Unparsing
import Lox.Token.Scan

namespace Lox

/-! ### What trees are made of

A tree keeps the values of its literals and not their tokens.  So a piece of a tree is
made of tokens with a property if it is such a token itself, or, where it stands for a
number, if there is one with that number.
-/

/-- The piece is a token with this property, or the mark of one if it is a number. -/
def Piece.MadeOf (P : Token → Prop) : Piece → Prop
  | kept t => P t
  | mark kind => ∀ n, kind = .number n → ∃ t, P t ∧ t.kind = .number n

/-- All the pieces are made of tokens with this property. -/
def MadeOf (P : Token → Prop) (pieces : List Piece) : Prop := ∀ piece ∈ pieces, piece.MadeOf P

namespace MadeOf

variable {P : Token → Prop} {p q : List Piece} {piece : Piece}

@[simp] theorem nil : MadeOf P [] := fun _ hmem => absurd hmem List.not_mem_nil

@[simp] theorem cons_iff : MadeOf P (piece :: p) ↔ piece.MadeOf P ∧ MadeOf P p :=
  List.forall_mem_cons

@[simp] theorem append_iff : MadeOf P (p ++ q) ↔ MadeOf P p ∧ MadeOf P q := List.forall_mem_append

@[simp] theorem kept_iff {t : Token} : (Piece.kept t).MadeOf P ↔ P t := Iff.rfl

@[simp] theorem symbol (s : Symbol) : (Piece.symbol s).MadeOf P := fun _ heq => by cases heq

@[simp] theorem keyword (k : Keyword) : (Piece.keyword k).MadeOf P := fun _ heq => by cases heq

end MadeOf

/-- Pieces are made of the tokens that fit them. -/
theorem Unparses.madeOf {P : Token → Prop} {pieces : List Piece} {ts : List Token}
    (h : Unparses pieces ts) (hts : ∀ t ∈ ts, P t) : MadeOf P pieces := by
  induction h with
  | nil => exact .nil
  | @cons piece t pieces ts hfits _ ih =>
      obtain ⟨ht, hts⟩ := List.forall_mem_cons.mp hts
      refine MadeOf.cons_iff.mpr ⟨?_, ih hts⟩
      cases piece with
      | kept t' => exact (show t = t' from hfits) ▸ ht
      | mark kind => exact fun n heq => ⟨t, ht, (show t.kind = kind from hfits).trans heq⟩

/-- The pieces of the trees of a clause. -/
def Clause.pieces : Clause → List Piece
  | statement _ _ s | declaration _ s => s.pieces
  | declarations _ ss => Stmt.piecesList ss

section

variable {P : Token → Prop}

theorem Phrase.Written.madeOf {e : Expr} {ts : List Token} (h : (Phrase.expression e).Written ts)
    (hts : ∀ t ∈ ts, P t) : MadeOf P e.pieces :=
  (written_expression_iff.mp h).2.madeOf hts

theorem WrittenOptional.madeOf {value : Option Expr} {ts : List Token}
    (h : WrittenOptional value ts) (hts : ∀ t ∈ ts, P t) : ∀ e ∈ value, MadeOf P e.pieces := by
  cases h with
  | none => exact fun _ hmem => by cases hmem
  | some he => exact fun _ hmem => Option.some.inj hmem ▸ he.madeOf hts

theorem WrittenVar.madeOf {s : Stmt} {keyword : Token} {ts : List Token} (h : WrittenVar s ts)
    (hkeyword : keyword.kind = .keyword .var_) (hts : ∀ t ∈ keyword :: ts, P t) :
    MadeOf P s.pieces :=
  (h.isTree false hkeyword).2.madeOf hts

theorem WrittenInitializer.madeOf {initializer : Option Stmt} {ts : List Token}
    (h : WrittenInitializer initializer ts) (hts : ∀ t ∈ ts, P t) :
    ∀ s ∈ initializer, MadeOf P s.pieces := by
  cases h with
  | none => exact fun _ hmem => by cases hmem
  | var hkeyword hs => exact fun _ hmem => Option.some.inj hmem ▸ hs.madeOf hkeyword hts
  | expression he hend =>
      have hvalue := he.madeOf (List.forall_mem_append.mp hts).1
      refine fun _ hmem => Option.some.inj hmem ▸ ?_
      simp [Stmt.pieces, hvalue]

/-- What a `for` loop stands for is made of what the loop is. -/
theorem Stmt.madeOf_forLoop {initializer : Option Stmt} {condition increment : Option Expr}
    {body : Stmt} (hi : ∀ s ∈ initializer, MadeOf P s.pieces)
    (hc : ∀ e ∈ condition, MadeOf P e.pieces) (hn : ∀ e ∈ increment, MadeOf P e.pieces)
    (hbody : MadeOf P body.pieces) :
    MadeOf P (Stmt.forLoop initializer condition increment body).pieces := by
  have hcondition : MadeOf P (condition.getD (.literal (.bool true))).pieces := by
    cases condition with
    | none => exact MadeOf.cons_iff.mpr ⟨MadeOf.keyword .true_, .nil⟩
    | some e => exact hc e rfl
  cases increment with
  | none =>
      cases initializer with
      | none => simp [forLoop, pieces, hcondition, hbody]
      | some s => simp [forLoop, pieces, piecesList, hi s rfl, hcondition, hbody]
  | some e =>
      have he := hn e rfl
      cases initializer with
      | none => simp [forLoop, pieces, piecesList, hcondition, hbody, he]
      | some s => simp [forLoop, pieces, piecesList, hi s rfl, hcondition, hbody, he]

/-- **A tree is made of the tokens it is written with.** -/
theorem Clause.Written.madeOf {c : Clause} {ts : List Token} (h : c.Written ts)
    (hts : ∀ t ∈ ts, P t) : MadeOf P c.pieces := by
  induction h with
  | expression he hend =>
      have hvalue := he.madeOf (List.forall_mem_append.mp hts).1
      simp [pieces, Stmt.pieces, hvalue]
  | print hkeyword he hend =>
      simp only [List.forall_mem_cons, List.forall_mem_append] at hts
      have hvalue := he.madeOf hts.2.1
      simp [pieces, Stmt.pieces, hvalue]
  | return_ hkeyword hvalue hend =>
      simp only [List.forall_mem_cons, List.forall_mem_append] at hts
      have hvalue := (writtenOptional_iff.mp hvalue).2.madeOf hts.2.1
      simp [pieces, Stmt.pieces, hts.1, hvalue]
  | loop hkeyword hopening hcondition hclosing hbody ih
  | conditional hkeyword hopening hcondition hclosing hbody ih =>
      simp only [List.forall_mem_cons, List.forall_mem_append] at hts
      obtain ⟨-, -, hts, -, hus⟩ := hts
      have hcondition := hcondition.madeOf hts
      have hbody := ih hus
      rw [pieces] at hbody
      simp [pieces, Stmt.pieces, Stmt.piecesElse, hcondition, hbody]
  | forLoop hkeyword hopening hinitializer hcondition hsemicolon hincrement hclosing hbody ih =>
      simp only [List.forall_mem_cons, List.forall_mem_append] at hts
      obtain ⟨-, -, his, hcs, -, hns, -, hus⟩ := hts
      exact Stmt.madeOf_forLoop (hinitializer.madeOf his) (hcondition.madeOf hcs)
        (hincrement.madeOf hns) (ih hus)
  | choice hkeyword hopening hcondition hclosing hthen hdivider helse ihthen ihelse =>
      simp only [List.forall_mem_cons, List.forall_mem_append] at hts
      obtain ⟨-, -, hts, -, hus, -, hvs⟩ := hts
      have hcondition := hcondition.madeOf hts
      have hthen := ihthen hus
      have helse := ihelse hvs
      rw [pieces] at hthen helse
      simp [pieces, Stmt.pieces, Stmt.piecesElse, hcondition, hthen, helse]
  | block hopening hbody hclosing ih =>
      simp only [List.forall_mem_cons, List.forall_mem_append] at hts
      have hbody := ih hts.2.1
      rw [pieces] at hbody
      simp [pieces, Stmt.pieces, hbody]
  | function hkeyword hname hopening hparams hcount hclosing hleft hbody hright ih =>
      simp only [List.forall_mem_cons, List.forall_mem_append] at hts
      obtain ⟨-, hname, -, hps, -, -, hts, -⟩ := hts
      have hparams := (writtenParameters_iff.mp hparams).2.madeOf hps
      have hbody := ih hts
      rw [pieces] at hbody
      simp [pieces, Stmt.pieces, hname, hparams, hbody]
  | var hkeyword hs => exact hs.madeOf hkeyword hts
  | statement hs ih => exact ih hts
  | nil => exact .nil
  | cons hs hss ih ihss =>
      obtain ⟨hts, hus⟩ := List.forall_mem_append.mp hts
      exact MadeOf.append_iff.mpr ⟨ih hts, ihss hus⟩

end

/-! ### Trees in lists -/

namespace MadeOf

variable {P : Token → Prop}

/-- Pieces made of tokens with a property are made of tokens with a weaker one. -/
theorem imp {Q : Token → Prop} {pieces : List Piece} (h : MadeOf P pieces)
    (hPQ : ∀ t, P t → Q t) : MadeOf Q pieces := by
  intro piece hmem
  have hpiece := h piece hmem
  cases piece with
  | kept t => exact hPQ t hpiece
  | mark kind =>
      intro n hn
      obtain ⟨t, ht, hkind⟩ := hpiece n hn
      exact ⟨t, hPQ t ht, hkind⟩

private theorem of_moreArguments : ∀ {es : List Expr}, MadeOf P (Expr.moreArgumentPieces es) →
    ∀ e ∈ es, MadeOf P e.pieces
  | [], _ => fun _ hmem => absurd hmem List.not_mem_nil
  | _ :: _, h => by
      rw [Expr.moreArgumentPieces, cons_iff, append_iff] at h
      exact List.forall_mem_cons.mpr ⟨h.2.1, of_moreArguments h.2.2⟩

theorem of_arguments {es : List Expr} (h : MadeOf P (Expr.argumentPieces es)) :
    ∀ e ∈ es, MadeOf P e.pieces := by
  cases es with
  | nil => exact fun _ hmem => absurd hmem List.not_mem_nil
  | cons e es =>
      rw [Expr.argumentPieces, append_iff] at h
      exact List.forall_mem_cons.mpr ⟨h.1, of_moreArguments h.2⟩

theorem of_optional {before : List Piece} {value : Option Expr}
    (h : MadeOf P (optionalPieces before value)) : ∀ e ∈ value, MadeOf P e.pieces := by
  rintro e rfl
  rw [optionalPieces, append_iff] at h
  exact h.2

private theorem of_moreParameters {names : List Token} (h : MadeOf P (moreParameterPieces names)) :
    ∀ name ∈ names, P name := by
  induction names with
  | nil => exact fun _ hmem => absurd hmem List.not_mem_nil
  | cons name names ih =>
      simp only [moreParameterPieces, cons_iff, kept_iff] at h
      exact List.forall_mem_cons.mpr ⟨h.2.1, ih h.2.2⟩

theorem of_parameters {names : List Token} (h : MadeOf P (parameterPieces names)) :
    ∀ name ∈ names, P name := by
  cases names with
  | nil => exact fun _ hmem => absurd hmem List.not_mem_nil
  | cons name names =>
      simp only [parameterPieces, cons_iff, kept_iff] at h
      exact List.forall_mem_cons.mpr ⟨h.1, of_moreParameters h.2⟩

end MadeOf

/-! ### Tokens equal to themselves -/

/-- The token is equal to itself: it is not a NaN. -/
def Token.SelfSame (t : Token) : Prop := t.same t = true

/-- Digits make no NaN, however many there are. -/
theorem Number.isNaN_ofDecimal (d : Decimal) : (ofDecimal d).isNaN = false := by
  have hfinite : ∀ m, m ≤ infinityBits → (ofMagnitude m).isNaN = false := by
    intro m hm
    have hbits : (UInt64.ofNat m).toNat = m % 2 ^ 64 := UInt64.toNat_ofNat'
    have hlow : m % 2 ^ 64 % signBit ≤ m :=
      Nat.le_trans (Nat.mod_le _ _) (Nat.mod_le _ _)
    rw [isNaN, decide_eq_false_iff_not, magnitude, ofMagnitude, hbits]
    exact Nat.not_lt.mpr (Nat.le_trans hlow hm)
  exact hfinite _ (Nat.min_le_left _ _)

/-- A token whose value is no NaN is equal to itself. -/
theorem Token.selfSame_of_not_isNaN {t : Token}
    (h : ∀ n, t.kind = .number n → n.isNaN = false) : t.SelfSame := by
  have hkind : t.kind.same t.kind = true := by
    cases hk : t.kind with
    | number n => simp [Token.Kind.same, Number.same, h n hk]
    | _ => simp [Token.Kind.same]
  rw [Token.SelfSame, Token.same, hkind]
  simp

/-- The token is one of some source. -/
def Token.Scanned (t : Token) : Prop := ∃ source, .ok t ∈ scan source

namespace Segment

private theorem isNaN_of_kind? {s : Segment} {n : Number} (h : s.kind? = some (.ok (.number n))) :
    n.isNaN = false := by
  obtain ⟨shape, text⟩ := s
  cases shape with
  | number =>
      cases h
      exact Number.isNaN_ofDecimal _
  | word =>
      simp only [kind?, Token.Kind.ofWord] at h
      split at h <;> cases h
  | _ => cases h

theorem selfSame_of_mem_items {t : Token} : ∀ (ss : List Segment) (line : Nat),
    .ok t ∈ items line ss → t.SelfSame := by
  intro ss
  induction ss with
  | nil =>
      intro line hmem
      obtain rfl := Except.ok.inj (List.mem_singleton.mp hmem)
      exact Token.selfSame_of_not_isNaN fun n hn => by cases hn
  | cons s ss ih =>
      intro line hmem
      rcases List.mem_append.mp hmem with hmem | hmem
      · obtain ⟨kind, hkind, heq⟩ := Option.map_eq_some_iff.mp (Option.mem_toList.mp hmem)
        refine Token.selfSame_of_not_isNaN fun n hn => isNaN_of_kind? (s := s) ?_
        cases kind with
        | error cause => cases heq
        | ok kind =>
            cases heq
            rw [hkind]
            exact congrArg _ (congrArg _ hn)
      · exact ih _ hmem

end Segment

/-- All tokens of a source are equal to themselves. -/
theorem Token.Scanned.selfSame {t : Token} (h : t.Scanned) : t.SelfSame := by
  obtain ⟨source, hmem⟩ := h
  exact Segment.selfSame_of_mem_items _ _ hmem

/-! ### Trees equal to themselves -/

private theorem Literal.same_self {v : Literal} (h : (Piece.mark v.kind).MadeOf Token.SelfSame) :
    v.same v = true := by
  cases v with
  | nil => rfl
  | bool b => exact decide_eq_true rfl
  | string s => exact decide_eq_true rfl
  | number n =>
      obtain ⟨t, ht, hkind⟩ := h n rfl
      rw [Token.SelfSame, Token.same, hkind] at ht
      exact (Bool.and_eq_true_iff.mp (Bool.and_eq_true_iff.mp ht).1).1

mutual

theorem Expr.same_self : ∀ e : Expr, MadeOf Token.SelfSame e.pieces → e.same e = true
  | .assign name value, h => by
      simp only [Expr.pieces, MadeOf.cons_iff, MadeOf.kept_iff] at h
      rw [Expr.same, h.1, value.same_self h.2.2, Bool.and_self]
  | .binary l op r, h | .logical l op r, h => by
      simp only [Expr.pieces, MadeOf.append_iff, MadeOf.cons_iff, MadeOf.kept_iff] at h
      rw [Expr.same, l.same_self h.1, h.2.1, r.same_self h.2.2, Bool.and_self, Bool.and_self]
  | .call callee paren arguments, h => by
      simp only [Expr.pieces, MadeOf.append_iff, MadeOf.cons_iff, MadeOf.kept_iff] at h
      rw [Expr.same, callee.same_self h.1, h.2.2.2.1,
        Expr.sameList_self arguments h.2.2.1.of_arguments, Bool.and_self, Bool.and_self]
  | .get object name, h => by
      simp only [Expr.pieces, MadeOf.append_iff, MadeOf.cons_iff, MadeOf.kept_iff] at h
      rw [Expr.same, object.same_self h.1, h.2.2.1, Bool.and_self]
  | .grouping inner, h => by
      simp only [Expr.pieces, MadeOf.append_iff, MadeOf.cons_iff] at h
      rw [Expr.same, inner.same_self h.2.1]
  | .literal value, h => by
      simp only [Expr.pieces, MadeOf.cons_iff] at h
      rw [Expr.same, value.same_self h.1]
  | .set object name value, h => by
      simp only [Expr.pieces, MadeOf.append_iff, MadeOf.cons_iff, MadeOf.kept_iff] at h
      rw [Expr.same, object.same_self h.1, h.2.2.1, value.same_self h.2.2.2.2, Bool.and_self,
        Bool.and_self]
  | .super keyword method, h => by
      simp only [Expr.pieces, MadeOf.cons_iff, MadeOf.kept_iff] at h
      rw [Expr.same, h.1, h.2.2.1, Bool.and_self]
  | .this keyword, h => by
      simp only [Expr.pieces, MadeOf.cons_iff, MadeOf.kept_iff] at h
      rw [Expr.same, h.1]
  | .unary op right, h => by
      simp only [Expr.pieces, MadeOf.cons_iff, MadeOf.kept_iff] at h
      rw [Expr.same, h.1, right.same_self h.2, Bool.and_self]
  | .var name, h => by
      simp only [Expr.pieces, MadeOf.cons_iff, MadeOf.kept_iff] at h
      rw [Expr.same, h.1]

theorem Expr.sameList_self : ∀ es : List Expr, (∀ e ∈ es, MadeOf Token.SelfSame e.pieces) →
    Expr.sameList es es = true
  | [], _ => rfl
  | e :: es, h => by
      rw [List.forall_mem_cons] at h
      rw [Expr.sameList, e.same_self h.1, Expr.sameList_self es h.2, Bool.and_self]

end

private theorem sameOption_self {value : Option Expr}
    (h : ∀ e ∈ value, MadeOf Token.SelfSame e.pieces) :
    sameOption Expr.same value value = true := by
  cases value with
  | none => rfl
  | some e => exact e.same_self (h e rfl)

private theorem Token.sameList_self {names : List Token} (h : ∀ name ∈ names, name.SelfSame) :
    sameList names names = true := by
  induction names with
  | nil => rfl
  | cons name names ih =>
      rw [List.forall_mem_cons] at h
      rw [sameList, h.1, ih h.2, Bool.and_self]

mutual

theorem Stmt.same_self : ∀ s : Stmt, MadeOf Token.SelfSame s.pieces → s.same s = true
  | .block body, h => by
      simp only [Stmt.pieces, MadeOf.cons_iff, MadeOf.append_iff] at h
      rw [Stmt.same, Stmt.sameList_self body h.2.1]
  | .expression value, h => by
      simp only [Stmt.pieces, MadeOf.append_iff] at h
      rw [Stmt.same, value.same_self h.1]
  | .function name params body, h => by
      simp only [Stmt.pieces, MadeOf.cons_iff, MadeOf.append_iff, MadeOf.kept_iff] at h
      obtain ⟨-, hname, -, hparams, -, -, hbody, -⟩ := h
      rw [Stmt.same, hname, Token.sameList_self hparams.of_parameters,
        Stmt.sameList_self body hbody, Bool.and_self, Bool.and_self]
  | .conditional condition thenBranch elseBranch, h => by
      simp only [Stmt.pieces, MadeOf.cons_iff, MadeOf.append_iff] at h
      obtain ⟨-, -, hcondition, -, hthen, helse⟩ := h
      rw [Stmt.same, condition.same_self hcondition, thenBranch.same_self hthen,
        Stmt.sameElse_self elseBranch helse, Bool.and_self, Bool.and_self]
  | .print value, h => by
      simp only [Stmt.pieces, MadeOf.cons_iff, MadeOf.append_iff] at h
      rw [Stmt.same, value.same_self h.2.1]
  | .return_ keyword value, h => by
      simp only [Stmt.pieces, MadeOf.cons_iff, MadeOf.append_iff, MadeOf.kept_iff] at h
      rw [Stmt.same, h.1, sameOption_self h.2.1.of_optional, Bool.and_self]
  | .var name initializer, h => by
      simp only [Stmt.pieces, MadeOf.cons_iff, MadeOf.append_iff, MadeOf.kept_iff] at h
      rw [Stmt.same, h.2.1, sameOption_self h.2.2.1.of_optional, Bool.and_self]
  | .loop condition body, h => by
      simp only [Stmt.pieces, MadeOf.cons_iff, MadeOf.append_iff] at h
      obtain ⟨-, -, hcondition, -, hbody⟩ := h
      rw [Stmt.same, condition.same_self hcondition, body.same_self hbody, Bool.and_self]

theorem Stmt.sameList_self : ∀ ss : List Stmt, MadeOf Token.SelfSame (Stmt.piecesList ss) →
    Stmt.sameList ss ss = true
  | [], _ => rfl
  | s :: ss, h => by
      rw [Stmt.piecesList, MadeOf.append_iff] at h
      rw [Stmt.sameList, s.same_self h.1, Stmt.sameList_self ss h.2, Bool.and_self]

theorem Stmt.sameElse_self : ∀ s : Option Stmt, MadeOf Token.SelfSame (Stmt.piecesElse s) →
    Stmt.sameElse s s = true
  | none, _ => rfl
  | some s, h => by
      rw [Stmt.piecesElse, MadeOf.cons_iff] at h
      rw [Stmt.sameElse, s.same_self h.2]

end

end Lox
