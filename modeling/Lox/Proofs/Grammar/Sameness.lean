/-
Trees that compare equal.

Comparison of trees takes number literals for floats, so a zero with a sign is equal to
one without, and a NaN is equal to nothing.  All else in trees is compared for what it
is.  So among trees in which no number has a sign and none is a NaN, comparison tells
all trees apart, and none from itself.

Digits are read to such numbers, and whatever parsing leaves of a source is made of
tokens of the source: it comes with no other number, nor does the loop that a `for`
stands for.
-/
import Lox.Proofs.Grammar.Occurrence
import Lox.Proofs.Number.Reading

namespace Lox

/-! ### Numbers and tokens

Comparison of tokens is equality but for the number in a token's kind, which is compared
as a float.  On plain numbers, which have no sign and are no NaN, that is equality too.
-/

/-- The number is what digits can be read to. -/
structure Number.Plain (n : Number) : Prop where
  /-- So it is equal to itself. -/
  not_isNaN : n.isNaN = false
  /-- So it is no negative zero, and there is one zero only. -/
  not_isNegative : n.isNegative = false

private theorem Number.plain_ofDecimal (d : Decimal) : (ofDecimal d).Plain :=
  ⟨isNaN_ofDecimal d, isNegative_ofDecimal d⟩

/-- Without signs there is one zero only. -/
theorem Number.eq_of_same {n m : Number} (hn : n.Plain) (hm : m.Plain) (h : n.same m = true) :
    n = m := by
  simp only [same, Bool.and_eq_true, Bool.or_eq_true, decide_eq_true_eq] at h
  rcases h.2 with hbits | ⟨hzero, hzero'⟩
  · exact hbits
  · rw [← ofMagnitude_magnitude hn.not_isNegative, ← ofMagnitude_magnitude hm.not_isNegative,
      of_decide_eq_true hzero, of_decide_eq_true hzero']

/-- If the token is a number, its value is plain. -/
def Token.Plain (t : Token) : Prop := ∀ n, t.kind = .number n → n.Plain

namespace Token

theorem Plain.selfSame {t : Token} (h : t.Plain) : t.SelfSame :=
  selfSame_of_not_isNaN fun n hkind => (h n hkind).not_isNaN

theorem Fits.plain {t : Token} (h : t.Fits) : t.Plain := by
  intro n hkind
  rw [Fits, hkind] at h
  cases h with
  | number => exact Number.plain_ofDecimal _

private theorem Kind.eq_of_same {k k' : Kind} (hk : ∀ n, k = .number n → n.Plain)
    (hk' : ∀ n, k' = .number n → n.Plain) (h : k.same k' = true) : k = k' := by
  unfold same at h
  split at h
  · rw [Number.eq_of_same (hk _ rfl) (hk' _ rfl) h]
  · exact of_decide_eq_true h

theorem eq_of_same {t t' : Token} (ht : t.Plain) (ht' : t'.Plain) (h : t.same t' = true) :
    t = t' := by
  obtain ⟨kind, lexeme, line⟩ := t
  obtain ⟨kind', lexeme', line'⟩ := t'
  simp only [same, Bool.and_eq_true, decide_eq_true_eq] at h
  obtain ⟨⟨hkind, rfl⟩, rfl⟩ := h
  obtain rfl : kind = kind' := Kind.eq_of_same ht ht' hkind
  rfl

theorem eq_of_sameList : ∀ {ts ts' : List Token}, (∀ t ∈ ts, t.Plain) → (∀ t ∈ ts', t.Plain) →
    sameList ts ts' = true → ts = ts'
  | [], [], _, _, _ => rfl
  | t :: ts, t' :: ts', ht, ht', h => by
      rw [sameList, Bool.and_eq_true] at h
      rw [List.forall_mem_cons] at ht ht'
      rw [eq_of_same ht.1 ht'.1 h.1, eq_of_sameList ht.2 ht'.2 h.2]

end Token

private theorem Literal.eq_of_same {v v' : Literal} (hv : (Piece.mark v.kind).MadeOf Token.Plain)
    (hv' : (Piece.mark v'.kind).MadeOf Token.Plain) (h : v.same v' = true) : v = v' := by
  cases v <;> cases v'
  case number.number n m =>
    obtain ⟨t, ht, hkind⟩ := hv n rfl
    obtain ⟨t', ht', hkind'⟩ := hv' m rfl
    rw [Number.eq_of_same (ht n hkind) (ht' m hkind') h]
  case nil.nil => rfl
  case bool.bool | string.string => rw [of_decide_eq_true h]
  all_goals exact Bool.noConfusion h

/-! ### Expressions -/

namespace Expr

mutual

/-- Expressions of plain tokens that compare equal are equal. -/
theorem eq_of_same : ∀ e e' : Expr, MadeOf Token.Plain e.pieces → MadeOf Token.Plain e'.pieces →
    e.same e' = true → e = e'
  | assign name value, e', he, he', h => by
      cases e' with
      | assign name' value' =>
          simp only [pieces, MadeOf.cons_iff, MadeOf.kept_iff] at he he'
          rw [same, Bool.and_eq_true] at h
          rw [Token.eq_of_same he.1 he'.1 h.1, eq_of_same value value' he.2.2 he'.2.2 h.2]
      -- Trees with different constructors at the root never compare equal, here and below.
      | _ => exact Bool.noConfusion h
  | binary l op r, e', he, he', h => by
      cases e' with
      | binary l' op' r' =>
          simp only [pieces, MadeOf.append_iff, MadeOf.cons_iff, MadeOf.kept_iff] at he he'
          rw [same, Bool.and_eq_true, Bool.and_eq_true] at h
          rw [eq_of_same l l' he.1 he'.1 h.1.1, Token.eq_of_same he.2.1 he'.2.1 h.1.2,
            eq_of_same r r' he.2.2 he'.2.2 h.2]
      | _ => exact Bool.noConfusion h
  | call callee paren arguments, e', he, he', h => by
      cases e' with
      | call callee' paren' arguments' =>
          simp only [pieces, MadeOf.append_iff, MadeOf.cons_iff, MadeOf.kept_iff] at he he'
          obtain ⟨hcallee, -, harguments, hparen, -⟩ := he
          obtain ⟨hcallee', -, harguments', hparen', -⟩ := he'
          rw [same, Bool.and_eq_true, Bool.and_eq_true] at h
          rw [eq_of_same callee callee' hcallee hcallee' h.1.1,
            Token.eq_of_same hparen hparen' h.1.2,
            eq_of_sameList arguments arguments' harguments.of_arguments harguments'.of_arguments
              h.2]
      | _ => exact Bool.noConfusion h
  | get object name, e', he, he', h => by
      cases e' with
      | get object' name' =>
          simp only [pieces, MadeOf.append_iff, MadeOf.cons_iff, MadeOf.kept_iff] at he he'
          rw [same, Bool.and_eq_true] at h
          rw [eq_of_same object object' he.1 he'.1 h.1, Token.eq_of_same he.2.2.1 he'.2.2.1 h.2]
      | _ => exact Bool.noConfusion h
  | grouping inner, e', he, he', h => by
      cases e' with
      | grouping inner' =>
          simp only [pieces, MadeOf.append_iff, MadeOf.cons_iff] at he he'
          rw [same] at h
          rw [eq_of_same inner inner' he.2.1 he'.2.1 h]
      | _ => exact Bool.noConfusion h
  | literal value, e', he, he', h => by
      cases e' with
      | literal value' =>
          simp only [pieces, MadeOf.cons_iff] at he he'
          rw [same] at h
          rw [Literal.eq_of_same he.1 he'.1 h]
      | _ => exact Bool.noConfusion h
  | logical l op r, e', he, he', h => by
      cases e' with
      | logical l' op' r' =>
          simp only [pieces, MadeOf.append_iff, MadeOf.cons_iff, MadeOf.kept_iff] at he he'
          rw [same, Bool.and_eq_true, Bool.and_eq_true] at h
          rw [eq_of_same l l' he.1 he'.1 h.1.1, Token.eq_of_same he.2.1 he'.2.1 h.1.2,
            eq_of_same r r' he.2.2 he'.2.2 h.2]
      | _ => exact Bool.noConfusion h
  | set object name value, e', he, he', h => by
      cases e' with
      | set object' name' value' =>
          simp only [pieces, MadeOf.append_iff, MadeOf.cons_iff, MadeOf.kept_iff] at he he'
          obtain ⟨hobject, -, hname, -, hvalue⟩ := he
          obtain ⟨hobject', -, hname', -, hvalue'⟩ := he'
          rw [same, Bool.and_eq_true, Bool.and_eq_true] at h
          rw [eq_of_same object object' hobject hobject' h.1.1, Token.eq_of_same hname hname' h.1.2,
            eq_of_same value value' hvalue hvalue' h.2]
      | _ => exact Bool.noConfusion h
  | super keyword method, e', he, he', h => by
      cases e' with
      | super keyword' method' =>
          simp only [pieces, MadeOf.cons_iff, MadeOf.kept_iff] at he he'
          rw [same, Bool.and_eq_true] at h
          rw [Token.eq_of_same he.1 he'.1 h.1, Token.eq_of_same he.2.2.1 he'.2.2.1 h.2]
      | _ => exact Bool.noConfusion h
  | this keyword, e', he, he', h => by
      cases e' with
      | this keyword' =>
          simp only [pieces, MadeOf.cons_iff, MadeOf.kept_iff] at he he'
          rw [same] at h
          rw [Token.eq_of_same he.1 he'.1 h]
      | _ => exact Bool.noConfusion h
  | unary op right, e', he, he', h => by
      cases e' with
      | unary op' right' =>
          simp only [pieces, MadeOf.cons_iff, MadeOf.kept_iff] at he he'
          rw [same, Bool.and_eq_true] at h
          rw [Token.eq_of_same he.1 he'.1 h.1, eq_of_same right right' he.2 he'.2 h.2]
      | _ => exact Bool.noConfusion h
  | var name, e', he, he', h => by
      cases e' with
      | var name' =>
          simp only [pieces, MadeOf.cons_iff, MadeOf.kept_iff] at he he'
          rw [same] at h
          rw [Token.eq_of_same he.1 he'.1 h]
      | _ => exact Bool.noConfusion h

theorem eq_of_sameList : ∀ es es' : List Expr, (∀ e ∈ es, MadeOf Token.Plain e.pieces) →
    (∀ e ∈ es', MadeOf Token.Plain e.pieces) → sameList es es' = true → es = es'
  | [], [], _, _, _ => rfl
  | e :: es, e' :: es', he, he', h => by
      rw [List.forall_mem_cons] at he he'
      rw [sameList, Bool.and_eq_true] at h
      rw [eq_of_same e e' he.1 he'.1 h.1, eq_of_sameList es es' he.2 he'.2 h.2]

end

private theorem eq_of_sameOption {value value' : Option Expr}
    (hv : ∀ e ∈ value, MadeOf Token.Plain e.pieces)
    (hv' : ∀ e ∈ value', MadeOf Token.Plain e.pieces) (h : sameOption same value value' = true) :
    value = value' := by
  cases value <;> cases value'
  case some.some e e' => rw [eq_of_same e e' (hv e rfl) (hv' e' rfl) h]
  case none.none => rfl
  all_goals exact Bool.noConfusion h

end Expr

/-! ### Statements -/

namespace Stmt

mutual

/-- Statements of plain tokens that compare equal are equal. -/
theorem eq_of_same : ∀ s s' : Stmt, MadeOf Token.Plain s.pieces → MadeOf Token.Plain s'.pieces →
    s.same s' = true → s = s'
  | block body, s', hs, hs', h => by
      cases s' with
      | block body' =>
          simp only [pieces, MadeOf.cons_iff, MadeOf.append_iff] at hs hs'
          rw [same] at h
          rw [eq_of_sameList body body' hs.2.1 hs'.2.1 h]
      | _ => exact Bool.noConfusion h
  | expression value, s', hs, hs', h => by
      cases s' with
      | expression value' =>
          simp only [pieces, MadeOf.append_iff] at hs hs'
          rw [same] at h
          rw [Expr.eq_of_same value value' hs.1 hs'.1 h]
      | _ => exact Bool.noConfusion h
  | function name params body, s', hs, hs', h => by
      cases s' with
      | function name' params' body' =>
          simp only [pieces, MadeOf.cons_iff, MadeOf.append_iff, MadeOf.kept_iff] at hs hs'
          obtain ⟨-, hname, -, hparams, -, -, hbody, -⟩ := hs
          obtain ⟨-, hname', -, hparams', -, -, hbody', -⟩ := hs'
          rw [same, Bool.and_eq_true, Bool.and_eq_true] at h
          rw [Token.eq_of_same hname hname' h.1.1,
            Token.eq_of_sameList hparams.of_parameters hparams'.of_parameters h.1.2,
            eq_of_sameList body body' hbody hbody' h.2]
      | _ => exact Bool.noConfusion h
  | conditional condition thenBranch elseBranch, s', hs, hs', h => by
      cases s' with
      | conditional condition' thenBranch' elseBranch' =>
          simp only [pieces, MadeOf.cons_iff, MadeOf.append_iff] at hs hs'
          obtain ⟨-, -, hcondition, -, hthen, helse⟩ := hs
          obtain ⟨-, -, hcondition', -, hthen', helse'⟩ := hs'
          rw [same, Bool.and_eq_true, Bool.and_eq_true] at h
          rw [Expr.eq_of_same condition condition' hcondition hcondition' h.1.1,
            eq_of_same thenBranch thenBranch' hthen hthen' h.1.2,
            eq_of_sameElse elseBranch elseBranch' helse helse' h.2]
      | _ => exact Bool.noConfusion h
  | print value, s', hs, hs', h => by
      cases s' with
      | print value' =>
          simp only [pieces, MadeOf.cons_iff, MadeOf.append_iff] at hs hs'
          rw [same] at h
          rw [Expr.eq_of_same value value' hs.2.1 hs'.2.1 h]
      | _ => exact Bool.noConfusion h
  | return_ keyword value, s', hs, hs', h => by
      cases s' with
      | return_ keyword' value' =>
          simp only [pieces, MadeOf.cons_iff, MadeOf.append_iff, MadeOf.kept_iff] at hs hs'
          rw [same, Bool.and_eq_true] at h
          rw [Token.eq_of_same hs.1 hs'.1 h.1,
            Expr.eq_of_sameOption hs.2.1.of_optional hs'.2.1.of_optional h.2]
      | _ => exact Bool.noConfusion h
  | var name initializer, s', hs, hs', h => by
      cases s' with
      | var name' initializer' =>
          simp only [pieces, MadeOf.cons_iff, MadeOf.append_iff, MadeOf.kept_iff] at hs hs'
          rw [same, Bool.and_eq_true] at h
          rw [Token.eq_of_same hs.2.1 hs'.2.1 h.1,
            Expr.eq_of_sameOption hs.2.2.1.of_optional hs'.2.2.1.of_optional h.2]
      | _ => exact Bool.noConfusion h
  | loop condition body, s', hs, hs', h => by
      cases s' with
      | loop condition' body' =>
          simp only [pieces, MadeOf.cons_iff, MadeOf.append_iff] at hs hs'
          obtain ⟨-, -, hcondition, -, hbody⟩ := hs
          obtain ⟨-, -, hcondition', -, hbody'⟩ := hs'
          rw [same, Bool.and_eq_true] at h
          rw [Expr.eq_of_same condition condition' hcondition hcondition' h.1,
            eq_of_same body body' hbody hbody' h.2]
      | _ => exact Bool.noConfusion h

private theorem eq_of_sameList : ∀ ss ss' : List Stmt, MadeOf Token.Plain (piecesList ss) →
    MadeOf Token.Plain (piecesList ss') → sameList ss ss' = true → ss = ss'
  | [], [], _, _, _ => rfl
  | s :: ss, s' :: ss', hs, hs', h => by
      rw [piecesList, MadeOf.append_iff] at hs hs'
      rw [sameList, Bool.and_eq_true] at h
      rw [eq_of_same s s' hs.1 hs'.1 h.1, eq_of_sameList ss ss' hs.2 hs'.2 h.2]

theorem eq_of_sameElse : ∀ s s' : Option Stmt, MadeOf Token.Plain (piecesElse s) →
    MadeOf Token.Plain (piecesElse s') → sameElse s s' = true → s = s'
  | none, none, _, _, _ => rfl
  | some s, some s', hs, hs', h => by
      rw [piecesElse, MadeOf.cons_iff] at hs hs'
      rw [sameElse] at h
      rw [eq_of_same s s' hs.2 hs'.2 h]

end

/-- **Statements of plain tokens compare equal exactly if they are equal.** -/
theorem sameList_iff {ss ss' : List Stmt} (h : MadeOf Token.Plain (piecesList ss))
    (h' : MadeOf Token.Plain (piecesList ss')) : sameList ss ss' = true ↔ ss = ss' := by
  constructor
  · exact eq_of_sameList ss ss' h h'
  · rintro rfl
    exact sameList_self ss (h.imp fun _ => Token.Plain.selfSame)

end Stmt

/-! ### Sources -/

/-- Statements are made of the tokens they are written with, one by one. -/
theorem MadeOf.of_written {P : Token → Prop} {ss : List Stmt} {segments : List (List Token)}
    (h : List.Forall₂ (fun s us => (Clause.declaration false s).Written us) ss segments)
    (hts : ∀ us ∈ segments, ∀ t ∈ us, P t) : MadeOf P (Stmt.piecesList ss) := by
  induction h with
  | nil => exact .nil
  | cons hs _ ih =>
      obtain ⟨hus, hmore⟩ := List.forall_mem_cons.mp hts
      exact MadeOf.append_iff.mpr ⟨hs.madeOf hus, ih hmore⟩

/-- Whatever faults a source has, what is left of it is made of plain tokens. -/
theorem madeOf_plain_statementsOf (source : String) :
    MadeOf Token.Plain (Stmt.piecesList (statementsOf source)) := by
  obtain ⟨segments, hwritten, hsegments⟩ := written_statementsOf source
  exact .of_written hwritten fun us hus _ ht =>
    (Token.fits_of_mem_sourceTokens (hsegments us hus ht)).plain

/-- **On what parsing leaves of sources, comparison is equality**: of constructors, of the kinds,
lexemes and lines of tokens, and of the bits of numbers.  So all that is parsed is equal to itself.
It is not so for trees in general: there is a number that a tree cannot hold and be equal to itself,
and there are numbers that differ where trees that hold them compare equal. -/
theorem statementsOf_same_iff_eq (a b : String) :
    (Stmt.sameList (statementsOf a) (statementsOf b) = true ↔ statementsOf a = statementsOf b) ∧
      Stmt.sameList (statementsOf a) (statementsOf a) = true ∧
      (∃ n : Number, n.isNaN = true ∧
        (Expr.literal (.number n)).same (.literal (.number n)) = false) ∧
      ∃ n m : Number, n.isZero = true ∧ m.isZero = true ∧
        (Expr.literal (.number n)).same (.literal (.number m)) = true ∧
          Expr.literal (.number n) ≠ .literal (.number m) := by
  have hiff := fun a b : String =>
    Stmt.sameList_iff (madeOf_plain_statementsOf a) (madeOf_plain_statementsOf b)
  refine ⟨hiff a b, (hiff a a).mpr rfl, ⟨⟨0x7ff8000000000000⟩, by decide⟩,
    ⟨0⟩, ⟨0x8000000000000000⟩, by decide, by decide, by decide, fun h => ?_⟩
  have hbits : (0 : UInt64) = 0x8000000000000000 :=
    congrArg Number.bits (Literal.number.inj (Expr.literal.inj h))
  exact absurd hbits (by decide)

end Lox
