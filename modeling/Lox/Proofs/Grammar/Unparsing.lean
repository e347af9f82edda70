/-
Parsing and unparsing are inverse.

A tree is written with some tokens exactly if it has the shape of a parsed tree and
the tokens fit its pieces.  For expressions the strength of the tree tells at which
level of the grammar it can stand, and at all looser ones with it; for statements it
is `endsOpen` that tells which of them may be followed by `else`.

The one exception is `for`, which the tree does not have.  What a `for` loop is
parsed into has the shape of a parsed tree as well, but its pieces are those of the
loop it stands for.
-/
import Lox.Proofs.Grammar.Programs
import Lox.Proofs.Grammar.Shape

namespace Lox

open Lox.Parser

/-! ### Expressions: from shape to rules

The recursion is on the tree.  An operation is written at the level of its operator, and
what binds tightly can stand at every looser level, so operands that bind tightly enough
can stand where they are.
-/

/-- The part of the grammar for expressions that bind so tightly. -/
def Phrase.binding : Nat → Expr → Phrase
  | 0, e => .expression e
  | 1, e => .operation levels e
  | 2, e => .operation (levels.drop 1) e
  | 3, e => .operation (levels.drop 2) e
  | 4, e => .operation (levels.drop 3) e
  | 5, e => .operation (levels.drop 4) e
  | 6, e => .operation (levels.drop 5) e
  | 7, e => .unary e
  | 8, e => .call e
  | _, e => .primary e

namespace Phrase

theorem Written.looser {e : Expr} {ts : List Token} :
    ∀ {k : Nat}, (binding (k + 1) e).Written ts → (binding k e).Written ts
  | 0, h => .operation h
  | 1, h | 2, h | 3, h | 4, h | 5, h => .operand h
  | 6, h => .operand (.unary h)
  | 7, h => .call h
  | 8, h => .primary h
  | _ + 9, h => h

/-- What binds tightly can stand where less is needed. -/
theorem Written.binding_of_le {e : Expr} {ts : List Token} {j k : Nat} (hjk : j ≤ k)
    (h : (binding k e).Written ts) : (binding j e).Written ts := by
  induction hjk with
  | refl => exact h
  | step hjk ih => exact ih h.looser

private theorem Written.binary {l r : Expr} {op : Token} {ls rs : List Token} {k : Nat}
    (hop : binaryStrength? op.kind = some k) (hl : (binding k l).Written ls)
    (hr : (binding (k + 1) r).Written rs) :
    (binding k (.binary l op r)).Written (ls ++ op :: rs) := by
  unfold binaryStrength? at hop
  split at hop <;> rename_i hkind <;> cases hop
  iterate 2 exact .join (List.drop_suffix 2 levels) hl (by simp [hkind]) hr
  iterate 4 exact .join (List.drop_suffix 3 levels) hl (by simp [hkind]) hr
  iterate 2 exact .join (List.drop_suffix 4 levels) hl (by simp [hkind]) hr
  iterate 2 exact .join (List.drop_suffix 5 levels) hl (by simp [hkind]) (.unary hr)

private theorem Written.logical {l r : Expr} {op : Token} {ls rs : List Token} {k : Nat}
    (hop : logicalStrength? op.kind = some k) (hl : (binding k l).Written ls)
    (hr : (binding (k + 1) r).Written rs) :
    (binding k (.logical l op r)).Written (ls ++ op :: rs) := by
  unfold logicalStrength? at hop
  split at hop <;> rename_i hkind <;> cases hop
  · exact .join (List.suffix_refl levels) hl (by simp [hkind]) hr
  · exact .join (List.drop_suffix 1 levels) hl (by simp [hkind]) hr

end Phrase

private theorem atom?_of_literal {token : Token} {value : Literal} (h : token.kind = value.kind) :
    atom? token = some (.literal value) := by
  unfold atom?
  cases value with
  | bool b => cases b <;> rw [h] <;> rfl
  | _ =>
      rw [h]
      rfl

mutual

/-- An expression of the right shape is written with the tokens that fit its pieces. -/
theorem Expr.written_of_shaped : ∀ (e : Expr) (ts : List Token), e.Shaped →
    Unparses e.pieces ts → (Phrase.binding e.strength e).Written ts
  | .assign name value => by
      rintro ts ⟨hname, hvalue⟩ h
      obtain ⟨_, _, rfl, rfl, hmore⟩ := h.cons_inv
      obtain ⟨equals, us, rfl, hequals, hus⟩ := hmore.cons_inv
      have hwritten := Expr.written_of_shaped value us hvalue hus
      exact .assign hname hequals (hwritten.binding_of_le (Nat.zero_le _))
  | .binary left op right => by
      rintro ts ⟨k, hop, hleft, hl, hright, hr⟩ h
      obtain ⟨us, _, rfl, hus, hmore⟩ := h.append_inv
      obtain ⟨_, vs, rfl, rfl, hvs⟩ := hmore.cons_inv
      have hls := (Expr.written_of_shaped left us hleft hus).binding_of_le hl
      have hrs := (Expr.written_of_shaped right vs hright hvs).binding_of_le hr
      rw [Expr.strength, hop]
      exact .binary hop hls hrs
  | .logical left op right => by
      rintro ts ⟨k, hop, hleft, hl, hright, hr⟩ h
      obtain ⟨us, _, rfl, hus, hmore⟩ := h.append_inv
      obtain ⟨_, vs, rfl, rfl, hvs⟩ := hmore.cons_inv
      have hls := (Expr.written_of_shaped left us hleft hus).binding_of_le hl
      have hrs := (Expr.written_of_shaped right vs hright hvs).binding_of_le hr
      rw [Expr.strength, hop]
      exact .logical hop hls hrs
  | .call callee paren args => by
      rintro ts ⟨hcallee, hc, hparen, hargs, hcount⟩ h
      obtain ⟨us, _, rfl, hus, hcall⟩ := h.append_inv
      obtain ⟨opening, _, rfl, hopening, hmore⟩ := hcall.cons_inv
      obtain ⟨as, _, rfl, has, hlast⟩ := hmore.append_inv
      obtain ⟨_, rfl, rfl⟩ := hlast.single_inv
      have hwritten := (Expr.written_of_shaped callee us hcallee hus).binding_of_le hc
      exact .apply hwritten hopening (Expr.written_arguments args as hargs has) hcount
        hparen
  | .grouping inner => by
      intro ts hinner h
      obtain ⟨opening, _, rfl, hopening, hmore⟩ := h.cons_inv
      obtain ⟨us, _, rfl, hus, hlast⟩ := hmore.append_inv
      obtain ⟨closing, rfl, hclosing⟩ := hlast.single_inv
      have hwritten := Expr.written_of_shaped inner us hinner hus
      exact .grouping hopening (hwritten.binding_of_le (Nat.zero_le _)) hclosing
  | .literal value => by
      intro ts _ h
      obtain ⟨token, rfl, hkind⟩ := h.single_inv
      exact .atom (atom?_of_literal hkind)
  | .unary op right => by
      rintro ts ⟨hop, hright, hr⟩ h
      obtain ⟨_, us, rfl, rfl, hus⟩ := h.cons_inv
      have hwritten := (Expr.written_of_shaped right us hright hus).binding_of_le hr
      exact .operator (by simpa [unaryOperators] using hop) hwritten
  | .var name => by
      intro ts hname h
      have hkind : name.kind = .identifier := hname
      obtain ⟨token, rfl, hfits⟩ := h.single_inv
      rw [show token = name from hfits]
      exact .atom (by rw [atom?, hkind])
  | .get _ _ | .set _ _ _ | .super _ _ | .this _ => fun _ hshaped _ => nomatch hshaped

theorem Expr.written_arguments : ∀ (es : List Expr) (ts : List Token), Expr.ShapedList es →
    Unparses (Expr.argumentPieces es) ts → (Phrase.arguments es).Written ts
  | [], ts, _, h => by
      rw [Unparses.nil_inv h]
      exact .noArguments
  | e :: es, ts, ⟨he, hes⟩, h => by
      obtain ⟨us, vs, rfl, hus, hvs⟩ := Unparses.append_inv h
      have hwritten := Expr.written_of_shaped e us he hus
      exact .arguments (hwritten.binding_of_le (Nat.zero_le _))
        (Expr.written_moreArguments es vs hes hvs)

theorem Expr.written_moreArguments : ∀ (es : List Expr) (ts : List Token), Expr.ShapedList es →
    Unparses (Expr.moreArgumentPieces es) ts → (Phrase.moreArguments es).Written ts
  | [], ts, _, h => by
      rw [Unparses.nil_inv h]
      exact .noMore
  | e :: es, ts, ⟨he, hes⟩, h => by
      obtain ⟨comma, _, rfl, hcomma, hmore⟩ := Unparses.cons_inv h
      obtain ⟨us, vs, rfl, hus, hvs⟩ := hmore.append_inv
      have hwritten := Expr.written_of_shaped e us he hus
      exact .more hcomma (hwritten.binding_of_le (Nat.zero_le _))
        (Expr.written_moreArguments es vs hes hvs)

end

/-! ### Expressions: from rules to shape

Here the induction is on how the tokens are a way to write the tree.  A phrase stands at
a level, and what it says of its tree is the strength of that level at least.
-/

/-- The operators of a level bind as tightly as its place says. -/
theorem strength_of_mem {level : Level} {tighter : List Level} (h : level :: tighter <:+ levels)
    {kind : Token.Kind} (hkind : kind ∈ level.operators) :
    level.node = .logical ∧ logicalStrength? kind = some (6 - tighter.length) ∨
      level.node = .binary ∧ binaryStrength? kind = some (6 - tighter.length) := by
  simp only [levels, List.suffix_cons_iff, List.suffix_nil, List.cons.injEq, reduceCtorEq,
    or_false] at h
  rcases h with ⟨rfl, rfl⟩ | ⟨rfl, rfl⟩ | ⟨rfl, rfl⟩ | ⟨rfl, rfl⟩ | ⟨rfl, rfl⟩ | ⟨rfl, rfl⟩ <;>
    simp only [List.mem_cons, List.not_mem_nil, or_false] at hkind <;>
    rcases hkind with rfl | rfl | rfl | rfl <;> simp [logicalStrength?, binaryStrength?]

/-- What an operator of a level makes of operands that bind tightly enough. -/
theorem shaped_node {level : Level} {tighter : List Level} {l r : Expr} {op : Token}
    (hlevel : level :: tighter <:+ levels) (hop : op.kind ∈ level.operators)
    (hls : l.Shaped) (hl : 6 - tighter.length ≤ l.strength)
    (hrs : r.Shaped) (hr : 6 - tighter.length < r.strength) :
    (level.node l op r).Shaped ∧ 6 - tighter.length ≤ (level.node l op r).strength ∧
      (level.node l op r).pieces = l.pieces ++ .kept op :: r.pieces := by
  rcases strength_of_mem hlevel hop with ⟨hnode, hkind⟩ | ⟨hnode, hkind⟩ <;> rw [hnode]
  · refine ⟨⟨_, hkind, hls, hl, hrs, hr⟩, ?_, rfl⟩
    rw [Expr.strength, hkind]
    exact Nat.le_refl _
  · refine ⟨⟨_, hkind, hls, hl, hrs, hr⟩, ?_, rfl⟩
    rw [Expr.strength, hkind]
    exact Nat.le_refl _

private theorem shaped_of_atom? {token : Token} {e : Expr} (h : atom? token = some e) :
    e.Shaped ∧ e.strength = 9 ∧ Unparses e.pieces [token] := by
  unfold atom? at h
  split at h <;> rename_i hkind <;> cases h
  iterate 5 exact ⟨trivial, rfl, .single hkind⟩
  exact ⟨hkind, rfl, .single rfl⟩

/-- What the tokens of a phrase say of its tree. -/
def Phrase.IsTree : Phrase → List Token → Prop
  | .expression e, ts => e.Shaped ∧ Unparses e.pieces ts
  | .operation levels e, ts => levels <:+ Parser.levels →
      e.Shaped ∧ 7 - levels.length ≤ e.strength ∧ Unparses e.pieces ts
  | .unary e, ts => e.Shaped ∧ 7 ≤ e.strength ∧ Unparses e.pieces ts
  | .call e, ts => e.Shaped ∧ 8 ≤ e.strength ∧ Unparses e.pieces ts
  | .primary e, ts => e.Shaped ∧ 9 ≤ e.strength ∧ Unparses e.pieces ts
  | .arguments es, ts => Expr.ShapedList es ∧ Unparses (Expr.argumentPieces es) ts
  | .moreArguments es, ts => Expr.ShapedList es ∧ Unparses (Expr.moreArgumentPieces es) ts

theorem Phrase.Written.isTree {p : Phrase} {ts : List Token} (h : p.Written ts) :
    p.IsTree ts := by
  induction h with
  | assign hname hequals hvalue ih =>
      obtain ⟨hshaped, hus⟩ := ih
      exact ⟨⟨hname, hshaped⟩, .cons rfl (.cons hequals hus)⟩
  | operation h ih =>
      obtain ⟨hshaped, -, hts⟩ := ih (List.suffix_refl _)
      exact ⟨hshaped, hts⟩
  | operand h ih =>
      intro hlevels
      obtain ⟨hshaped, hstrength, hts⟩ := ih ((List.suffix_cons _ _).trans hlevels)
      refine ⟨hshaped, ?_, hts⟩
      rw [List.length_cons]
      omega
  | join hlevel hl hop hr ihl ihr =>
      intro _
      obtain ⟨hls, hlstrength, hlts⟩ := ihl hlevel
      obtain ⟨hrs, hrstrength, hrts⟩ := ihr ((List.suffix_cons _ _).trans hlevel)
      have hlength := hlevel.length_le
      simp only [List.length_cons, Nat.reduceSubDiff, levels, List.length_nil]
        at hlength hlstrength ⊢
      obtain ⟨hshaped, hstrength, hpieces⟩ :=
        shaped_node hlevel hop hls (by omega) hrs (by omega)
      rw [hpieces]
      exact ⟨hshaped, by omega, .append hlts (.cons rfl hrts)⟩
  | unary h ih => exact fun _ => ih
  | operator hop h ih =>
      obtain ⟨hshaped, hstrength, hts⟩ := ih
      exact ⟨⟨by simpa [unaryOperators] using hop, hshaped, hstrength⟩, Nat.le_refl 7,
        .cons rfl hts⟩
  | call h ih =>
      obtain ⟨hshaped, hstrength, hts⟩ := ih
      exact ⟨hshaped, Nat.le_of_succ_le hstrength, hts⟩
  | apply hcallee hopening harguments hcount hclosing ihcallee iharguments =>
      obtain ⟨hshaped, hstrength, hts⟩ := ihcallee
      obtain ⟨hargs, has⟩ := iharguments
      exact ⟨⟨hshaped, hstrength, hclosing, hargs, hcount⟩, Nat.le_refl 8,
        .append hts (.cons hopening (.append has (.single rfl)))⟩
  | primary h ih =>
      obtain ⟨hshaped, hstrength, hts⟩ := ih
      exact ⟨hshaped, Nat.le_of_succ_le hstrength, hts⟩
  | atom h =>
      obtain ⟨hshaped, hstrength, hts⟩ := shaped_of_atom? h
      exact ⟨hshaped, Nat.le_of_eq hstrength.symm, hts⟩
  | grouping hopening h hclosing ih =>
      obtain ⟨hshaped, hts⟩ := ih
      exact ⟨hshaped, Nat.le_refl 9, .cons hopening (.append hts (.single hclosing))⟩
  | noArguments => exact ⟨trivial, .nil⟩
  | arguments h hmore ih ihmore => exact ⟨⟨ih.1, ihmore.1⟩, .append ih.2 ihmore.2⟩
  | noMore => exact ⟨trivial, .nil⟩
  | more hcomma h hmore ih ihmore =>
      exact ⟨⟨ih.1, ihmore.1⟩, .cons hcomma (.append ih.2 ihmore.2)⟩

/-- **An expression is written with some tokens exactly if it has the shape of a parsed one and
the tokens fit its pieces.** -/
theorem written_expression_iff {e : Expr} {ts : List Token} :
    (Phrase.expression e).Written ts ↔ e.Shaped ∧ Unparses e.pieces ts := by
  constructor
  · exact Phrase.Written.isTree
  · intro h
    obtain ⟨hshaped, hts⟩ := h
    exact (Expr.written_of_shaped e ts hshaped hts).binding_of_le (Nat.zero_le _)

/-! ### Parts of statements -/

theorem writtenOptional_iff {value : Option Expr} {ts : List Token} :
    WrittenOptional value ts ↔
      (∀ e ∈ value, e.Shaped) ∧ Unparses (optionalPieces [] value) ts := by
  constructor
  · intro h
    cases h with
    | none => exact ⟨nofun, .nil⟩
    | some he =>
        obtain ⟨hshaped, hts⟩ := written_expression_iff.mp he
        exact ⟨fun _ hmem => Option.some.inj hmem ▸ hshaped, hts⟩
  · rintro ⟨hshaped, hts⟩
    cases value with
    | none =>
        rw [Unparses.nil_inv hts]
        exact .none
    | some e => exact .some (written_expression_iff.mpr ⟨hshaped e rfl, hts⟩)

theorem WrittenVar.isTree {s : Stmt} {ts : List Token} (h : WrittenVar s ts) (f : Bool)
    {keyword : Token} (hkeyword : keyword.kind = .keyword .var_) :
    s.Shaped f ∧ Unparses s.pieces (keyword :: ts) := by
  cases h with
  | bare hname hend => exact ⟨⟨hname, nofun⟩, .cons hkeyword (.cons rfl (.single hend))⟩
  | initialized hname hequals he hend =>
      obtain ⟨hshaped, hts⟩ := written_expression_iff.mp he
      have hvalue : Unparses (optionalPieces [.symbol .equal] (some _)) _ := .cons hequals hts
      exact ⟨⟨hname, fun _ hmem => Option.some.inj hmem ▸ hshaped⟩,
        .cons hkeyword (.cons rfl (.append hvalue (.single hend)))⟩

private theorem writtenVar_of_shaped {name : Token} {initializer : Option Expr} {ts : List Token}
    (hname : name.kind = .identifier) (hshaped : ∀ e ∈ initializer, e.Shaped)
    (h : Unparses (optionalPieces [.symbol .equal] initializer ++ [.symbol .semicolon]) ts) :
    WrittenVar (.var name initializer) (name :: ts) := by
  obtain ⟨us, _, rfl, hus, hlast⟩ := h.append_inv
  obtain ⟨semicolon, rfl, hend⟩ := hlast.single_inv
  cases initializer with
  | none =>
      rw [Unparses.nil_inv hus]
      exact .bare hname hend
  | some e =>
      obtain ⟨equals, vs, rfl, hequals, hvs⟩ := Unparses.cons_inv hus
      exact .initialized hname hequals (written_expression_iff.mpr ⟨hshaped e rfl, hvs⟩) hend

private theorem writtenMoreParameters_iff {names : List Token} : ∀ {ts : List Token},
    WrittenMoreParameters names ts ↔
      (∀ name ∈ names, name.kind = .identifier) ∧ Unparses (moreParameterPieces names) ts := by
  induction names with
  | nil =>
      intro ts
      constructor
      · rintro ⟨⟩
        exact ⟨nofun, .nil⟩
      · rintro ⟨-, hts⟩
        rw [Unparses.nil_inv hts]
        exact .nil
  | cons name names ih =>
      intro ts
      constructor
      · intro h
        cases h with
        | cons hcomma hname hmore =>
            obtain ⟨hnames, hts⟩ := ih.mp hmore
            exact ⟨List.forall_mem_cons.mpr ⟨hname, hnames⟩, .cons hcomma (.cons rfl hts)⟩
      · rintro ⟨hnames, hts⟩
        obtain ⟨hname, hothers⟩ := List.forall_mem_cons.mp hnames
        obtain ⟨comma, _, rfl, hcomma, hmore⟩ := Unparses.cons_inv hts
        obtain ⟨_, us, rfl, rfl, hus⟩ := hmore.cons_inv
        exact .cons hcomma hname (ih.mpr ⟨hothers, hus⟩)

theorem writtenParameters_iff {names ts : List Token} :
    WrittenParameters names ts ↔
      (∀ name ∈ names, name.kind = .identifier) ∧ Unparses (parameterPieces names) ts := by
  constructor
  · intro h
    cases h with
    | nil => exact ⟨nofun, .nil⟩
    | cons hname hmore =>
        obtain ⟨hnames, hts⟩ := writtenMoreParameters_iff.mp hmore
        exact ⟨List.forall_mem_cons.mpr ⟨hname, hnames⟩, .cons rfl hts⟩
  · rintro ⟨hnames, hts⟩
    cases names with
    | nil =>
        rw [Unparses.nil_inv hts]
        exact .nil
    | cons name names =>
        obtain ⟨hname, hothers⟩ := List.forall_mem_cons.mp hnames
        obtain ⟨_, us, rfl, rfl, hus⟩ := Unparses.cons_inv hts
        exact .cons hname (writtenMoreParameters_iff.mpr ⟨hothers, hus⟩)

/-! ### Statements: from shape to rules -/

/-- The part of the grammar for a statement. -/
def Clause.of (f : Bool) (s : Stmt) : Clause :=
  if s.isDeclaration then .declaration f s else .statement f s.endsOpen s

private theorem Clause.of_eq {f : Bool} {s : Stmt} (h : s.isDeclaration = false) :
    Clause.of f s = .statement f s.endsOpen s := by
  rw [Clause.of, h]
  rfl

theorem Clause.Written.toDeclaration {f : Bool} {s : Stmt} {ts : List Token}
    (h : (Clause.of f s).Written ts) : (Clause.declaration f s).Written ts := by
  unfold Clause.of at h
  split at h
  · exact h
  · exact .statement h

mutual

/-- A statement of the right shape is written with the tokens that fit its pieces. -/
theorem Stmt.written_of_shaped : ∀ (f : Bool) (s : Stmt) (ts : List Token), s.Shaped f →
    Unparses s.pieces ts → (Clause.of f s).Written ts
  | f, .block body, ts, hbody, h => by
      obtain ⟨opening, _, rfl, hopening, hmore⟩ := h.cons_inv
      obtain ⟨us, _, rfl, hus, hlast⟩ := hmore.append_inv
      obtain ⟨closing, rfl, hclosing⟩ := hlast.single_inv
      exact .block hopening (Stmt.written_list f body us hbody hus) hclosing
  | f, .expression value, ts, hvalue, h => by
      obtain ⟨us, _, rfl, hus, hlast⟩ := h.append_inv
      obtain ⟨semicolon, rfl, hend⟩ := hlast.single_inv
      exact .expression (written_expression_iff.mpr ⟨hvalue, hus⟩) hend
  | f, .function name params body, ts, ⟨hname, hparams, hcount, hbody⟩, h => by
      obtain ⟨keyword, _, rfl, hkeyword, hmore⟩ := h.cons_inv
      obtain ⟨_, _, rfl, rfl, hlist⟩ := hmore.cons_inv
      obtain ⟨opening, _, rfl, hopening, hlist⟩ := hlist.cons_inv
      obtain ⟨ps, _, rfl, hps, hlist⟩ := hlist.append_inv
      obtain ⟨closing, _, rfl, hclosing, hblock⟩ := hlist.cons_inv
      obtain ⟨left, _, rfl, hleft, hblock⟩ := hblock.cons_inv
      obtain ⟨us, _, rfl, hus, hlast⟩ := hblock.append_inv
      obtain ⟨right, rfl, hright⟩ := hlast.single_inv
      exact .function hkeyword hname hopening (writtenParameters_iff.mpr ⟨hparams, hps⟩) hcount
        hclosing hleft (Stmt.written_list true body us hbody hus) hright
  | f, .conditional condition thenBranch none, ts, ⟨hcondition, hthen, hthenKind, _, _⟩, h => by
      obtain ⟨keyword, _, rfl, hkeyword, hmore⟩ := h.cons_inv
      obtain ⟨opening, _, rfl, hopening, hmore⟩ := hmore.cons_inv
      obtain ⟨us, _, rfl, hus, hmore⟩ := hmore.append_inv
      obtain ⟨closing, _, rfl, hclosing, hbranches⟩ := hmore.cons_inv
      obtain ⟨vs, _, rfl, hvs, hnil⟩ := hbranches.append_inv
      have hwritten := Stmt.written_of_shaped f thenBranch vs hthen hvs
      rw [Clause.of_eq hthenKind] at hwritten
      rw [hnil.nil_inv, List.append_nil]
      exact .conditional hkeyword hopening (written_expression_iff.mpr ⟨hcondition, hus⟩) hclosing
        hwritten
  | f, .conditional condition thenBranch (some elseBranch), ts,
      ⟨hcondition, hthen, hthenKind, hthenEnd, helse, helseKind⟩, h => by
      obtain ⟨keyword, _, rfl, hkeyword, hmore⟩ := h.cons_inv
      obtain ⟨opening, _, rfl, hopening, hmore⟩ := hmore.cons_inv
      obtain ⟨us, _, rfl, hus, hmore⟩ := hmore.append_inv
      obtain ⟨closing, _, rfl, hclosing, hbranches⟩ := hmore.cons_inv
      obtain ⟨vs, _, rfl, hvs, hlast⟩ := hbranches.append_inv
      obtain ⟨divider, ws, rfl, hdivider, hws⟩ := hlast.cons_inv
      have hfirst := Stmt.written_of_shaped f thenBranch vs hthen hvs
      have hsecond := Stmt.written_of_shaped f elseBranch ws helse hws
      rw [Clause.of_eq hthenKind, hthenEnd rfl] at hfirst
      rw [Clause.of_eq helseKind] at hsecond
      exact .choice hkeyword hopening (written_expression_iff.mpr ⟨hcondition, hus⟩) hclosing
        hfirst hdivider hsecond
  | f, .print value, ts, hvalue, h => by
      obtain ⟨keyword, _, rfl, hkeyword, hmore⟩ := h.cons_inv
      obtain ⟨us, _, rfl, hus, hlast⟩ := hmore.append_inv
      obtain ⟨semicolon, rfl, hend⟩ := hlast.single_inv
      exact .print hkeyword (written_expression_iff.mpr ⟨hvalue, hus⟩) hend
  | _, .return_ keyword value, ts, ⟨rfl, hkeyword, hvalue⟩, h => by
      obtain ⟨_, _, rfl, rfl, hmore⟩ := h.cons_inv
      obtain ⟨us, _, rfl, hus, hlast⟩ := hmore.append_inv
      obtain ⟨semicolon, rfl, hend⟩ := hlast.single_inv
      exact .return_ hkeyword (writtenOptional_iff.mpr ⟨hvalue, hus⟩) hend
  | f, .var name initializer, ts, ⟨hname, hinitializer⟩, h => by
      obtain ⟨keyword, _, rfl, hkeyword, hmore⟩ := h.cons_inv
      obtain ⟨_, us, rfl, rfl, hus⟩ := hmore.cons_inv
      exact .var hkeyword (writtenVar_of_shaped hname hinitializer hus)
  | f, .loop condition body, ts, ⟨hcondition, hbody, hbodyKind⟩, h => by
      obtain ⟨keyword, _, rfl, hkeyword, hmore⟩ := h.cons_inv
      obtain ⟨opening, _, rfl, hopening, hmore⟩ := hmore.cons_inv
      obtain ⟨us, _, rfl, hus, hmore⟩ := hmore.append_inv
      obtain ⟨closing, vs, rfl, hclosing, hvs⟩ := hmore.cons_inv
      have hwritten := Stmt.written_of_shaped f body vs hbody hvs
      rw [Clause.of_eq hbodyKind] at hwritten
      exact .loop hkeyword hopening (written_expression_iff.mpr ⟨hcondition, hus⟩) hclosing hwritten

theorem Stmt.written_list : ∀ (f : Bool) (ss : List Stmt) (ts : List Token),
    Stmt.ShapedList f ss → Unparses (Stmt.piecesList ss) ts → (Clause.declarations f ss).Written ts
  | f, [], ts, _, h => by
      rw [Unparses.nil_inv h]
      exact .nil
  | f, s :: ss, ts, ⟨hs, hss⟩, h => by
      obtain ⟨us, vs, rfl, hus, hvs⟩ := Unparses.append_inv h
      exact .cons (Stmt.written_of_shaped f s us hs hus).toDeclaration
        (Stmt.written_list f ss vs hss hvs)

end

/-! ### Statements: from rules to shape

A `for` loop is written with other tokens than those of its tree, so about the tokens
something can be said only if none of them is a `for`.  About the shape there is no such
condition, as the loop that is meant has a shape like any other.
-/

/-- There is no `for` among the tokens. -/
def WithoutFor (ts : List Token) : Prop := ∀ token ∈ ts, token.kind ≠ .keyword .for_

theorem WithoutFor.append {ts us : List Token} :
    WithoutFor (ts ++ us) ↔ WithoutFor ts ∧ WithoutFor us :=
  List.forall_mem_append

theorem WithoutFor.cons {token : Token} {ts : List Token} :
    WithoutFor (token :: ts) ↔ token.kind ≠ .keyword .for_ ∧ WithoutFor ts :=
  List.forall_mem_cons

/-- What a `for` loop stands for has the shape of a parsed statement, and ends open only if the
loop does. -/
theorem Stmt.shaped_forLoop {f : Bool} {initializer : Option Stmt} {condition increment : Option Expr}
    {body : Stmt} (hi : ∀ s ∈ initializer, s.Shaped f) (hc : ∀ e ∈ condition, e.Shaped)
    (hn : ∀ e ∈ increment, e.Shaped) (hbody : body.Shaped f) (hkind : body.isDeclaration = false) :
    (Stmt.forLoop initializer condition increment body).Shaped f ∧
      (Stmt.forLoop initializer condition increment body).isDeclaration = false ∧
      ((Stmt.forLoop initializer condition increment body).endsOpen = true →
        body.endsOpen = true) := by
  have hcondition : (condition.getD (.literal (.bool true))).Shaped := by
    cases condition with
    | none => trivial
    | some e => exact hc e rfl
  cases increment with
  | none =>
      have hloop : (Stmt.loop (condition.getD (.literal (.bool true))) body).Shaped f :=
        ⟨hcondition, hbody, hkind⟩
      cases initializer with
      | none => exact ⟨hloop, rfl, id⟩
      | some s => exact ⟨⟨hi s rfl, hloop, trivial⟩, rfl, nofun⟩
  | some e =>
      have hloop : (Stmt.loop (condition.getD (.literal (.bool true)))
          (.block [body, .expression e])).Shaped f :=
        ⟨hcondition, ⟨hbody, hn e rfl, trivial⟩, rfl⟩
      cases initializer with
      | none => exact ⟨hloop, rfl, nofun⟩
      | some s => exact ⟨⟨hi s rfl, hloop, trivial⟩, rfl, nofun⟩

private theorem WrittenInitializer.shaped {initializer : Option Stmt} {ts : List Token}
    (h : WrittenInitializer initializer ts) (f : Bool) : ∀ s ∈ initializer, s.Shaped f := by
  cases h with
  | none => exact nofun
  | var hkeyword hs => exact fun _ hmem => Option.some.inj hmem ▸ (hs.isTree f hkeyword).1
  | expression he =>
      have hshaped := (written_expression_iff.mp he).1
      exact fun _ hmem => Option.some.inj hmem ▸ hshaped

/-- What the tokens of a clause say of its tree. -/
def Clause.IsTree : Clause → List Token → Prop
  | .statement f isOpen s, ts => s.Shaped f ∧ s.isDeclaration = false ∧
      (s.endsOpen = true → isOpen = true) ∧ (WithoutFor ts → Unparses s.pieces ts)
  | .declaration f s, ts => s.Shaped f ∧ (WithoutFor ts → Unparses s.pieces ts)
  | .declarations f ss, ts =>
      Stmt.ShapedList f ss ∧ (WithoutFor ts → Unparses (Stmt.piecesList ss) ts)

theorem Clause.Written.isTree {c : Clause} {ts : List Token} (h : c.Written ts) :
    c.IsTree ts := by
  induction h with
  | expression he hend =>
      obtain ⟨hshaped, hts⟩ := written_expression_iff.mp he
      exact ⟨hshaped, rfl, nofun, fun _ => .append hts (.single hend)⟩
  | print hkeyword he hend =>
      obtain ⟨hshaped, hts⟩ := written_expression_iff.mp he
      exact ⟨hshaped, rfl, nofun, fun _ => .cons hkeyword (.append hts (.single hend))⟩
  | return_ hkeyword hvalue hend =>
      obtain ⟨hshaped, hts⟩ := writtenOptional_iff.mp hvalue
      exact ⟨⟨rfl, hkeyword, hshaped⟩, rfl, nofun,
        fun _ => .cons rfl (.append hts (.single hend))⟩
  | loop hkeyword hopening hcondition hclosing hbody ih =>
      obtain ⟨hshaped, hts⟩ := written_expression_iff.mp hcondition
      obtain ⟨hbodyShaped, hkind, hopen, hus⟩ := ih
      refine ⟨⟨hshaped, hbodyShaped, hkind⟩, rfl, hopen, ?_⟩
      intro hfor
      simp only [WithoutFor.cons, WithoutFor.append] at hfor
      obtain ⟨-, -, -, -, hfor⟩ := hfor
      exact .cons hkeyword (.cons hopening (.append hts (.cons hclosing (hus hfor))))
  | forLoop hkeyword hopening hinitializer hcondition hsemicolon hincrement hclosing hbody ih =>
      obtain ⟨hbodyShaped, hkind, hopen, -⟩ := ih
      obtain ⟨hshaped, hloopKind, hloopOpen⟩ := Stmt.shaped_forLoop (hinitializer.shaped _)
        (writtenOptional_iff.mp hcondition).1 (writtenOptional_iff.mp hincrement).1 hbodyShaped hkind
      refine ⟨hshaped, hloopKind, fun h => hopen (hloopOpen h), fun hfor => ?_⟩
      exact absurd hkeyword (hfor _ List.mem_cons_self)
  | conditional hkeyword hopening hcondition hclosing hthen ih =>
      obtain ⟨hshaped, hts⟩ := written_expression_iff.mp hcondition
      obtain ⟨hthenShaped, hkind, -, hus⟩ := ih
      refine ⟨⟨hshaped, hthenShaped, hkind, nofun, trivial⟩, rfl, fun _ => rfl, ?_⟩
      intro hfor
      simp only [WithoutFor.cons, WithoutFor.append] at hfor
      obtain ⟨-, -, -, -, hfor⟩ := hfor
      rw [Stmt.pieces, Stmt.piecesElse, List.append_nil]
      exact .cons hkeyword (.cons hopening (.append hts (.cons hclosing (hus hfor))))
  | choice hkeyword hopening hcondition hclosing hthen hdivider helse ihthen ihelse =>
      obtain ⟨hshaped, hts⟩ := written_expression_iff.mp hcondition
      obtain ⟨hthenShaped, hthenKind, hthenOpen, hus⟩ := ihthen
      obtain ⟨helseShaped, helseKind, helseOpen, hvs⟩ := ihelse
      refine ⟨⟨hshaped, hthenShaped, hthenKind, fun _ => ?_, helseShaped, helseKind⟩, rfl,
        helseOpen, ?_⟩
      · exact Bool.eq_false_iff.mpr fun h => nomatch hthenOpen h
      · intro hfor
        simp only [WithoutFor.cons, WithoutFor.append] at hfor
        obtain ⟨-, -, -, -, hthenFor, -, helseFor⟩ := hfor
        exact .cons hkeyword (.cons hopening (.append hts (.cons hclosing
          (.append (hus hthenFor) (.cons hdivider (hvs helseFor))))))
  | block hopening hbody hclosing ih =>
      obtain ⟨hshaped, hts⟩ := ih
      refine ⟨hshaped, rfl, nofun, ?_⟩
      intro hfor
      simp only [WithoutFor.cons, WithoutFor.append] at hfor
      obtain ⟨-, hfor, -⟩ := hfor
      exact .cons hopening (.append (hts hfor) (.single hclosing))
  | function hkeyword hname hopening hparams hcount hclosing hleft hbody hright ih =>
      obtain ⟨hnames, hps⟩ := writtenParameters_iff.mp hparams
      obtain ⟨hshaped, hts⟩ := ih
      refine ⟨⟨hname, hnames, hcount, hshaped⟩, ?_⟩
      intro hfor
      simp only [WithoutFor.cons, WithoutFor.append] at hfor
      obtain ⟨-, -, -, -, -, -, hfor, -⟩ := hfor
      exact .cons hkeyword (.cons rfl (.cons hopening (.append hps (.cons hclosing (.cons hleft
        (.append (hts hfor) (.single hright)))))))
  | var hkeyword hs =>
      obtain ⟨hshaped, hts⟩ := hs.isTree _ hkeyword
      exact ⟨hshaped, fun _ => hts⟩
  | statement hs ih => exact ⟨ih.1, ih.2.2.2⟩
  | nil => exact ⟨trivial, fun _ => .nil⟩
  | cons hs hss ih ihss =>
      refine ⟨⟨ih.1, ihss.1⟩, fun hfor => ?_⟩
      obtain ⟨hfirst, hmore⟩ := WithoutFor.append.mp hfor
      exact .append (ih.2 hfirst) (ihss.2 hmore)

/-! ### Whole programs -/

/-- Statements of the right shape are parsed from any tokens that fit their pieces. -/
theorem parse_of_unparses {ss : List Stmt} {ts : List Token} {last : Token}
    (hss : Stmt.ShapedList false ss) (hts : Unparses (Stmt.piecesList ss) ts)
    (hlast : last.kind = .endOfFile) : parse (ts ++ [last]) = ⟨ss, []⟩ := by
  have hwritten := Stmt.written_list false ss ts hss hts
  exact (parse_append_eq_iff hwritten.isEnd_eq_false (decide_eq_true hlast)).mpr hwritten

/-- **Parsing and unparsing are inverse.**  Statements in the shape of parsed ones come back from
the tokens they unparse to, whatever the texts and lines of those that the statements do not keep;
what is parsed without a fault has this shape, and without a `for` it unparses to the tokens it
came from. -/
theorem parse_inverse_unparse {last : Token} (hlast : last.kind = .endOfFile) :
    (∀ ss, Stmt.ShapedList false ss → parse (unparse ss ++ [last]) = ⟨ss, []⟩ ∧
      ∀ ts, Unparses (Stmt.piecesList ss) ts → parse (ts ++ [last]) = ⟨ss, []⟩) ∧
    ∀ ts, (∀ token ∈ ts, token.kind ≠ .endOfFile) → (parse (ts ++ [last])).faults = [] →
      Stmt.ShapedList false (parse (ts ++ [last])).statements ∧
      (WithoutFor ts → Unparses (Stmt.piecesList (parse (ts ++ [last])).statements) ts) := by
  refine ⟨fun ss hss => ⟨?_, fun ts hts => parse_of_unparses hss hts hlast⟩, ?_⟩
  · exact parse_of_unparses hss (unparses_unparse ss) hlast
  · intro ts hends hfaults
    have hwritten : (Clause.declarations false (parse (ts ++ [last])).statements).Written ts := by
      rw [← parse_append_eq_iff (fun token hmem => decide_eq_false (hends token hmem))
        (decide_eq_true hlast), ← hfaults]
    exact hwritten.isTree

/-- `if (a) a = (nil == a) and !a(nil); else print a;` -/
def sampleChoice : List Stmt :=
  let a : Token := ⟨.identifier, "a", 1⟩
  let grouped : Expr := .grouping (.binary (.literal .nil) ⟨.symbol .equalEqual, "==", 1⟩ (.var a))
  let called : Expr := .call (.var a) ⟨.symbol .rightParen, ")", 1⟩ [.literal .nil]
  [.conditional (.var a)
    (.expression (.assign a (.logical grouped ⟨.keyword .and_, "and", 1⟩
      (.unary ⟨.symbol .bang, "!", 1⟩ called))))
    (some (.print (.var a)))]

private theorem shaped_sampleChoice : Stmt.ShapedList false sampleChoice := by
  simp [sampleChoice, Stmt.ShapedList, Stmt.Shaped, Stmt.ShapedElse, Stmt.isDeclaration,
    Stmt.endsOpen, Expr.Shaped, Expr.ShapedList, Expr.strength, logicalStrength?, binaryStrength?,
    maxArity]

/-- The sample is parsed from its tokens, and unparses to them. -/
theorem parse_inverse_unparse_sampleChoice :
    parse (unparse sampleChoice ++ [.endOfFile 1]) = ⟨sampleChoice, []⟩ ∧
      Unparses (Stmt.piecesList (parse (unparse sampleChoice ++ [.endOfFile 1])).statements)
        (unparse sampleChoice) := by
  obtain ⟨hparse, hunparse⟩ :=
    parse_inverse_unparse (show (Token.endOfFile 1).kind = .endOfFile from rfl)
  obtain ⟨hsample, -⟩ := hparse sampleChoice shaped_sampleChoice
  have hends : ∀ token ∈ unparse sampleChoice, token.kind ≠ .endOfFile := by decide
  have hfor : WithoutFor (unparse sampleChoice) := by
    rw [WithoutFor]
    decide
  exact ⟨hsample, (hunparse _ hends (by rw [hsample])).2 hfor⟩

end Lox
