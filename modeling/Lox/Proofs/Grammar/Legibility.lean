/-
Expressions are legible.

The text of an expression is read back in two steps: a text of plain words is the text
of one form, and the form tells the expression.  For a form says what each of its words
is: one at the head is an operator or names the kind of expression, and the others are
the lexemes of tokens, which tell their kinds.

Words are plain, and lexemes tell kinds, as long as they are those of tokens of a source.
The exceptions are literals, of which the text is not a lexeme: a string has no quotes,
and an infinite number is written like a name.
-/
import Lox.Proofs.Grammar.PrefixForms
import Lox.Proofs.Grammar.Occurrence
import Lox.Proofs.Lines.Relabel
import Lox.Proofs.Number.Reading

namespace Lox

/-! ### Legible literals -/

/-- The literal's text cannot be taken for anything else. -/
def Literal.Legible : Literal → Prop
  | string _ => False
  | number n => n.isInfinite = false
  | nil | bool _ => True

/-- There are no strings and no infinite numbers among the literals of the expression. -/
def Expr.Legible (e : Expr) : Prop := ∀ v, literal v ∈ e.parts → v.Legible

/-! ### Words -/

section Words

variable {w : List Char} {kind : Token.Kind}

private theorem isInner_of_isLetter {c : Char} (h : IsLetter c) : PrefixForm.IsInner c := by
  refine ⟨?_, ?_, ?_⟩ <;> rintro rfl <;> exact absurd h (by decide)

private theorem isInner_of_isDigit {c : Char} (h : IsDigit c) : PrefixForm.IsInner c := by
  refine ⟨?_, ?_, ?_⟩ <;> rintro rfl <;> exact absurd h (by decide)

theorem WordText.isWord (h : WordText w) : PrefixForm.IsWord w := by
  obtain ⟨hc, hcs⟩ := h
  refine ⟨List.cons_ne_nil _ _, List.forall_mem_cons.mpr ⟨isInner_of_isLetter hc, fun d hd => ?_⟩⟩
  exact (hcs d hd).elim isInner_of_isLetter isInner_of_isDigit

private theorem NumberText.isWord (h : NumberText w) : PrefixForm.IsWord w := by
  obtain ⟨c, more, heq, -⟩ := Segment.numberText_head h
  refine ⟨by rw [heq]; exact List.cons_ne_nil _ _, fun d hd => ⟨?_, ?_, ?_⟩⟩ <;>
    rintro rfl <;> exact h.notMem (by decide) (by decide) hd

/-- Of symbols, the parentheses alone are not words. -/
theorem Symbol.isWord {s : Symbol} (hleft : s ≠ .leftParen) (hright : s ≠ .rightParen) :
    PrefixForm.IsWord s.text.toList := by
  have hequal : PrefixForm.IsInner '=' := by decide
  rcases s.text_cases with ⟨c, htext, hc⟩ | ⟨c, first, htext, hc, hlonger⟩
  · have hinner : PrefixForm.IsInner c := by
      refine ⟨?_, ?_, ?_⟩ <;> rintro rfl <;> cases hc
      · exact hleft rfl
      · exact hright rfl
    rw [htext]
    exact ⟨List.cons_ne_nil _ _, List.forall_mem_singleton.mpr hinner⟩
  · have hinner : PrefixForm.IsInner c := by
      refine ⟨?_, ?_, ?_⟩ <;> rintro rfl <;> cases hc <;> cases hlonger
    rw [htext]
    exact ⟨List.cons_ne_nil _ _,
      List.forall_mem_cons.mpr ⟨hinner, List.forall_mem_singleton.mpr hequal⟩⟩

/-- The lexemes of tokens are words but for parentheses and strings. -/
theorem Token.Kind.Spelled.isWord (h : kind.Spelled w) (hstring : ∀ s, kind ≠ .string s)
    (hleft : kind ≠ .symbol .leftParen) (hright : kind ≠ .symbol .rightParen) :
    PrefixForm.IsWord w := by
  cases h with
  | symbol s => exact Symbol.isWord (fun heq => hleft (heq ▸ rfl)) fun heq => hright (heq ▸ rfl)
  | keyword k => exact k.wordText.isWord
  | identifier hw => exact hw.isWord
  | number hw => exact NumberText.isWord ⟨_, hw⟩
  | string => exact absurd rfl (hstring _)

end Words

/-! ### Reading forms

Reading goes by the word at the head of a form, and by how many forms stand behind it.
That works because the names under which expressions are written are no lexemes of
operators.
-/

/-- The token with this lexeme. -/
def Token.ofLexeme (w : List Char) : Token := ⟨.ofLexeme w, String.ofList w, 0⟩

theorem Token.Fits.ofLexeme_eq {t : Token} (h : t.Fits) :
    Token.ofLexeme t.lexeme.toList = t.relabel fun _ => 0 := by
  rw [Token.ofLexeme, Token.Kind.Spelled.ofLexeme_eq h, String.ofList_toList]
  rfl

/-- The expression that is a word. -/
def Expr.ofWord (w : List Char) : Expr :=
  match Token.Kind.ofLexeme w with
  | .keyword .nil_ => literal .nil
  | .keyword .true_ => literal (.bool true)
  | .keyword .false_ => literal (.bool false)
  | .number n => literal (.number n)
  | _ => var (.ofLexeme w)

/-- The expression with this word at its head and these expressions behind it.  Other words than
the names of expressions are operators, which stand before one operand or two. -/
def Expr.ofParts (head : List Char) (arguments : List Expr) : Expr :=
  if head = "assign".toList then
    match arguments with
    | [var name, value] => assign name value
    | _ => default
  else if head = "call".toList then
    match arguments with
    | callee :: arguments => call callee (.ofLexeme ")".toList) arguments
    | [] => default
  else if head = "group".toList then
    match arguments with
    | [inner] => grouping inner
    | _ => default
  else
    match arguments with
    | [right] => unary (.ofLexeme head) right
    | [left, right] =>
      if (logicalStrength? (.ofLexeme head)).isSome then logical left (.ofLexeme head) right
      else binary left (.ofLexeme head) right
    | _ => default

mutual

/-- The expression of which this is the form. -/
def PrefixForm.read : PrefixForm → Expr
  | word w => .ofWord w
  | node head arguments => .ofParts head (readAll arguments)

def PrefixForm.readAll : List PrefixForm → List Expr
  | [] => []
  | f :: fs => f.read :: readAll fs

end

/-- The token is an operator. -/
def Token.IsOperator (t : Token) : Prop :=
  (∃ k, binaryStrength? t.kind = some k) ∨ (∃ k, logicalStrength? t.kind = some k) ∨
    t.kind = .symbol .bang

namespace Token.IsOperator

variable {t : Token}

private theorem of_unary (h : t.kind = .symbol .bang ∨ t.kind = .symbol .minus) : t.IsOperator := by
  rcases h with h | h
  · exact .inr (.inr h)
  · exact .inl ⟨5, by rw [h]; rfl⟩

private theorem kind_ne (h : t.IsOperator) {kind : Token.Kind}
    (hbinary : binaryStrength? kind = none)
    (hlogical : logicalStrength? kind = none) (hbang : kind ≠ .symbol .bang) : t.kind ≠ kind := by
  rintro rfl
  rcases h with ⟨k, hk⟩ | ⟨k, hk⟩ | hk
  · rw [hbinary] at hk
    cases hk
  · rw [hlogical] at hk
    cases hk
  · exact hbang hk

private theorem isWord (h : t.IsOperator) (hfits : t.Fits) : PrefixForm.IsWord t.lexeme.toList :=
  Kind.Spelled.isWord hfits (fun _ => h.kind_ne rfl rfl Kind.noConfusion)
    (h.kind_ne rfl rfl (by decide)) (h.kind_ne rfl rfl (by decide))

/-- The names of expressions are no operators. -/
theorem ne_name (h : t.IsOperator) (hfits : t.Fits) {name : List Char}
    (hname : Kind.ofLexeme name = .identifier) : t.lexeme.toList ≠ name := by
  rintro rfl
  rw [Kind.Spelled.ofLexeme_eq hfits] at hname
  exact h.kind_ne rfl rfl (by decide) hname

end Token.IsOperator

/-! ### Words of expressions -/

private theorem Expr.ofWord_eq_var {name : Token} (hname : name.kind = .identifier)
    (hfits : name.Fits) : Expr.ofWord name.lexeme.toList = .var (name.relabel fun _ => 0) := by
  rw [Expr.ofWord, Token.Kind.Spelled.ofLexeme_eq hfits, hname, hfits.ofLexeme_eq]

/-- Digits make no NaN, so a number that is read from them and is not infinite is finite. -/
theorem Number.isFinite_ofDecimal {d : Decimal} (h : (ofDecimal d).isInfinite = false) :
    (ofDecimal d).isFinite = true := by
  have hnumber := isNaN_ofDecimal d
  simp only [isNaN, isInfinite, isFinite, decide_eq_false_iff_not, decide_eq_true_eq] at *
  omega

/-- And then it is written with digits. -/
theorem Number.spelled_text {n : Number} {w : List Char} (h : (Token.Kind.number n).Spelled w)
    (hinfinite : n.isInfinite = false) : (Token.Kind.number n).Spelled n.text.toList := by
  cases h with
  | @number _ d _ =>
      have hfinite := isFinite_ofDecimal hinfinite
      have hsign := isNegative_ofDecimal d
      obtain ⟨d', hnumeral, hread⟩ := exists_numeral hfinite
      rw [ofMagnitude_magnitude hsign] at hread
      rw [toList_text hfinite, if_neg (ne_true_of_eq_false hsign)]
      have hspelled := Token.Kind.Spelled.number hnumeral
      rwa [hread] at hspelled

/-- The text of a legible literal is a lexeme for it. -/
theorem Literal.spelled_text {v : Literal} (h : (Expr.literal v).Sound) (hlegible : v.Legible) :
    v.kind.Spelled v.text.toList := by
  cases v with
  | nil => exact .keyword .nil_
  | bool b =>
      cases b with
      | true => exact .keyword .true_
      | false => exact .keyword .false_
  | number n =>
      obtain ⟨t, ht, hkind⟩ := (MadeOf.cons_iff.mp h.fits).1 n rfl
      rw [Token.Fits, hkind] at ht
      exact Number.spelled_text ht hlegible
  | string contents => exact hlegible.elim

private theorem Expr.ofWord_eq_literal {v : Literal} (h : (Expr.literal v).Sound)
    (hlegible : v.Legible) : Expr.ofWord v.text.toList = .literal v := by
  rw [Expr.ofWord, (Literal.spelled_text h hlegible).ofLexeme_eq]
  cases v with
  | nil => rfl
  | bool b => cases b <;> rfl
  | number n => rfl
  | string contents => exact hlegible.elim

private theorem Literal.isWord_text {v : Literal} (h : (Expr.literal v).Sound)
    (hlegible : v.Legible) : PrefixForm.IsWord v.text.toList := by
  refine (spelled_text h hlegible).isWord ?_ ?_ ?_
  all_goals
    cases v with
    | bool b => cases b <;> simp [kind]
    | string contents => exact hlegible.elim
    | _ => simp [kind]

private theorem Token.isWord_of_identifier {name : Token} (hname : name.kind = .identifier)
    (hfits : name.Fits) : PrefixForm.IsWord name.lexeme.toList := by
  refine Kind.Spelled.isWord hfits ?_ ?_ ?_ <;> simp [hname]

private theorem PrefixForm.isWord_name {c : Char} {cs : List Char} (hc : isWordStart c = true)
    (hcs : cs.all isWordRest = true) : IsWord (c :: cs) :=
  (WordText.of_all hc hcs).isWord

/-! ### The parts of legible expressions -/

theorem Expr.Legible.of_parts {e part : Expr} (h : e.Legible) (hparts : part.parts ⊆ e.parts) :
    part.Legible := fun v hv => h v (hparts hv)

namespace Expr

namespace Legible

variable {left right callee inner value : Expr} {name op paren : Token} {arguments : List Expr}

theorem assign (h : (Expr.assign name value).Legible) : value.Legible :=
  h.of_parts (List.subset_cons_self _ _)

theorem binary (h : (Expr.binary left op right).Legible) : left.Legible ∧ right.Legible :=
  ⟨h.of_parts (List.subset_cons_of_subset _ (List.subset_append_left _ _)),
    h.of_parts (List.subset_cons_of_subset _ (List.subset_append_right _ _))⟩

theorem logical (h : (Expr.logical left op right).Legible) : left.Legible ∧ right.Legible :=
  ⟨h.of_parts (List.subset_cons_of_subset _ (List.subset_append_left _ _)),
    h.of_parts (List.subset_cons_of_subset _ (List.subset_append_right _ _))⟩

theorem call (h : (Expr.call callee paren arguments).Legible) :
    callee.Legible ∧ ∀ e ∈ arguments, e.Legible := by
  refine ⟨h.of_parts (List.subset_cons_of_subset _ (List.subset_append_left _ _)), ?_⟩
  intro e he
  exact h.of_parts (List.subset_cons_of_subset _
    (List.subset_append_of_subset_right _ (parts_subset_partsAll e he)))

theorem grouping (h : (Expr.grouping inner).Legible) : inner.Legible :=
  h.of_parts (List.subset_cons_self _ _)

theorem unary (h : (Expr.unary op right).Legible) : right.Legible :=
  h.of_parts (List.subset_cons_self _ _)

theorem literal {v : Literal} (h : (Expr.literal v).Legible) : v.Legible :=
  h v List.mem_cons_self

end Legible

/-! ### Expressions and their forms

An expression is read back from its form without the lines, which a form does not hold,
and with each token made anew from its lexeme.  For tokens with lexemes that fit, this
is the token but for the line.
-/

mutual

/-- The form of a sound and legible expression consists of plain words. -/
theorem plain_form : ∀ {e : Expr}, e.Sound → e.Legible → e.form.Plain
  | .assign _ _, h, hl => by
      obtain ⟨hname, hfits, hvalue⟩ := h.assign
      exact ⟨PrefixForm.isWord_name (by decide) (by decide), Token.isWord_of_identifier hname hfits,
        plain_form hvalue hl.assign, trivial⟩
  | .binary _ _ _, h, hl => by
      obtain ⟨hop, hfits, hleft, hright⟩ := h.binary
      exact ⟨Token.IsOperator.isWord (.inl hop) hfits, plain_form hleft hl.binary.1,
        plain_form hright hl.binary.2, trivial⟩
  | .call _ _ _, h, hl => by
      obtain ⟨hcallee, -, -, harguments⟩ := h.call
      exact ⟨PrefixForm.isWord_name (by decide) (by decide), plain_form hcallee hl.call.1,
        plain_formAll harguments hl.call.2⟩
  | .get _ _, h, _ => h.shaped.elim
  | .grouping _, h, hl =>
      ⟨PrefixForm.isWord_name (by decide) (by decide), plain_form h.grouping hl.grouping, trivial⟩
  | .literal _, h, hl => Literal.isWord_text h hl.literal
  | .logical _ _ _, h, hl => by
      obtain ⟨hop, hfits, hleft, hright⟩ := h.logical
      exact ⟨Token.IsOperator.isWord (.inr (.inl hop)) hfits, plain_form hleft hl.logical.1,
        plain_form hright hl.logical.2, trivial⟩
  | .set _ _ _, h, _ => h.shaped.elim
  | .super _ _, h, _ => h.shaped.elim
  | .this _, h, _ => h.shaped.elim
  | .unary _ _, h, hl => by
      obtain ⟨hop, hfits, hright⟩ := h.unary
      exact ⟨Token.IsOperator.isWord (.of_unary hop) hfits, plain_form hright hl.unary, trivial⟩
  | .var _, h, _ => Token.isWord_of_identifier h.var.1 h.var.2

theorem plain_formAll : ∀ {es : List Expr}, (∀ e ∈ es, e.Sound) → (∀ e ∈ es, e.Legible) →
    PrefixForm.PlainAll (formAll es)
  | [], _, _ => trivial
  | _ :: _, h, hl => by
      obtain ⟨he, hes⟩ := List.forall_mem_cons.mp h
      obtain ⟨hle, hles⟩ := List.forall_mem_cons.mp hl
      exact ⟨plain_form he hle, plain_formAll hes hles⟩

end

/-- Behind an operator there is its one operand, or there are two. -/
theorem ofParts_operator {op : Token} (hop : op.IsOperator) (hfits : op.Fits)
    (arguments : List Expr) :
    ofParts op.lexeme.toList arguments = match arguments with
      | [right] => .unary (op.relabel fun _ => 0) right
      | [left, right] =>
        if (logicalStrength? op.kind).isSome then .logical left (op.relabel fun _ => 0) right
        else .binary left (op.relabel fun _ => 0) right
      | _ => default := by
  unfold ofParts
  rw [if_neg (hop.ne_name hfits rfl), if_neg (hop.ne_name hfits rfl),
    if_neg (hop.ne_name hfits rfl), hfits.ofLexeme_eq, Token.Kind.Spelled.ofLexeme_eq hfits]

private theorem logicalStrength?_of_binaryStrength? {kind : Token.Kind} {k : Nat}
    (h : binaryStrength? kind = some k) : logicalStrength? kind = none := by
  cases kind with
  | keyword => cases h
  | _ => rfl

private theorem ofLexeme_paren {paren : Token} (h : paren.kind = .symbol .rightParen)
    (hfits : paren.Fits) : Token.ofLexeme ")".toList = paren.relabel fun _ => 0 := by
  have hspelled : (Token.Kind.symbol .rightParen).Spelled paren.lexeme.toList := h ▸ hfits
  have hlexeme : paren.lexeme.toList = ")".toList := by
    generalize paren.lexeme.toList = w at hspelled
    cases hspelled
    rfl
  rw [← hlexeme, hfits.ofLexeme_eq]

mutual

/-- **The form of a sound and legible expression tells the expression** but for the lines. -/
theorem read_form : ∀ {e : Expr}, e.Sound → e.Legible → e.form.read = e.relabel fun _ => 0
  | .assign name value, h, hl => by
      obtain ⟨hname, hfits, hvalue⟩ := h.assign
      simp only [form, PrefixForm.read, PrefixForm.readAll, ofWord_eq_var hname hfits,
        read_form hvalue hl.assign, relabel]
      rfl
  | .binary left op right, h, hl => by
      obtain ⟨⟨k, hk⟩, hfits, hleft, hright⟩ := h.binary
      simp only [form, PrefixForm.read, PrefixForm.readAll, ofParts_operator (.inl ⟨k, hk⟩) hfits,
        read_form hleft hl.binary.1, read_form hright hl.binary.2, relabel,
        logicalStrength?_of_binaryStrength? hk]
      rfl
  | .call callee paren arguments, h, hl => by
      obtain ⟨hcallee, hparen, hfits, harguments⟩ := h.call
      simp only [form, PrefixForm.read, PrefixForm.readAll, read_form hcallee hl.call.1,
        readAll_formAll harguments hl.call.2, relabel, ← ofLexeme_paren hparen hfits]
      rfl
  | .get _ _, h, _ => h.shaped.elim
  | .grouping inner, h, hl => by
      simp only [form, PrefixForm.read, PrefixForm.readAll, read_form h.grouping hl.grouping,
        relabel]
      rfl
  | .literal v, h, hl => by
      simp only [form, PrefixForm.read, ofWord_eq_literal h hl.literal, relabel]
  | .logical left op right, h, hl => by
      obtain ⟨⟨k, hk⟩, hfits, hleft, hright⟩ := h.logical
      simp only [form, PrefixForm.read, PrefixForm.readAll,
        ofParts_operator (.inr (.inl ⟨k, hk⟩)) hfits, read_form hleft hl.logical.1,
        read_form hright hl.logical.2, relabel, hk]
      rfl
  | .set _ _ _, h, _ => h.shaped.elim
  | .super _ _, h, _ => h.shaped.elim
  | .this _, h, _ => h.shaped.elim
  | .unary op right, h, hl => by
      obtain ⟨hop, hfits, hright⟩ := h.unary
      simp only [form, PrefixForm.read, PrefixForm.readAll, ofParts_operator (.of_unary hop) hfits,
        read_form hright hl.unary, relabel]
  | .var name, h, _ => by
      simp only [form, PrefixForm.read, ofWord_eq_var h.var.1 h.var.2, relabel]

theorem readAll_formAll : ∀ {es : List Expr}, (∀ e ∈ es, e.Sound) → (∀ e ∈ es, e.Legible) →
    PrefixForm.readAll (formAll es) = relabelList (fun _ => 0) es
  | [], _, _ => rfl
  | _ :: _, h, hl => by
      obtain ⟨he, hes⟩ := List.forall_mem_cons.mp h
      obtain ⟨hle, hles⟩ := List.forall_mem_cons.mp hl
      simp only [formAll, PrefixForm.readAll, read_form he hle, readAll_formAll hes hles,
        relabelList]

end

mutual

/-- Lines are not in the form. -/
theorem form_relabel (ρ : Nat → Nat) : ∀ e : Expr, (e.relabel ρ).form = e.form
  | assign name value => by simp [relabel, form, form_relabel ρ value]
  | binary left op right | logical left op right => by
      simp [relabel, form, form_relabel ρ left, form_relabel ρ right]
  | call callee paren arguments => by
      simp [relabel, form, form_relabel ρ callee, formAll_relabelList ρ arguments]
  | get object name => by simp [relabel, form, form_relabel ρ object]
  | grouping inner => by simp [relabel, form, form_relabel ρ inner]
  | literal value => rfl
  | set object name value => by
      simp [relabel, form, form_relabel ρ object, form_relabel ρ value]
  | super keyword method => rfl
  | this keyword => rfl
  | unary op right => by simp [relabel, form, form_relabel ρ right]
  | var name => rfl

theorem formAll_relabelList (ρ : Nat → Nat) : ∀ es : List Expr,
    formAll (relabelList ρ es) = formAll es
  | [] => rfl
  | e :: es => by simp [relabelList, formAll, form_relabel ρ e, formAll_relabelList ρ es]

end

theorem text_eq_iff_form_eq {e e' : Expr} (h : e.form.Plain) (h' : e'.form.Plain) :
    e.text = e'.text ↔ e.form = e'.form := by
  rw [← String.toList_inj, toList_text, toList_text]
  exact ⟨PrefixForm.text_inj h h', fun heq => by rw [heq]⟩

/-- **The text of an expression tells the expression.**  Two expressions of sources, or in them,
without strings and without infinite numbers are written alike if and only if they are the same but
for the lines of their tokens. -/
theorem text_tells_expression {source other : String} {e e' : Expr} (h : OccursIn source e)
    (h' : OccursIn other e') (hlegible : e.Legible) (hlegible' : e'.Legible) :
    e.text = e'.text ↔ (e.relabel fun _ => 0) = e'.relabel fun _ => 0 := by
  have hsound := sound_of_occursIn h
  have hsound' := sound_of_occursIn h'
  rw [text_eq_iff_form_eq (plain_form hsound hlegible) (plain_form hsound' hlegible')]
  constructor
  · intro hform
    rw [← read_form hsound hlegible, ← read_form hsound' hlegible', hform]
  · intro hsame
    rw [← form_relabel (fun _ => 0) e, hsame, form_relabel]

/-- The expression of `a - f(1);`, of which the call may stand on another line. -/
def difference (line : Nat) : Expr :=
  .binary (.var ⟨.identifier, "a", 1⟩) ⟨.symbol .minus, "-", 1⟩
    (.call (.var ⟨.identifier, "f", line⟩) ⟨.symbol .rightParen, ")", line⟩
      [.literal (.number ⟨0x3ff0000000000000⟩)])

/-- The tokens of this expression, and a semicolon, with the one in the call written as it is. -/
def differenceTokens (line : Nat) (one : String) : List Token :=
  [⟨.identifier, "a", 1⟩, ⟨.symbol .minus, "-", 1⟩, ⟨.identifier, "f", line⟩,
    ⟨.symbol .leftParen, "(", line⟩, ⟨.number ⟨0x3ff0000000000000⟩, one, line⟩,
    ⟨.symbol .rightParen, ")", line⟩, ⟨.symbol .semicolon, ";", line⟩]

private theorem occursIn_difference {source : String} {line : Nat} (one : String)
    (h : Item.tokens (scan source) = differenceTokens line one ++ [.endOfFile line]) :
    OccursIn source (difference line) := by
  have hshaped : Stmt.ShapedList false [.expression (difference line)] := by
    simp [Stmt.ShapedList, Stmt.Shaped, difference, Shaped, ShapedList, strength, binaryStrength?,
      maxArity]
  have hpieces : Unparses (Stmt.piecesList [.expression (difference line)])
      (differenceTokens line one) :=
    .cons rfl (.cons rfl (.cons rfl (.cons rfl (.cons rfl (.cons rfl (.single rfl))))))
  have hstatements : statementsOf source = [.expression (difference line)] := by
    rw [statementsOf, h, parse_of_unparses hshaped hpieces rfl]
  refine ⟨difference line, ?_, mem_parts_self _⟩
  rw [hstatements]
  exact List.mem_cons_self

private theorem legible_difference (line : Nat) : (difference line).Legible := by
  intro v hv
  simp only [difference, parts, partsAll, List.mem_cons, List.mem_append, List.not_mem_nil,
    reduceCtorEq, Expr.literal.injEq, false_or, or_false] at hv
  rw [hv]
  show Number.isInfinite _ = false
  decide

/-- Two sources that write it differently. -/
theorem text_tells_expression_difference :
    OccursIn "a - f(1);" (difference 1) ∧ OccursIn "a -\nf(1.00);" (difference 2) ∧
      (difference 1).text = (difference 2).text := by
  have h : OccursIn "a - f(1);" (difference 1) := occursIn_difference "1" (by decide +kernel)
  have h' : OccursIn "a -\nf(1.00);" (difference 2) :=
    occursIn_difference "1.00" (by decide +kernel)
  exact ⟨h, h',
    (text_tells_expression h h' (legible_difference 1) (legible_difference 2)).mpr rfl⟩

end Expr

end Lox
