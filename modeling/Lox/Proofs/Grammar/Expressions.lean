/-
Expressions: what is read is what is written.

`reads_expression_iff` is the main statement: in front of a token that cannot go on
an expression, the parser reads `e` from exactly the tokens that are a way to write
`e`, and all of them.

That what is read is written goes along the recursion of the parser: each
production is sound if the parser for what is nested in it is, and the loops are
followed token by token, with what was read so far as their invariant.  The other
way round is an induction on how the phrase is written.  A phrase whose parser ends
in a loop (a call, an operation) cannot be read on its own, as the loop goes on
with whatever follows; so what is shown of it is that its parser does on the whole
what the loop, started behind the phrase, does on the rest.
-/
import Lox.Proofs.Grammar.Phrase

namespace Lox.Parser

variable {α : Type} {tokens rest : List Token} {e : Expr} {nested operand : Parser Expr}

/-! ### The productions -/

theorem reads_primary :
    (primary nested).Reads tokens e rest ↔
      (∃ token, tokens = token :: rest ∧ atom? token = some e) ∨
      ∃ opening mid inner closing, tokens = opening :: mid ∧
        opening.kind = .symbol .leftParen ∧ nested.Reads mid inner (closing :: rest) ∧
        closing.kind = .symbol .rightParen ∧ e = .grouping inner := by
  rw [primary, reads_peek_bind]
  cases tokens with
  | nil => simp [atom?, missingEnd, Token.endOfFile, reads_accept_bind]
  | cons token more =>
      simp only [List.headD_cons]
      cases hatom : atom? token with
      | some a =>
          simp only [reads_skip_bind, List.drop_succ_cons, List.drop_zero, reads_pure]
          constructor
          · intro h
            obtain ⟨rfl, rfl⟩ := h
            exact .inl ⟨token, rfl, hatom⟩
          · rintro (⟨t, htokens, ht⟩ | ⟨opening, mid, inner, closing, htokens, hkind, -⟩)
            · cases htokens
              rw [hatom] at ht
              cases ht
              exact ⟨rfl, rfl⟩
            · cases htokens
              rw [atom?, hkind] at hatom
              cases hatom
      | none =>
          rw [reads_accept_bind]
          simp only [reads_bind, reads_expectSymbol, reads_pure, not_reads_fail, and_false,
            or_false]
          constructor
          · rintro ⟨opening, mid, htokens, hopening, inner, _, hinner, closing, _,
              ⟨rfl, hclosing⟩, rfl, rfl⟩
            exact .inr ⟨opening, mid, inner, closing, htokens, hopening, hinner, hclosing, rfl⟩
          · rintro (⟨t, htokens, ht⟩ | ⟨opening, mid, inner, closing, htokens, hopening, hinner,
              hclosing, rfl⟩)
            · cases htokens
              rw [hatom] at ht
              cases ht
            · exact ⟨opening, mid, htokens, hopening, inner, _, hinner, closing, rest,
                ⟨rfl, hclosing⟩, rfl, rfl⟩

theorem reads_callsOn (h : Composed nested) {callee : Expr} :
    (callsOn nested callee).Reads tokens e rest ↔
      nextKind? tokens ≠ some (.symbol .leftParen) ∧ e = callee ∧ rest = tokens ∨
      ∃ opening mid es closing end_, tokens = opening :: mid ∧
        opening.kind = .symbol .leftParen ∧
        (elements nested .tooManyArguments).Reads mid es (closing :: end_) ∧
        closing.kind = .symbol .rightParen ∧
        (callsOn nested (.call callee closing es)).Reads end_ e rest := by
  rw [callsOn_eq h, reads_accept_bind]
  simp only [reads_bind, reads_expectSymbol, reads_pure]
  constructor
  · rintro (⟨opening, mid, htokens, hopening, es, _, hes, closing, end_, ⟨rfl, hclosing⟩,
      hcalls⟩ | hnone)
    · exact .inr ⟨opening, mid, es, closing, end_, htokens, hopening, hes, hclosing, hcalls⟩
    · exact .inl hnone
  · rintro (hnone | ⟨opening, mid, es, closing, end_, htokens, hopening, hes, hclosing, hcalls⟩)
    · exact .inr hnone
    · exact .inl ⟨opening, mid, htokens, hopening, es, _, hes, closing, end_, ⟨rfl, hclosing⟩,
        hcalls⟩

private theorem reads_call :
    (call nested).Reads tokens e rest ↔
      ∃ callee mid, (primary nested).Reads tokens callee mid ∧
        (callsOn nested callee).Reads mid e rest :=
  reads_bind

theorem reads_unary (h : Composed nested) :
    (unary nested).Reads tokens e rest ↔
      (∃ op mid inner, tokens = op :: mid ∧ op.kind ∈ unaryOperators ∧
        (unary nested).Reads mid inner rest ∧ e = .unary op inner) ∨
      (∀ kind ∈ unaryOperators, nextKind? tokens ≠ some kind) ∧
        (call nested).Reads tokens e rest := by
  rw [unary_eq h, reads_acceptAny_bind, ← unary_eq h]
  simp only [reads_bind, reads_pure]
  constructor
  · rintro (⟨op, mid, htokens, hop, inner, _, hinner, rfl, rfl⟩ | hcall)
    · exact .inl ⟨op, mid, inner, htokens, hop, hinner, rfl⟩
    · exact .inr hcall
  · rintro (⟨op, mid, inner, htokens, hop, hinner, rfl⟩ | hcall)
    · exact .inl ⟨op, mid, htokens, hop, inner, rest, hinner, rfl, rfl⟩
    · exact .inr hcall

theorem reads_chainFrom {level : Level} (h : Composed operand) {left : Expr} :
    (chainFrom level operand left).Reads tokens e rest ↔
      ((∀ kind ∈ level.operators, nextKind? tokens ≠ some kind) ∧ e = left ∧ rest = tokens) ∨
      ∃ op mid right end_, tokens = op :: mid ∧ op.kind ∈ level.operators ∧
        operand.Reads mid right end_ ∧
        (chainFrom level operand (level.node left op right)).Reads end_ e rest := by
  rw [chainFrom_eq h, reads_acceptAny_bind]
  simp only [reads_bind, reads_pure]
  constructor
  · rintro (⟨op, mid, htokens, hop, right, end_, hright, hchain⟩ | hnone)
    · exact .inr ⟨op, mid, right, end_, htokens, hop, hright, hchain⟩
    · exact .inl hnone
  · rintro (hnone | ⟨op, mid, right, end_, htokens, hop, hright, hchain⟩)
    · exact .inr hnone
    · exact .inl ⟨op, mid, htokens, hop, right, end_, hright, hchain⟩

private theorem reads_joined {level : Level} :
    (joined level operand).Reads tokens e rest ↔
      ∃ first mid, operand.Reads tokens first mid ∧
        (chainFrom level operand first).Reads mid e rest :=
  reads_bind

theorem reads_assignment :
    (assignment nested).Reads tokens e rest ↔
      ∃ target mid, (operation nested levels).Reads tokens target mid ∧
        (nextKind? mid ≠ some (.symbol .equal) ∧ e = target ∧ rest = mid ∨
          ∃ name equals end_ value, target = .var name ∧ mid = equals :: end_ ∧
            equals.kind = .symbol .equal ∧ nested.Reads end_ value rest ∧
            e = .assign name value) := by
  rw [assignment, reads_bind]
  refine exists_congr fun target => exists_congr fun mid => and_congr_right fun _ => ?_
  rw [reads_accept_bind, or_comm]
  simp only [reads_pure, reads_bind]
  refine or_congr_right ⟨?_, ?_⟩
  · intro h
    obtain ⟨equals, end_, rfl, hequals, value, last, hvalue, hread⟩ := h
    cases target with
    | var name =>
        obtain ⟨rfl, rfl⟩ := reads_pure.mp hread
        exact ⟨name, equals, end_, value, rfl, rfl, hequals, hvalue, rfl⟩
    | _ =>
        obtain ⟨_, _, hreport, -⟩ := reads_bind.mp hread
        exact absurd hreport not_reads_reportAt
  · intro h
    obtain ⟨name, equals, end_, value, rfl, rfl, hequals, hvalue, rfl⟩ := h
    exact ⟨equals, end_, rfl, hequals, value, rest, hvalue, reads_pure.mpr ⟨rfl, rfl⟩⟩

/-! ### What is read is written

A loop does not start with a phrase of its own: what it adds to was read before it.  So
what is shown of a loop is that it makes of a phrase that is written a longer one.
-/

/-- What is nested is read only as it is written. -/
abbrev SoundExpression (nested : Parser Expr) : Prop :=
  Sound nested fun e ts => (Phrase.expression e).Written ts

private theorem sound_primary (h : SoundExpression nested) :
    Sound (primary nested) fun e ts => (Phrase.primary e).Written ts := by
  intro tokens e rest hread
  rcases reads_primary.mp hread with
    ⟨token, rfl, hatom⟩ | ⟨opening, mid, inner, closing, rfl, hopening, hinner, hclosing, rfl⟩
  · exact ⟨[token], rfl, .atom hatom⟩
  · obtain ⟨ts, rfl, hts⟩ := h mid inner (closing :: rest) hinner
    exact ⟨opening :: (ts ++ [closing]), by simp, .grouping hopening hts hclosing⟩

/-- The arguments of a call are read only as they are written, and are not too many. -/
theorem written_of_reads_arguments (hc : Composed nested) (h : SoundExpression nested)
    {es : List Expr} (hread : (elements nested .tooManyArguments).Reads tokens es rest) :
    es.length ≤ maxArity ∧ ∃ us, tokens = us ++ rest ∧ (Phrase.arguments es).Written us := by
  obtain ⟨hcount, us, rfl, hus⟩ :=
    Sound.elements (M := fun es us => (Phrase.moreArguments es).Written us) hc h .noMore
      (fun _ _ _ _ _ hcomma hts hmore => .more hcomma hts hmore) hread
  refine ⟨hcount, us, rfl, ?_⟩
  rcases hus with ⟨rfl, rfl⟩ | ⟨a, ts, more, vs, rfl, rfl, hts, hmore⟩
  · exact .noArguments
  · exact .arguments hts hmore

/-- The calls made on what is a call already make a call of the whole. -/
theorem sound_callsOn (hc : Composed nested) (h : SoundExpression nested) :
    ∀ (n : Nat) (tokens : List Token) (callee e : Expr) (rest ts : List Token),
      tokens.length ≤ n → (Phrase.call callee).Written ts →
      (callsOn nested callee).Reads tokens e rest →
      ∃ us, tokens = us ++ rest ∧ (Phrase.call e).Written (ts ++ us) := by
  intro n
  induction n with
  | zero =>
      intro tokens callee e rest ts hn hts hread
      have htokens : tokens = [] := List.eq_nil_of_length_eq_zero (by omega)
      subst htokens
      rcases (reads_callsOn hc).mp hread with ⟨-, rfl, rfl⟩ | ⟨opening, mid, _, _, _, htokens, -⟩
      · exact ⟨[], rfl, by simpa using hts⟩
      · exact nomatch htokens
  | succ n ih =>
      intro tokens callee e rest ts hn hts hread
      rcases (reads_callsOn hc).mp hread with
        ⟨-, rfl, rfl⟩ | ⟨opening, mid, es, closing, end_, rfl, hopening, hes, hclosing, hcalls⟩
      · exact ⟨[], rfl, by simpa using hts⟩
      · obtain ⟨hcount, as, rfl, has⟩ := written_of_reads_arguments hc h hes
        simp only [List.length_cons, List.length_append] at hn
        obtain ⟨us, rfl, hus⟩ :=
          ih end_ _ e rest _ (by omega) (.apply hts hopening has hcount hclosing) hcalls
        exact ⟨opening :: (as ++ closing :: us), by simp, by simpa using hus⟩

private theorem sound_call (hc : Composed nested) (h : SoundExpression nested) :
    Sound (call nested) fun e ts => (Phrase.call e).Written ts := by
  intro tokens e rest hread
  obtain ⟨callee, mid, hcallee, hcalls⟩ := reads_call.mp hread
  obtain ⟨ts, rfl, hts⟩ := sound_primary h tokens callee mid hcallee
  obtain ⟨us, rfl, hus⟩ := sound_callsOn hc h mid.length mid callee e rest ts (Nat.le_refl _)
    (.primary hts) hcalls
  exact ⟨ts ++ us, by simp, hus⟩

private theorem sound_unary (hc : Composed nested) (h : SoundExpression nested) :
    Sound (unary nested) fun e ts => (Phrase.unary e).Written ts := by
  intro tokens
  induction tokens with
  | nil =>
      intro e rest hread
      rcases (reads_unary hc).mp hread with ⟨op, mid, inner, htokens, -⟩ | ⟨-, hcall⟩
      · exact nomatch htokens
      · obtain ⟨ts, hrest, hts⟩ := sound_call hc h [] e rest hcall
        exact ⟨ts, hrest, .call hts⟩
  | cons token more ih =>
      intro e rest hread
      rcases (reads_unary hc).mp hread with ⟨op, mid, inner, htokens, hop, hinner, rfl⟩ | ⟨-, hcall⟩
      · cases htokens
        obtain ⟨ts, rfl, hts⟩ := ih inner rest hinner
        exact ⟨token :: ts, rfl, .operator hop hts⟩
      · obtain ⟨ts, hrest, hts⟩ := sound_call hc h _ e rest hcall
        exact ⟨ts, hrest, .call hts⟩

/-- What a chain adds to an operation of its level is an operation of that level again. -/
theorem sound_chainFrom {level : Level} {tighter : List Level}
    (hlevel : level :: tighter <:+ levels) (hc : Composed operand)
    (h : Sound operand fun e ts => (Phrase.operation tighter e).Written ts) :
    ∀ (n : Nat) (tokens : List Token) (left e : Expr) (rest ls : List Token),
      tokens.length ≤ n → (Phrase.operation (level :: tighter) left).Written ls →
      (chainFrom level operand left).Reads tokens e rest →
      ∃ us, tokens = us ++ rest ∧ (Phrase.operation (level :: tighter) e).Written (ls ++ us) := by
  intro n
  induction n with
  | zero =>
      intro tokens left e rest ls hn hls hread
      have htokens : tokens = [] := List.eq_nil_of_length_eq_zero (by omega)
      subst htokens
      rcases (reads_chainFrom hc).mp hread with ⟨-, rfl, rfl⟩ | ⟨op, mid, _, _, htokens, -⟩
      · exact ⟨[], rfl, by simpa using hls⟩
      · exact nomatch htokens
  | succ n ih =>
      intro tokens left e rest ls hn hls hread
      rcases (reads_chainFrom hc).mp hread with
        ⟨-, rfl, rfl⟩ | ⟨op, mid, right, end_, rfl, hop, hright, hchain⟩
      · exact ⟨[], rfl, by simpa using hls⟩
      · obtain ⟨rs, rfl, hrs⟩ := h mid right end_ hright
        simp only [List.length_cons, List.length_append] at hn
        obtain ⟨us, rfl, hus⟩ := ih end_ _ e rest _ (by omega) (.join hlevel hls hop hrs) hchain
        exact ⟨op :: (rs ++ us), by simp, by simpa using hus⟩

private theorem sound_operation (hc : Composed nested) (h : SoundExpression nested) :
    ∀ lv, lv <:+ levels →
      Sound (operation nested lv) fun e ts => (Phrase.operation lv e).Written ts := by
  intro lv
  induction lv with
  | nil =>
      intro _ tokens e rest hread
      obtain ⟨ts, htokens, hts⟩ := sound_unary hc h tokens e rest hread
      exact ⟨ts, htokens, .unary hts⟩
  | cons level tighter ih =>
      intro hlevel tokens e rest hread
      have hoperand := ih ((List.suffix_cons level tighter).trans hlevel)
      obtain ⟨first, mid, hfirst, hchain⟩ := reads_joined.mp hread
      obtain ⟨ls, rfl, hls⟩ := hoperand tokens first mid hfirst
      obtain ⟨us, rfl, hus⟩ := sound_chainFrom hlevel (.operation hc tighter) hoperand mid.length
        mid first e rest ls (Nat.le_refl _) (.operand hls) hchain
      exact ⟨ls ++ us, by simp, hus⟩

private theorem sound_assignment (hc : Composed nested) (h : SoundExpression nested) :
    SoundExpression (assignment nested) := by
  intro tokens e rest hread
  obtain ⟨target, mid, htarget, hmid⟩ := reads_assignment.mp hread
  obtain ⟨ts, rfl, hts⟩ :=
    sound_operation hc h levels (List.suffix_refl _) tokens target mid htarget
  rcases hmid with ⟨-, rfl, rfl⟩ | ⟨name, equals, end_, value, rfl, rfl, hequals, hvalue, rfl⟩
  · exact ⟨ts, rfl, .operation hts⟩
  · -- Only the name itself is a way to write a variable.
    obtain ⟨rfl, hname⟩ := hts.of_var name rfl
    obtain ⟨us, rfl, hus⟩ := h end_ value rest hvalue
    exact ⟨name :: equals :: us, rfl, .assign hname hequals hus⟩

private theorem sound_expressionWithin : ∀ bound, SoundExpression (expressionWithin bound)
  | [] => fun _ _ _ hread => absurd hread not_reads_fail
  | _ :: bound => sound_assignment (.expressionWithin bound) (sound_expressionWithin bound)

private theorem sound_expression : SoundExpression expression := .bounded sound_expressionWithin

/-! ### What ends an expression

The parser goes on at a token only if it opens a call or is an operator of the levels
that are being read, so what ends an operation depends on the levels.  In statements an
expression stands in front of a token that ends it at every level.  That is the simpler
condition, and it implies the others.
-/

/-- The next token goes on none of these operations, and makes no call. -/
def EndsOperation (lv : List Level) (rest : List Token) : Prop :=
  nextKind? rest ≠ some (.symbol .leftParen) ∧
    ∀ level ∈ lv, ∀ kind ∈ level.operators, nextKind? rest ≠ some kind

theorem EndsOperation.tighter {level : Level} {tighter : List Level}
    (h : EndsOperation (level :: tighter) rest) : EndsOperation tighter rest :=
  ⟨h.1, fun other hother => h.2 other (List.mem_cons_of_mem _ hother)⟩

/-- An operator ends the tighter operations in front of it. -/
theorem endsOperation_of_mem {level : Level} {tighter : List Level}
    (hlevel : level :: tighter <:+ levels) {op : Token} (hop : op.kind ∈ level.operators) :
    EndsOperation tighter (op :: rest) := by
  obtain ⟨hparen, htighter⟩ := Phrase.not_tighter hlevel hop
  refine ⟨fun heq => hparen (Option.some.inj heq), fun other hother kind hkind heq => ?_⟩
  rw [nextKind?_cons, Option.some.injEq] at heq
  exact htighter other hother (heq ▸ hkind)

/-- Does a token of this kind end every expression in front of it? -/
def endsExpression : Token.Kind → Bool
  | .symbol .semicolon | .symbol .rightParen | .symbol .comma => true
  | _ => false

/-- The next token ends every expression in front of it. -/
def EndsExpression (rest : List Token) : Prop :=
  ∃ token more, rest = token :: more ∧ endsExpression token.kind = true

theorem EndsExpression.nextKind?_ne (h : EndsExpression rest) {kind : Token.Kind}
    (hkind : endsExpression kind = false) : nextKind? rest ≠ some kind := by
  obtain ⟨token, more, rfl, hend⟩ := h
  rw [nextKind?_cons]
  intro heq
  rw [Option.some.inj heq, hkind] at hend
  exact Bool.noConfusion hend

private theorem endsExpression_operators {level : Level} (h : level ∈ levels) {kind : Token.Kind}
    (hkind : kind ∈ level.operators) : endsExpression kind = false := by
  simp only [levels, List.mem_cons, List.not_mem_nil, or_false] at h
  rcases h with rfl | rfl | rfl | rfl | rfl | rfl <;>
    simp only [List.mem_cons, List.not_mem_nil, or_false] at hkind <;>
    rcases hkind with rfl | rfl | rfl | rfl <;> rfl

theorem EndsExpression.endsOperation (h : EndsExpression rest) : EndsOperation levels rest :=
  ⟨h.nextKind?_ne rfl, fun _ hlevel _ hkind =>
    h.nextKind?_ne (endsExpression_operators hlevel hkind)⟩

/-! ### What is written is read -/

/-- What the parser for a phrase does where the phrase is written. -/
def ReadsPhrase : Phrase → List Token → Prop
  | .expression e, ts => ∀ rest, EndsExpression rest → expression.Reads (ts ++ rest) e rest
  | .operation [] e, ts => ∀ rest, EndsOperation [] rest →
      (operation expression []).Reads (ts ++ rest) e rest
  | .operation (level :: tighter) e, ts => ∀ rest, EndsOperation tighter rest →
      ∀ e' rest', (chainFrom level (operation expression tighter) e).Reads rest e' rest' →
        (operation expression (level :: tighter)).Reads (ts ++ rest) e' rest'
  | .unary e, ts => ∀ rest, nextKind? rest ≠ some (.symbol .leftParen) →
      (unary expression).Reads (ts ++ rest) e rest
  | .call e, ts => ∀ rest e' rest', (callsOn expression e).Reads rest e' rest' →
      (call expression).Reads (ts ++ rest) e' rest'
  | .primary e, ts => ∀ rest, (primary expression).Reads (ts ++ rest) e rest
  | .arguments es, ts => es.length ≤ maxArity → ∀ closing rest,
      closing.kind = .symbol .rightParen →
      (elements expression .tooManyArguments).Reads (ts ++ closing :: rest) es (closing :: rest)
  | .moreArguments es, ts => ∀ count, count + es.length ≤ maxArity → ∀ closing rest,
      closing.kind = .symbol .rightParen →
      (moreElementsAfter expression .tooManyArguments count).Reads (ts ++ closing :: rest) es
        (closing :: rest)

theorem ReadsPhrase.call {ts : List Token} (h : ReadsPhrase (.primary e) ts) :
    ReadsPhrase (.call e) ts := by
  intro rest e' rest' hcalls
  exact reads_call.mpr ⟨e, rest, h rest, hcalls⟩

theorem ReadsPhrase.unary {ts : List Token} (hts : (Phrase.call e).Written ts)
    (h : ReadsPhrase (.call e) ts) : ReadsPhrase (.unary e) ts := by
  intro rest hrest
  obtain ⟨token, more, rfl, hkind⟩ := hts.starts_call
  refine (reads_unary .expression).mpr (.inr ⟨fun kind hmem heq => ?_, ?_⟩)
  · rw [List.cons_append, nextKind?_cons, Option.some.injEq] at heq
    exact hkind (heq ▸ hmem)
  · exact h rest e rest ((reads_callsOn .expression).mpr (.inl ⟨hrest, rfl, rfl⟩))

/-- An operation is read in front of what does not go on it. -/
theorem ReadsPhrase.operation {lv : List Level} {ts : List Token}
    (h : ReadsPhrase (.operation lv e) ts) (hrest : EndsOperation lv rest) :
    (operation expression lv).Reads (ts ++ rest) e rest := by
  cases lv with
  | nil => exact h rest hrest
  | cons level tighter =>
      have hend := hrest.2 level List.mem_cons_self
      exact h rest hrest.tighter e rest
        ((reads_chainFrom (.operation .expression tighter)).mpr (.inl ⟨hend, rfl, rfl⟩))

theorem ReadsPhrase.looser {level : Level} {tighter : List Level} {ts : List Token}
    (h : ReadsPhrase (.operation tighter e) ts) :
    ReadsPhrase (.operation (level :: tighter) e) ts := by
  intro rest hrest e' rest' hchain
  exact reads_joined.mpr ⟨e, rest, h.operation hrest, hchain⟩

private theorem ReadsPhrase.operation_of_unary {ts : List Token} (h : ReadsPhrase (.unary e) ts) :
    ∀ lv, ReadsPhrase (.operation lv e) ts
  | [] => fun rest hrest => h rest hrest.1
  | _ :: tighter => (ReadsPhrase.operation_of_unary h tighter).looser

/-- A variable and its value, where the value is read. -/
theorem reads_expression_assign {name equals : Token} {value : Expr}
    (hname : name.kind = .identifier) (hequals : equals.kind = .symbol .equal)
    (hvalue : expression.Reads tokens value rest) :
    expression.Reads (name :: equals :: tokens) (.assign name value) rest := by
  have hatom : Phrase.Written (.primary (.var name)) [name] := .atom (by simp [atom?, hname])
  have hprimary : ReadsPhrase (.primary (.var name)) [name] :=
    fun rest => reads_primary.mpr (.inl ⟨name, rfl, by simp [atom?, hname]⟩)
  have htarget := (hprimary.call.unary (.primary hatom)).operation_of_unary levels
  have hend : EndsOperation levels (equals :: tokens) := by
    refine ⟨by simp [hequals], fun level hlevel kind hkind heq => ?_⟩
    rw [nextKind?_cons, hequals, Option.some.injEq] at heq
    subst heq
    simp only [levels, List.mem_cons, List.not_mem_nil, or_false] at hlevel
    rcases hlevel with rfl | rfl | rfl | rfl | rfl | rfl <;> simp at hkind
  rw [expression_eq]
  exact reads_assignment.mpr ⟨.var name, equals :: tokens, htarget.operation hend,
    .inr ⟨name, equals, tokens, value, rfl, rfl, hequals, hvalue, rfl⟩⟩

/-- An operation is an expression, in front of what neither goes on it nor assigns to it. -/
theorem ReadsPhrase.expression {ts : List Token} (h : ReadsPhrase (.operation levels e) ts)
    (hrest : EndsOperation levels rest) (hequal : nextKind? rest ≠ some (.symbol .equal)) :
    Parser.expression.Reads (ts ++ rest) e rest := by
  rw [expression_eq]
  exact reads_assignment.mpr ⟨e, rest, h.operation hrest, .inl ⟨hequal, rfl, rfl⟩⟩

/-- Behind an argument stands a comma or the parenthesis that closes them. -/
theorem endsExpression_of_moreArguments {es : List Expr} {us : List Token}
    (h : (Phrase.moreArguments es).Written us) {closing : Token}
    (hclosing : closing.kind = .symbol .rightParen) : EndsExpression (us ++ closing :: rest) := by
  cases h with
  | noMore => exact ⟨closing, rest, rfl, by simp [endsExpression, hclosing]⟩
  | more hcomma => exact ⟨_, _, rfl, by simp [endsExpression, hcomma]⟩

/-- **What is written is read.** -/
theorem readsPhrase_of_written {p : Phrase} {ts : List Token} (h : p.Written ts) :
    ReadsPhrase p ts := by
  induction h with
  | assign hname hequals hvalue ih =>
      exact fun rest hrest => reads_expression_assign hname hequals (ih rest hrest)
  | operation h ih =>
      exact fun rest hrest => ih.expression hrest.endsOperation (hrest.nextKind?_ne rfl)
  | operand h ih => exact ih.looser
  | @join level tighter l r op ls rs hlevel hl hop hr ihl ihr =>
      intro rest hrest e' rest' hchain
      rw [List.append_assoc, List.cons_append]
      refine ihl (op :: (rs ++ rest)) (endsOperation_of_mem hlevel hop) e' rest' ?_
      exact (reads_chainFrom (.operation .expression tighter)).mpr
        (.inr ⟨op, rs ++ rest, r, rest, rfl, hop, ihr.operation hrest, hchain⟩)
  | unary h ih => exact ih.operation_of_unary []
  | operator hop h ih =>
      intro rest hrest
      exact (reads_unary .expression).mpr (.inl ⟨_, _, _, rfl, hop, ih rest hrest, rfl⟩)
  | call h ih => exact ih.unary h
  | @apply callee opening closing es ts as hcallee hopening harguments hcount hclosing ihcallee
      iharguments =>
      intro rest e' rest' hcalls
      rw [List.append_assoc, List.cons_append, List.append_assoc, List.cons_append,
        List.nil_append]
      refine ihcallee (opening :: (as ++ closing :: rest)) e' rest' ?_
      exact (reads_callsOn .expression).mpr (.inr ⟨opening, _, es, closing, rest, rfl, hopening,
        iharguments hcount closing rest hclosing, hclosing, hcalls⟩)
  | primary h ih => exact ih.call
  | atom h => exact fun rest => reads_primary.mpr (.inl ⟨_, rfl, h⟩)
  | @grouping e opening closing ts hopening h hclosing ih =>
      intro rest
      have hend : EndsExpression (closing :: rest) :=
        ⟨closing, rest, rfl, by simp [endsExpression, hclosing]⟩
      refine reads_primary.mpr (.inr ⟨opening, ts ++ closing :: rest, e, closing, by simp,
        hopening, ih _ hend, hclosing, rfl⟩)
  | noArguments =>
      intro _ closing rest hclosing
      exact reads_elements.mpr (.inl ⟨by simp [hclosing], rfl, rfl⟩)
  | @arguments e es ts us h hmore ih ihmore =>
      intro hcount closing rest hclosing
      rw [List.append_assoc]
      refine reads_elements.mpr (.inr ⟨?_, e, es, us ++ closing :: rest, rfl, ?_, ?_⟩)
      · exact (h.starts.append _).nextKind?_ne rfl
      · exact ih _ (endsExpression_of_moreArguments hmore hclosing)
      · exact ihmore 1 (by simpa [Nat.add_comm] using hcount) closing rest hclosing
  | noMore =>
      intro count _ closing rest hclosing
      exact (reads_moreElementsAfter .expression).mpr (.inl ⟨by simp [hclosing], rfl, rfl⟩)
  | @more comma e es ts us hcomma h hmore ih ihmore =>
      intro count hcount closing rest hclosing
      simp only [List.length_cons] at hcount
      rw [List.cons_append, List.append_assoc]
      refine (reads_moreElementsAfter .expression).mpr (.inr ⟨comma, e, es, ts ++ (us ++ closing ::
        rest), us ++ closing :: rest, rfl, hcomma, by omega, rfl, ?_, ?_⟩)
      · exact ih _ (endsExpression_of_moreArguments hmore hclosing)
      · exact ihmore (count + 1) (by omega) closing rest hclosing

/-- An expression is read in front of anything that neither goes on it nor makes it an
assignment. -/
theorem reads_expression_of_written {p : Phrase} {ts : List Token} (h : p.Written ts)
    (hrest : EndsOperation levels rest) (hequal : nextKind? rest ≠ some (.symbol .equal)) :
    match p with
    | .expression e => expression.Reads (ts ++ rest) e rest
    | _ => True := by
  induction h with
  | assign hname hequals hvalue ih => exact reads_expression_assign hname hequals ih
  | operation h => exact (readsPhrase_of_written h).expression hrest hequal
  | _ => trivial

/-- **In front of what ends it, an expression is read from exactly the tokens it is written
with.** -/
theorem reads_expression_iff (hrest : EndsExpression rest) :
    expression.Reads tokens e rest ↔
      ∃ ts, tokens = ts ++ rest ∧ (Phrase.expression e).Written ts := by
  constructor
  · exact sound_expression tokens e rest
  · intro h
    obtain ⟨ts, rfl, hts⟩ := h
    exact readsPhrase_of_written hts rest hrest

end Lox.Parser
