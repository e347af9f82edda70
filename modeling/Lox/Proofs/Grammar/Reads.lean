/-
Reading without a fault.

A parser reads `a` from some tokens if it answers with `a` and reports nothing.
Faults only ever add up, so a sequence reads without a fault exactly if each of its
parts does: `reads_bind` splits such a reading into the readings of the parts, and
puts those together again.  Every production below gets its own such equivalence.
They are what both directions of the grammar rest on, that what is read follows the
rules and that what follows the rules is read.
-/
import Lox.Grammar.Bound

namespace Lox.Parser

variable {α β : Type} {tokens rest : List Token} {b : β}

/-- The parser takes `a` from the front of the tokens, leaves the rest, and reports nothing. -/
def Reads (p : Parser α) (tokens : List Token) (a : α) (rest : List Token) : Prop :=
  p tokens = ⟨some a, [], rest⟩

/-- The kind of the next token, if there is one. -/
def nextKind? (tokens : List Token) : Option Token.Kind := tokens.head?.map Token.kind

@[simp] theorem nextKind?_nil : nextKind? [] = none := rfl

@[simp] theorem nextKind?_cons (token : Token) (rest : List Token) :
    nextKind? (token :: rest) = some token.kind := rfl

/-! ### Sequencing

A sequence that reads without a fault does so in all of its parts, since no part can
take back what another has reported.  So `reads_bind` is an equivalence, and productions
are taken apart by it without a look at the faults.
-/

@[simp] theorem reads_pure {a a' : α} :
    (pure a : Parser α).Reads tokens a' rest ↔ a' = a ∧ rest = tokens := by
  rw [Reads, pure_apply]
  constructor
  · intro h
    cases h
    exact ⟨rfl, rfl⟩
  · rintro ⟨rfl, rfl⟩
    rfl

/-- **A sequence reads without a fault exactly if its parts do.** -/
theorem reads_bind {p : Parser α} {f : α → Parser β} :
    (p >>= f).Reads tokens b rest ↔
      ∃ a mid, p.Reads tokens a mid ∧ (f a).Reads mid b rest := by
  simp only [Reads, bind_apply, andThen]
  constructor
  · intro h
    cases hp : p tokens with
    | mk result faults mid =>
        rw [hp] at h
        cases result with
        | none => simp at h
        | some a =>
            simp only [Reply.mk.injEq, List.append_eq_nil_iff] at h
            obtain ⟨hresult, ⟨hfaults, hmore⟩, hrest⟩ := h
            refine ⟨a, mid, by rw [hfaults], ?_⟩
            rw [← hresult, ← hmore, ← hrest]
  · rintro ⟨a, mid, hp, hf⟩
    rw [hp]
    simp [hf]

/-! ### Looking at tokens -/

theorem reads_peek {token : Token} :
    peek.Reads tokens token rest ↔ token = tokens.headD missingEnd ∧ rest = tokens := by
  rw [Reads, peek, Reply.mk.injEq, Option.some.injEq]
  simp only [true_and, eq_comm]

theorem reads_skip {u : Unit} : skip.Reads tokens u rest ↔ rest = tokens.drop 1 := by
  rw [Reads, skip, Reply.mk.injEq]
  simp only [true_and, eq_comm]

theorem reads_check {kind : Token.Kind} {found : Bool} :
    (check kind).Reads tokens found rest ↔
      (found = true ↔ nextKind? tokens = some kind) ∧ rest = tokens := by
  rw [Reads, check, Reply.mk.injEq, Option.some.injEq]
  cases tokens <;> cases found <;> simp [eq_comm]

theorem reads_acceptAny {kinds : List Token.Kind} {found : Option Token} :
    (acceptAny kinds).Reads tokens found rest ↔
      (∃ token, found = some token ∧ tokens = token :: rest ∧ token.kind ∈ kinds) ∨
      found = none ∧ rest = tokens ∧ ∀ kind ∈ kinds, nextKind? tokens ≠ some kind := by
  rw [Reads]
  cases tokens with
  | nil => simp [acceptAny, eq_comm]
  | cons token more =>
      by_cases h : token.kind ∈ kinds
      · have hnext : ¬ ∀ kind ∈ kinds, nextKind? (token :: more) ≠ some kind :=
          fun hall => hall _ h rfl
        simp only [acceptAny, h, if_true, hnext, and_false, or_false, Reply.mk.injEq, true_and,
          Option.some.injEq]
        constructor
        · rintro ⟨rfl, rfl⟩
          exact ⟨token, rfl, rfl, h⟩
        · rintro ⟨t, rfl, htokens, -⟩
          cases htokens
          exact ⟨rfl, rfl⟩
      · have hnext : ∀ kind ∈ kinds, nextKind? (token :: more) ≠ some kind := by
          intro kind hkind heq
          rw [nextKind?_cons, Option.some.injEq] at heq
          exact h (heq ▸ hkind)
        simp only [acceptAny, h, if_false, Reply.mk.injEq, true_and, Option.some.injEq]
        constructor
        · rintro ⟨rfl, rfl⟩
          exact .inr ⟨rfl, rfl, hnext⟩
        · rintro (⟨t, -, htokens, hmem⟩ | ⟨rfl, rfl, -⟩)
          · cases htokens
            exact absurd hmem h
          · exact ⟨rfl, rfl⟩

theorem reads_peek_bind {f : Token → Parser β} :
    (peek >>= f).Reads tokens b rest ↔ (f (tokens.headD missingEnd)).Reads tokens b rest := by
  simp only [reads_bind, reads_peek]
  exact ⟨fun ⟨_, _, ⟨rfl, rfl⟩, hread⟩ => hread, fun hread => ⟨_, _, ⟨rfl, rfl⟩, hread⟩⟩

theorem reads_skip_bind {f : Unit → Parser β} :
    (skip >>= f).Reads tokens b rest ↔ (f ()).Reads (tokens.drop 1) b rest := by
  simp only [reads_bind, reads_skip]
  exact ⟨fun ⟨_, _, rfl, hread⟩ => hread, fun hread => ⟨_, _, rfl, hread⟩⟩

theorem reads_check_bind {kind : Token.Kind} {f : Bool → Parser β} :
    (check kind >>= f).Reads tokens b rest ↔
      nextKind? tokens = some kind ∧ (f true).Reads tokens b rest ∨
        nextKind? tokens ≠ some kind ∧ (f false).Reads tokens b rest := by
  rw [reads_bind]
  by_cases h : nextKind? tokens = some kind <;> simp [reads_check, h]

theorem reads_acceptAny_bind {kinds : List Token.Kind} {f : Option Token → Parser β} :
    (acceptAny kinds >>= f).Reads tokens b rest ↔
      (∃ token mid, tokens = token :: mid ∧ token.kind ∈ kinds ∧
        (f (some token)).Reads mid b rest) ∨
      (∀ kind ∈ kinds, nextKind? tokens ≠ some kind) ∧ (f none).Reads tokens b rest := by
  simp only [reads_bind, reads_acceptAny]
  constructor
  · rintro ⟨found, mid, ⟨token, rfl, htokens, hkind⟩ | ⟨rfl, rfl, hnext⟩, hread⟩
    · exact .inl ⟨token, mid, htokens, hkind, hread⟩
    · exact .inr ⟨hnext, hread⟩
  · rintro (⟨token, mid, htokens, hkind, hread⟩ | ⟨hnext, hread⟩)
    · exact ⟨some token, mid, .inl ⟨token, rfl, htokens, hkind⟩, hread⟩
    · exact ⟨none, tokens, .inr ⟨rfl, rfl, hnext⟩, hread⟩

theorem reads_accept_bind {kind : Token.Kind} {f : Option Token → Parser β} :
    (accept kind >>= f).Reads tokens b rest ↔
      (∃ token mid, tokens = token :: mid ∧ token.kind = kind ∧
        (f (some token)).Reads mid b rest) ∨
      nextKind? tokens ≠ some kind ∧ (f none).Reads tokens b rest := by
  rw [accept, reads_acceptAny_bind]
  simp

theorem reads_accept_of_kind {kind : Token.Kind} {token : Token} (h : token.kind = kind)
    (rest : List Token) : (accept kind).Reads (token :: rest) (some token) rest :=
  reads_acceptAny.mpr (.inl ⟨token, rfl, rfl, List.mem_singleton.mpr h⟩)

theorem reads_accept_of_ne {kind : Token.Kind} (h : nextKind? tokens ≠ some kind) :
    (accept kind).Reads tokens none tokens :=
  reads_acceptAny.mpr (.inr ⟨rfl, rfl, List.forall_mem_singleton.mpr h⟩)

/-! ### Faults -/

@[simp] theorem not_reads_failAt {token : Token} {cause : SyntaxCause} {a : α} :
    ¬ (failAt token cause : Parser α).Reads tokens a rest := by
  simp [Reads, failAt]

@[simp] theorem not_reads_fail {cause : SyntaxCause} {a : α} :
    ¬ (fail cause : Parser α).Reads tokens a rest := by
  simp [fail, reads_peek_bind]

@[simp] theorem not_reads_reportAt {token : Token} {cause : SyntaxCause} {u : Unit} :
    ¬ (reportAt token cause).Reads tokens u rest := by
  simp [Reads, reportAt]

@[simp] theorem reads_expect {kind : Token.Kind} {cause : SyntaxCause} {token : Token} :
    (expect kind cause).Reads tokens token rest ↔
      tokens = token :: rest ∧ token.kind = kind := by
  rw [expect, reads_accept_bind]
  simp only [reads_pure, not_reads_fail, and_false, or_false]
  constructor
  · intro h
    obtain ⟨t, mid, htokens, hkind, rfl, rfl⟩ := h
    exact ⟨htokens, hkind⟩
  · intro h
    obtain ⟨htokens, hkind⟩ := h
    exact ⟨token, rest, htokens, hkind, rfl, rfl⟩

@[simp] theorem reads_expectSymbol {symbol : Symbol} {place : Place} {token : Token} :
    (expectSymbol symbol place).Reads tokens token rest ↔
      tokens = token :: rest ∧ token.kind = .symbol symbol :=
  reads_expect

/-- A declaration that recovers is read without a fault exactly if it needed no recovery. -/
theorem reads_recovering {declaration : Parser Stmt} (h : Composed declaration)
    {result : Option Stmt} :
    (recovering declaration).Reads tokens result rest ↔
      ∃ s, result = some s ∧ declaration.Reads tokens s rest := by
  simp only [Reads, recovering]
  cases hreply : declaration tokens with
  | mk outcome faults mid =>
      cases outcome with
      | none =>
          have hfaults := h.givesReason tokens (by rw [hreply])
          rw [hreply] at hfaults
          simp [hfaults]
      | some s =>
          cases faults with
          | nil => simp; grind
          | cons fault more => simp

/-! ### Lists with commas -/

@[simp] theorem reads_limit {count : Nat} {tooMany : SyntaxCause} {u : Unit} :
    (limit count tooMany).Reads tokens u rest ↔ count < maxArity ∧ rest = tokens := by
  unfold limit
  split <;> rename_i h
  · simp [reads_peek_bind, Nat.not_lt.mpr h]
  · simp [Nat.lt_of_not_le h]

theorem reads_elements {element : Parser α} {tooMany : SyntaxCause} {as : List α} :
    (elements element tooMany).Reads tokens as rest ↔
      nextKind? tokens = some (.symbol .rightParen) ∧ as = [] ∧ rest = tokens ∨
      nextKind? tokens ≠ some (.symbol .rightParen) ∧
        ∃ a more mid, as = a :: more ∧ element.Reads tokens a mid ∧
          (moreElementsAfter element tooMany 1).Reads mid more rest := by
  rw [elements, reads_check_bind]
  simp only [if_true, Bool.false_eq_true, if_false, reads_pure, reads_bind]
  constructor
  · rintro (h | ⟨hnext, a, mid, ha, more, end_, hmore, rfl, rfl⟩)
    · exact .inl h
    · exact .inr ⟨hnext, a, more, mid, rfl, ha, hmore⟩
  · rintro (h | ⟨hnext, a, more, mid, rfl, ha, hmore⟩)
    · exact .inl h
    · exact .inr ⟨hnext, a, mid, ha, more, rest, hmore, rfl, rfl⟩

theorem reads_moreElementsAfter {element : Parser α} (h : Composed element)
    {tooMany : SyntaxCause} {count : Nat} {as : List α} :
    (moreElementsAfter element tooMany count).Reads tokens as rest ↔
      (nextKind? tokens ≠ some (.symbol .comma) ∧ as = [] ∧ rest = tokens) ∨
      ∃ comma a more mid end_, tokens = comma :: mid ∧ comma.kind = .symbol .comma ∧
        count < maxArity ∧ as = a :: more ∧ element.Reads mid a end_ ∧
          (moreElementsAfter element tooMany (count + 1)).Reads end_ more rest := by
  rw [moreElementsAfter_eq h, reads_accept_bind]
  simp only [reads_pure, reads_bind, reads_limit]
  constructor
  · rintro (⟨comma, _, htokens, hcomma, _, mid, ⟨hcount, rfl⟩, a, end_, ha, more, _, hmore,
      rfl, rfl⟩ | h)
    · exact .inr ⟨comma, a, more, mid, end_, htokens, hcomma, hcount, rfl, ha, hmore⟩
    · exact .inl h
  · rintro (h | ⟨comma, a, more, mid, end_, htokens, hcomma, hcount, rfl, ha, hmore⟩)
    · exact .inr h
    · exact .inl ⟨comma, mid, htokens, hcomma, (), mid, ⟨hcount, rfl⟩, a, end_, ha, more, rest,
        hmore, rfl, rfl⟩

/-! ### Soundness

Arguments and parameters are lists of one form with rules of their own.  So what the
parser for lists reads is stated of any relation between elements and tokens, and each
of the two puts in its own.
-/

/-- Whatever the parser reads without a fault, the relation allows. -/
def Sound (p : Parser α) (R : α → List Token → Prop) : Prop :=
  ∀ tokens a rest, p.Reads tokens a rest → ∃ ts, tokens = ts ++ rest ∧ R a ts

theorem Sound.bounded {loop : (bound : List Token) → Parser α} {R : α → List Token → Prop}
    (h : ∀ bound, Sound (loop bound) R) : Sound (bounded loop) R :=
  fun tokens => h tokens tokens

variable {element : Parser α} {R : α → List Token → Prop} {M : List α → List Token → Prop}
  {tooMany : SyntaxCause}

/-- The elements behind the first are what their relation allows, and not too many. -/
theorem Sound.moreElementsAfter (hc : Composed element) (h : Sound element R) (hnil : M [] [])
    (hcons : ∀ comma a ts as us, comma.kind = .symbol .comma → R a ts → M as us →
      M (a :: as) (comma :: (ts ++ us))) :
    ∀ (n count : Nat) (tokens : List Token) (as : List α) (rest : List Token),
      tokens.length ≤ n → count ≤ maxArity →
      (moreElementsAfter element tooMany count).Reads tokens as rest →
      ∃ us, tokens = us ++ rest ∧ M as us ∧ count + as.length ≤ maxArity := by
  intro n
  induction n with
  | zero =>
      intro count tokens as rest hn hcount hread
      have htokens : tokens = [] := List.eq_nil_of_length_eq_zero (by omega)
      subst htokens
      rcases (reads_moreElementsAfter hc).mp hread with
        ⟨-, rfl, rfl⟩ | ⟨comma, a, more, mid, end_, htokens, -⟩
      · exact ⟨[], rfl, hnil, by simpa using hcount⟩
      · exact nomatch htokens
  | succ n ih =>
      intro count tokens as rest hn hcount hread
      rcases (reads_moreElementsAfter hc).mp hread with
        ⟨-, rfl, rfl⟩ | ⟨comma, a, more, mid, end_, rfl, hcomma, hless, rfl, ha, hmore⟩
      · exact ⟨[], rfl, hnil, by simpa using hcount⟩
      · obtain ⟨ts, rfl, hts⟩ := h mid a end_ ha
        simp only [List.length_cons, List.length_append] at hn
        obtain ⟨us, rfl, hus, hlength⟩ := ih (count + 1) end_ more rest (by omega) hless hmore
        refine ⟨comma :: (ts ++ us), by simp, hcons _ _ _ _ _ hcomma hts hus, ?_⟩
        simp only [List.length_cons]
        omega

/-- Elements between commas are what their relations allow, and not too many. -/
theorem Sound.elements (hc : Composed element) (h : Sound element R) (hnil : M [] [])
    (hcons : ∀ comma a ts as us, comma.kind = .symbol .comma → R a ts → M as us →
      M (a :: as) (comma :: (ts ++ us)))
    {tokens rest : List Token} {as : List α}
    (hread : (elements element tooMany).Reads tokens as rest) :
    as.length ≤ maxArity ∧ ∃ us, tokens = us ++ rest ∧
      (as = [] ∧ us = [] ∨
        ∃ a ts more vs, as = a :: more ∧ us = ts ++ vs ∧ R a ts ∧ M more vs) := by
  rcases reads_elements.mp hread with
    ⟨-, rfl, rfl⟩ | ⟨-, a, more, mid, rfl, ha, hmore⟩
  · exact ⟨Nat.zero_le _, [], rfl, .inl ⟨rfl, rfl⟩⟩
  · obtain ⟨ts, rfl, hts⟩ := h tokens a mid ha
    obtain ⟨us, rfl, hus, hlength⟩ :=
      Sound.moreElementsAfter hc h hnil hcons mid.length 1 mid more rest (Nat.le_refl _)
        (by decide) hmore
    refine ⟨by simpa [Nat.add_comm] using hlength, ts ++ us, by simp, .inr ?_⟩
    exact ⟨a, ts, more, us, rfl, rfl, hts, hus⟩

end Lox.Parser
