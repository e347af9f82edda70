/-
Malformed statements, and how the parser gets over them.

A malformed statement is a run of tokens up to a semicolon that is no statement, but
looks like a simple one: it has nothing in it that a statement could be nested in.
Where declarations are parsed it is always left behind as a whole.  Either the parser
comes to the semicolon with a fault that did not make it give up, or it gives up in
front of it; then it skips, and no token in between makes it stop before the
semicolon.  What follows has no part in this, nor does the function around it, so the
faults are those the statement has when it is parsed alone.
-/
import Lox.Proofs.Grammar.Barrier
import Lox.Proofs.Grammar.Replies

namespace Lox.Parser

variable {α β : Type} {ts : List Token} {token semicolon : Token}

/-! ### Parsers that end at a semicolon

What a parser makes of a statement must not depend on what comes behind the semicolon.
That is why the result, the faults and the tokens left in front of it are the same for
every rest.
-/

/-- How a parser comes to the end of a statement, whatever comes behind: it takes all of it with
the semicolon, or it gives up in front of the semicolon. -/
inductive Ends (p : Parser α) (ts : List Token) (semicolon : Token) : Prop where
  | completed (a : α) (faults : List SyntaxFault)
      (h : ∀ rest, p (ts ++ semicolon :: rest) = ⟨some a, faults, rest⟩)
  | givenUp (faults : List SyntaxFault) (left : List Token) (hleft : left <:+ ts)
      (h : ∀ rest, p (ts ++ semicolon :: rest) = ⟨none, faults, left ++ semicolon :: rest⟩)

namespace Ends

theorem congr {p q : Parser α} (h : Ends q ts semicolon)
    (hsame : ∀ rest, p (ts ++ semicolon :: rest) = q (ts ++ semicolon :: rest)) :
    Ends p ts semicolon := by
  cases h with
  | completed a faults h => exact .completed a faults fun rest => by rw [hsame, h]
  | givenUp faults left hleft h => exact .givenUp faults left hleft fun rest => by rw [hsame, h]

/-- Behind a token that is skipped. -/
theorem behind {p q : Parser α} (h : Ends q ts semicolon)
    (hsame : ∀ rest, p (token :: rest) = q rest) : Ends p (token :: ts) semicolon := by
  cases h with
  | completed a faults h =>
      exact .completed a faults fun rest => by rw [List.cons_append, hsame, h]
  | givenUp faults left hleft h =>
      refine .givenUp faults left (hleft.trans (List.suffix_cons _ _)) fun rest => ?_
      rw [List.cons_append, hsame, h]

end Ends

/-- The parser ends at the first semicolon. -/
def EndsStatement (p : Parser α) : Prop :=
  ∀ (ts : List Token) (semicolon : Token), semicolon.kind = .symbol .semicolon →
    (∀ token ∈ ts, token.kind ≠ .symbol .semicolon) → Ends p ts semicolon

namespace EndsStatement

theorem bind {p : Parser α} {next : α → Parser β} (hp : Local (.symbol .semicolon) p)
    (hnext : ∀ a, EndsStatement (next a)) : EndsStatement (p >>= next) := by
  intro ts semicolon hsemicolon hts
  obtain ⟨result, faults, left, hleft, hfirst⟩ := hp ts semicolon hsemicolon
  cases result with
  | none =>
      refine .givenUp faults left hleft fun rest => ?_
      rw [bind_apply, andThen, hfirst]
  | some a =>
      have hleftTokens : ∀ token ∈ left, token.kind ≠ .symbol .semicolon :=
        fun token hmem => hts token (hleft.subset hmem)
      cases hnext a left semicolon hsemicolon hleftTokens with
      | completed b more hsecond =>
          refine .completed b (faults ++ more) fun rest => ?_
          rw [bind_apply, andThen, hfirst]
          show Reply.mk (next a _).result _ _ = _
          rw [hsecond]
      | givenUp more last hlast hsecond =>
          refine .givenUp (faults ++ more) last (hlast.trans hleft) fun rest => ?_
          rw [bind_apply, andThen, hfirst]
          show Reply.mk (next a _).result _ _ = _
          rw [hsecond]

/-- The semicolon itself, which is missing if anything stands in front of it. -/
theorem atSemicolon (place : Place) (a : α) :
    EndsStatement (do let _ ← expectSymbol .semicolon place; pure a) := by
  intro ts semicolon hsemicolon hts
  cases ts with
  | nil =>
      refine .completed a [] fun rest => ?_
      have hread : (expectSymbol .semicolon place).Reads ([] ++ semicolon :: rest) semicolon rest :=
        reads_expectSymbol.mpr ⟨rfl, hsemicolon⟩
      rw [hread.bind_apply]
      rfl
  | cons token ts =>
      refine .givenUp [⟨token, .missing .semicolon place⟩] (token :: ts) (List.suffix_refl _)
        fun rest => ?_
      exact bind_apply_none (expectSymbol_apply_of_ne (hts token List.mem_cons_self) place _)

private theorem expressionStatement : EndsStatement expressionStatement :=
  bind (.expression rfl) fun _ => atSemicolon _ _

private theorem printStatement : EndsStatement printStatement :=
  bind (.expression rfl) fun _ => atSemicolon _ _

private theorem varDeclaration : EndsStatement varDeclaration :=
  bind (.expect (ne_of_inExpression rfl rfl) _) fun _ =>
    bind (.accept (ne_of_inExpression rfl rfl)) fun
      | some _ => bind (.expression rfl) fun _ => atSemicolon _ _
      | none => atSemicolon _ _

end EndsStatement

/-! ### Simple declarations -/

/-- Can a token of this kind stand in a simple statement, before its semicolon? -/
def inSimple : Token.Kind → Bool
  | .symbol .semicolon | .symbol .leftBrace | .symbol .rightBrace | .endOfFile
  | .keyword .for_ | .keyword .if_ | .keyword .while_ | .keyword .fun_
  | .keyword .return_ => false
  | _ => true

/-- The keywords that a simple statement may start with, and that stand nowhere else in it. -/
def opensSimple : List Token.Kind := [.keyword .class_, .keyword .var_, .keyword .print_]

/-- A declaration that holds no statements. -/
def simpleDeclaration : Parser Stmt := do
  match (← peek).kind with
  | .keyword .var_ => skip; varDeclaration
  | .keyword .print_ => skip; printStatement
  | _ => expressionStatement

private theorem simpleDeclaration_cons (token : Token) (more : List Token) :
    simpleDeclaration (token :: more) =
      match token.kind with
      | .keyword .var_ => varDeclaration more
      | .keyword .print_ => printStatement more
      | _ => expressionStatement (token :: more) := by
  rw [simpleDeclaration, peek_bind_cons]
  split <;> rename_i hkind <;> simp only [hkind, skip_bind_cons]

/-- Where no other declaration starts, a simple one is expected, in a function or not. -/
theorem declarationBody_eq_simple (f : Bool)
    (h : inSimple token.kind = true ∨ token.kind = .symbol .semicolon) (more : List Token) :
    declarationBody (statement f) (declaration true) (token :: more) =
      simpleDeclaration (token :: more) := by
  have hkeyword : ∀ kind, token.kind = kind → inSimple kind = true ∨ kind = .symbol .semicolon :=
    fun kind hkind => hkind ▸ h
  rw [declarationBody_cons, simpleDeclaration_cons]
  split <;> rename_i hkind
  · exact absurd (hkeyword _ hkind) (by decide)
  · simp only [hkind]
  · rw [statement_cons]
    split <;> rename_i hstatement
    · exact absurd (hkeyword _ hstatement) (by decide)
    · exact absurd (hkeyword _ hstatement) (by decide)
    · simp only [hstatement]
    · exact absurd (hkeyword _ hstatement) (by decide)
    · exact absurd (hkeyword _ hstatement) (by decide)
    · exact absurd (hkeyword _ hstatement) (by decide)
    · split <;> rename_i hsimple
      · exact absurd hsimple hkind
      · exact absurd hsimple ‹_›
      · rfl

private theorem ne_semicolon_of_inSimple (h : inSimple token.kind = true) :
    token.kind ≠ .symbol .semicolon := by
  intro hkind
  rw [hkind] at h
  exact Bool.noConfusion h

/-- A simple declaration ends at its semicolon. -/
theorem ends_simpleDeclaration (hsemicolon : semicolon.kind = .symbol .semicolon)
    (hts : ∀ token ∈ ts, inSimple token.kind = true) : Ends simpleDeclaration ts semicolon := by
  have hnone : ∀ token ∈ ts, token.kind ≠ .symbol .semicolon :=
    fun token hmem => ne_semicolon_of_inSimple (hts token hmem)
  have hexpression := EndsStatement.expressionStatement ts semicolon hsemicolon hnone
  cases ts with
  | nil =>
      refine hexpression.congr fun rest => ?_
      rw [List.nil_append, simpleDeclaration_cons]
      simp only [hsemicolon]
  | cons token ts =>
      have hmore : ∀ token ∈ ts, token.kind ≠ .symbol .semicolon :=
        fun token hmem => hnone token (List.mem_cons_of_mem _ hmem)
      by_cases hvar : token.kind = .keyword .var_
      · refine (EndsStatement.varDeclaration ts semicolon hsemicolon hmore).behind fun rest => ?_
        rw [simpleDeclaration_cons]
        simp only [hvar]
      by_cases hprint : token.kind = .keyword .print_
      · refine (EndsStatement.printStatement ts semicolon hsemicolon hmore).behind fun rest => ?_
        rw [simpleDeclaration_cons]
        simp only [hprint]
      · refine hexpression.congr fun rest => ?_
        rw [List.cons_append, simpleDeclaration_cons]
        split <;> rename_i hkind
        · exact absurd hkind hvar
        · exact absurd hkind hprint
        · rfl

/-! ### Skipping to the semicolon

Skipping takes the first token whatever it is, and looks for keywords only from the next
on.  So the first token of a malformed statement may be one that starts a declaration,
and no other may.
-/

private theorem startsDeclaration_eq_false (hsimple : inSimple token.kind = true)
    (hopens : token.kind ∉ opensSimple) : startsDeclaration token = false := by
  unfold startsDeclaration
  split
  case h_9 => rfl
  all_goals
    rename_i hkind
    rw [hkind] at hsimple hopens
    first | exact Bool.noConfusion hsimple | exact absurd (by decide) hopens

/-- With no keyword in between that starts a declaration, all up to the semicolon is skipped. -/
theorem synchronized_semicolon (hsemicolon : semicolon.kind = .symbol .semicolon)
    (rest : List Token) :
    ∀ left : List Token, (∀ token ∈ left, inSimple token.kind = true) →
      (∀ token ∈ left.tail, token.kind ∉ opensSimple) →
        synchronized (left ++ semicolon :: rest) = rest
  | [], _, _ => by
      have hend : semicolon.isEnd = false := by
        unfold Token.isEnd
        rw [hsemicolon]
        rfl
      rw [List.nil_append, synchronized, hend, if_neg Bool.false_ne_true, if_pos hsemicolon]
  | token :: left, hsimple, hopens => by
      have htoken := hsimple token List.mem_cons_self
      have hend : token.isEnd = false := by
        unfold Token.isEnd
        rw [decide_eq_false_iff_not]
        intro hkind
        rw [hkind] at htoken
        exact Bool.noConfusion htoken
      have hmore : ∀ token ∈ left, inSimple token.kind = true :=
        fun token hmem => hsimple token (List.mem_cons_of_mem _ hmem)
      have hnext : ((left ++ semicolon :: rest).head?.any startsDeclaration) = false := by
        cases left with
        | nil =>
            show startsDeclaration semicolon = false
            unfold startsDeclaration
            rw [hsemicolon]
        | cons next left =>
            exact startsDeclaration_eq_false (hmore next List.mem_cons_self)
              (hopens next List.mem_cons_self)
      rw [List.cons_append, synchronized, hend, if_neg Bool.false_ne_true,
        if_neg (ne_semicolon_of_inSimple htoken), hnext, if_neg Bool.false_ne_true]
      exact synchronized_semicolon hsemicolon rest left hmore
        fun token hmem => hopens token (List.mem_of_mem_tail hmem)

/-! ### Declarations with a fault -/

/-- A simple declaration that is not given up, or is, is left behind with its semicolon, and what
is reported in it depends on nothing else. -/
theorem declaration_simple (hsemicolon : semicolon.kind = .symbol .semicolon)
    (hsimple : ∀ token ∈ ts, inSimple token.kind = true)
    (hopens : ∀ token ∈ ts.tail, token.kind ∉ opensSimple) :
    ∃ result faults, (faults ≠ [] → result = none) ∧
      ∀ f rest, declaration f (ts ++ semicolon :: rest) = ⟨some result, faults, rest⟩ := by
  have hsame : ∀ f rest, declaration f (ts ++ semicolon :: rest) =
      recovering simpleDeclaration (ts ++ semicolon :: rest) := by
    intro f rest
    rw [declaration_apply]
    unfold recovering
    cases ts with
    | nil => rw [List.nil_append, declarationBody_eq_simple f (.inr hsemicolon)]
    | cons token ts =>
        rw [List.cons_append,
          declarationBody_eq_simple f (.inl (hsimple token List.mem_cons_self))]
  cases ends_simpleDeclaration hsemicolon hsimple with
  | completed s faults h =>
      refine ⟨if faults.isEmpty then some s else none, faults, fun hfaults => ?_, fun f rest => ?_⟩
      · rw [List.isEmpty_eq_false_iff.mpr hfaults, if_neg Bool.false_ne_true]
      · rw [hsame]
        unfold recovering
        simp only [h]
  | givenUp faults left hleft h =>
      refine ⟨none, faults, fun _ => rfl, fun f rest => ?_⟩
      have hleftTail : left.tail <:+ ts.tail := by
        obtain ⟨front, rfl⟩ := hleft
        cases front with
        | nil => exact List.suffix_refl _
        | cons token front =>
            exact (List.tail_suffix left).trans (List.suffix_append front left)
      rw [hsame]
      unfold recovering
      simp only [h]
      rw [synchronized_semicolon hsemicolon rest left
        (fun token hmem => hsimple token (hleft.subset hmem))
        (fun token hmem => hopens token (hleftTail.subset hmem))]

end Lox.Parser

namespace Lox

open Lox.Parser

/-- A run of tokens that looks like a simple statement, and has a fault. -/
structure MalformedStatement where
  /-- What stands before the semicolon. -/
  front : List Token
  /-- The token at which recovery stops. -/
  semicolon : Token
  /-- It is a semicolon, and the only one: `simple` forbids them in `front`. -/
  kind_semicolon : semicolon.kind = .symbol .semicolon
  /-- No brace, no end mark, and no keyword of a statement that is not simple. -/
  simple : ∀ token ∈ front, inSimple token.kind = true
  /-- Behind the first token there is then no keyword at which recovery would stop. -/
  opens : ∀ token ∈ front.tail, token.kind ∉ opensSimple
  /-- It would otherwise be taken for the other branch of an `if` before it. -/
  not_else : nextKind? front ≠ some (.keyword .else_)
  /-- By itself it is not read without a fault. -/
  faulty : (parse (front ++ [semicolon])).faults ≠ []

namespace MalformedStatement

variable (m : MalformedStatement)

/-- All its tokens. -/
def tokens : List Token := m.front ++ [m.semicolon]

/-- The faults reported when it is parsed alone. -/
def faults : List SyntaxFault := (parse m.tokens).faults

/-- It starts with a token at which no list of declarations stops and no `else` branch starts. -/
theorem exists_first : ∃ first more, m.tokens = first :: more ∧
    first.kind ≠ .symbol .rightBrace ∧ first.kind ≠ .endOfFile ∧ first.kind ≠ .keyword .else_ := by
  have hsemicolon := m.kind_semicolon
  have helse := m.not_else
  have hsimple := m.simple
  unfold tokens
  cases hfront : m.front with
  | nil =>
      refine ⟨m.semicolon, [], rfl, ?_, ?_, ?_⟩ <;> rw [hsemicolon] <;> exact nofun
  | cons token front =>
      rw [hfront] at hsimple helse
      have htoken := hsimple token List.mem_cons_self
      refine ⟨token, front ++ [m.semicolon], rfl, ?_, ?_, ?_⟩
      · intro hkind
        rw [hkind] at htoken
        exact Bool.noConfusion htoken
      · intro hkind
        rw [hkind] at htoken
        exact Bool.noConfusion htoken
      · intro hkind
        rw [nextKind?_cons, hkind] at helse
        exact helse rfl

/-- **A malformed statement is left behind as a whole, in a function or not, and its faults are
those it has alone.** -/
theorem declaration_tokens (f : Bool) (rest : List Token) :
    declaration f (m.tokens ++ rest) = ⟨some none, m.faults, rest⟩ := by
  obtain ⟨result, faults, hresult, hreply⟩ :=
    declaration_simple m.kind_semicolon m.simple m.opens
  have halone : m.faults = faults := by
    have hfirst : declaration false m.tokens = ⟨some result, faults, []⟩ := hreply false []
    have hmore : ∀ bound, declarations Token.isEnd (declaration false) bound [] =
        ⟨some [], [], []⟩ := fun bound => declarations_of_stop rfl bound
    obtain ⟨first, more, htokens, -, hend, -⟩ := m.exists_first
    have hstop : (m.tokens.headD missingEnd).isEnd = false := by
      rw [htokens, List.headD_cons]
      exact decide_eq_false hend
    have hall : declarations Token.isEnd (declaration false) (first :: more) m.tokens =
        ⟨some (result.toList ++ []), faults ++ [], []⟩ :=
      declarations_cons hstop hfirst (hmore more)
    rw [← htokens] at hall
    show (declarations Token.isEnd (declaration false) m.tokens m.tokens).faults = faults
    rw [hall]
    exact List.append_nil faults
  have hfaulty : faults ≠ [] := by
    rw [← halone]
    exact m.faulty
  rw [halone]
  unfold tokens
  rw [List.append_assoc]
  show declaration f (m.front ++ m.semicolon :: rest) = _
  rw [hreply f rest, hresult hfaulty]

end MalformedStatement

end Lox
