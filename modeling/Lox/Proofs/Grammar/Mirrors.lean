/-
The procedures do what the parsers answer.

Started with some tokens, a procedure ends: with the result of the parser of the same
name, with the parser's faults appended to those reported before, with the tokens that
the parser leaves, and at the depth where it started.  Where the parser gives up, the
last of its faults is the one that the procedure throws.  No end mark is among the
tokens that were taken.

`Mirrors n d` says so of fewer than `n` tokens at depth `d`.  Every procedure mirrors
its parser if its calls mirror theirs, where those behind a token that was taken have
one token less to go through.  Only in a list of declarations does a round begin without
a token that was taken.  There the declaration has taken one, or synchronizing has
skipped one.
-/
import Lox.Proofs.Grammar.Descent
import Lox.Proofs.Grammar.Equations

namespace Lox

open Lox.Parser (missingEnd)

/-! ### Tokens taken -/

/-- What is left where tokens were taken from the front, none of them an end mark. -/
def Spares (tokens rest : List Token) : Prop :=
  ∃ taken : List Token, tokens = taken ++ rest ∧ ∀ token ∈ taken, token.isEnd = false

namespace Spares

variable {token : Token} {tokens mid rest : List Token}

theorem refl (tokens : List Token) : Spares tokens tokens :=
  ⟨[], rfl, fun _ h => absurd h List.not_mem_nil⟩

theorem trans (h : Spares tokens mid) (h' : Spares mid rest) : Spares tokens rest := by
  obtain ⟨taken, rfl, htaken⟩ := h
  obtain ⟨taken', rfl, htaken'⟩ := h'
  refine ⟨taken ++ taken', by rw [List.append_assoc], fun token h => ?_⟩
  exact (List.mem_append.mp h).elim (htaken token) (htaken' token)

theorem cons (h : token.isEnd = false) (rest : List Token) : Spares (token :: rest) rest :=
  ⟨[token], rfl, fun _ hmem => List.mem_singleton.mp hmem ▸ h⟩

theorem suffix (h : Spares tokens rest) : rest <:+ tokens := by
  obtain ⟨taken, rfl, -⟩ := h
  exact List.suffix_append _ _

end Spares

namespace Descent

variable {α β : Type} {n d : Nat} {q : Descent α} {s s' : State}

/-! ### Procedures and parsers

A parser that gives up has reported the fault for which it does.  A procedure throws
that fault and leaves it to a caller to report.  So what a procedure reports is what the
parser does but for the last fault, which is the one that is thrown.
-/

/-- Started in this state, the procedure does what the reply says.  A fault that makes it give up
is thrown and not yet reported. -/
inductive Performs (q : Descent α) (s : State) : Reply α → Prop where
  | ok {a : α} {faults : List SyntaxFault} {rest : List Token}
      (h : q.outcome? s = some (.ok a, ⟨rest, s.faults ++ faults, s.depth⟩))
      (hrest : Spares s.tokens rest) : Performs q s ⟨some a, faults, rest⟩
  | error {fault : SyntaxFault} {faults : List SyntaxFault} {rest : List Token}
      (h : q.outcome? s = some (.error fault, ⟨rest, s.faults ++ faults, s.depth⟩))
      (hrest : Spares s.tokens rest) : Performs q s ⟨none, faults ++ [fault], rest⟩

/-- To fewer than `n` tokens, inside `d` functions, the procedure does what the parser answers. -/
def Mirrors (n d : Nat) (q : Descent α) (p : Parser α) : Prop :=
  ∀ s : State, s.tokens.length < n → s.depth = d → q.Performs s (p s.tokens)

namespace Performs

/-- One thing after another; the second is started in the state that the first leads to. -/
theorem bind {p : Parser α} {next : α → Descent β} {next' : α → Parser β}
    (h : q.Performs s (p s.tokens))
    (hnext : ∀ a faults rest, p s.tokens = ⟨some a, faults, rest⟩ → Spares s.tokens rest →
      (next a).Performs ⟨rest, s.faults ++ faults, s.depth⟩ (next' a rest)) :
    (q >>= next).Performs s ((p >>= next') s.tokens) := by
  rw [Parser.bind_apply, Parser.andThen]
  generalize hreply : p s.tokens = reply at h
  cases h with
  | @ok a faults rest h hrest =>
      have hsecond := hnext a faults rest hreply hrest
      show (q >>= next).Performs s
        ⟨(next' a rest).result, faults ++ (next' a rest).faults, (next' a rest).rest⟩
      generalize next' a rest = second at hsecond
      cases hsecond with
      | ok h' hrest' =>
          refine .ok ?_ (hrest.trans hrest')
          rw [outcome?_bind_of_ok h, h', List.append_assoc]
      | error h' hrest' =>
          rw [← List.append_assoc]
          refine .error ?_ (hrest.trans hrest')
          rw [outcome?_bind_of_ok h, h', List.append_assoc]
  | error h hrest => exact .error (outcome?_bind_of_error h next) hrest

/-- A procedure that takes a token does what is then done to the others. -/
theorem behind {q' : Descent α} {token : Token} {rest : List Token} {reply : Reply α}
    (htokens : s.tokens = token :: rest) (hend : token.isEnd = false)
    (hsame : q'.outcome? s = q.outcome? { s with tokens := rest })
    (h : q.Performs { s with tokens := rest } reply) : q'.Performs s reply := by
  have hcons : Spares s.tokens rest := htokens ▸ Spares.cons hend rest
  cases h with
  | ok h hrest => exact .ok (hsame.trans h) (hcons.trans hrest)
  | error h hrest => exact .error (hsame.trans h) (hcons.trans hrest)

/-- Performing is about outcomes only. -/
theorem congr {q' : Descent α} {reply : Reply α} (hsame : q'.outcome? s = q.outcome? s)
    (h : q.Performs s reply) : q'.Performs s reply := by
  cases h with
  | ok h hrest => exact .ok (hsame.trans h) hrest
  | error h hrest => exact .error (hsame.trans h) hrest

end Performs

namespace Mirrors

variable {p : Parser α}

/-! ### Putting procedures together -/

theorem bind {next : α → Descent β} {next' : α → Parser β} (h : Mirrors n d q p)
    (hnext : ∀ a, Mirrors n d (next a) (next' a)) : Mirrors n d (q >>= next) (p >>= next') :=
  fun s short hdepth => (h s short hdepth).bind fun a faults rest _ hrest =>
    hnext a ⟨rest, s.faults ++ faults, s.depth⟩
      (Nat.lt_of_le_of_lt hrest.suffix.length_le short) hdepth

/-- What has an answer and changes nothing. -/
theorem of_outcome? {f : List Token → α} (h : ∀ s, q.outcome? s = some (.ok (f s.tokens), s))
    (hp : ∀ tokens, p tokens = ⟨some (f tokens), [], tokens⟩) : Mirrors n d q p := by
  intro s _ _
  rw [hp]
  refine .ok ?_ (.refl _)
  rw [h, List.append_nil]

theorem pure (a : α) : Mirrors n d (Pure.pure a) (Pure.pure a) :=
  of_outcome? (f := fun _ => a) (fun _ => rfl) fun _ => rfl

theorem peek : Mirrors n d Descent.peek Parser.peek :=
  of_outcome? (f := fun tokens => tokens.headD missingEnd)
    (fun s => by rw [List.headD_eq_head?_getD]; rfl) fun _ => rfl

theorem check (kind : Token.Kind) : Mirrors n d (Descent.check kind) (Parser.check kind) :=
  of_outcome? (fun _ => rfl) fun _ => rfl

theorem report (token : Token) (cause : SyntaxCause) :
    Mirrors n d (Descent.report ⟨token, cause⟩) (Parser.reportAt token cause) :=
  fun _ _ _ => .ok rfl (.refl _)

theorem throw (token : Token) (cause : SyntaxCause) :
    Mirrors n d (throw ⟨token, cause⟩) (Parser.failAt token cause : Parser α) := by
  intro s _ _
  show Performs _ s ⟨none, [] ++ [⟨token, cause⟩], s.tokens⟩
  refine .error ?_ (.refl _)
  rw [List.append_nil]
  rfl

end Mirrors

/-! ### Taking tokens

This is where the number of tokens goes down.  What a procedure calls behind a token
that it took has to mirror its parser for one token less only.
-/

/-- The procedure takes the next token if it is of one of these kinds. -/
def Takes (q : Descent (Option Token)) (kinds : List Token.Kind) : Prop :=
  ∀ s found rest, (Parser.acceptAny kinds).Reads s.tokens found rest →
    q.outcome? s = some (.ok found, { s with tokens := rest })

theorem takes_accept (kind : Token.Kind) : Takes (accept kind) [kind] := by
  intro s found rest hread
  have hcheck : (check kind).outcome? s =
      some (.ok (decide (Parser.nextKind? s.tokens = some kind)), s) := by
    show some (Except.ok (s.tokens.head?.any (·.kind = kind)), s) = _
    cases s.tokens <;> simp
  rw [accept, outcome?_bind_of_ok hcheck]
  rcases Parser.reads_acceptAny.mp hread with ⟨token, rfl, htokens, hkind⟩ | ⟨rfl, rfl, hnot⟩
  · have htake : take.outcome? s = some (.ok s.tokens.head?, { s with tokens := s.tokens.tail }) :=
      rfl
    rw [if_pos (by simpa [htokens] using hkind), htake, htokens]
    rfl
  · rw [if_neg (by simpa using hnot)]
    rfl

theorem takes_acceptAny : ∀ kinds, Takes (acceptAny kinds) kinds
  | [] => by
      intro s found rest hread
      rcases Parser.reads_acceptAny.mp hread with ⟨_, _, _, hmem⟩ | ⟨rfl, rfl, -⟩
      · exact absurd hmem List.not_mem_nil
      · rfl
  | kind :: kinds => by
      intro s found rest hread
      rcases Parser.reads_acceptAny.mp hread with ⟨token, rfl, htokens, hmem⟩ | ⟨rfl, rfl, hnot⟩
      · by_cases hkind : token.kind = kind
        · have hfirst : (Parser.acceptAny [kind]).Reads s.tokens (some token) rest :=
            Parser.reads_acceptAny.mpr (.inl ⟨token, rfl, htokens, List.mem_singleton.mpr hkind⟩)
          rw [acceptAny, outcome?_bind_of_ok (takes_accept kind s _ _ hfirst)]
          rfl
        · have hfirst : (Parser.acceptAny [kind]).Reads s.tokens none s.tokens :=
            Parser.reads_acceptAny.mpr (.inr ⟨rfl, rfl, by simpa [htokens] using hkind⟩)
          rw [acceptAny, outcome?_bind_of_ok (takes_accept kind s _ _ hfirst)]
          exact takes_acceptAny kinds s _ _ (Parser.reads_acceptAny.mpr
            (.inl ⟨token, rfl, htokens, (List.mem_cons.mp hmem).resolve_left hkind⟩))
      · have hfirst : (Parser.acceptAny [kind]).Reads s.tokens none s.tokens :=
          Parser.reads_acceptAny.mpr (.inr ⟨rfl, rfl, by simpa using hnot kind (.head _)⟩)
        rw [acceptAny, outcome?_bind_of_ok (takes_accept kind s _ _ hfirst)]
        exact takes_acceptAny kinds s _ _ (Parser.reads_acceptAny.mpr
          (.inr ⟨rfl, rfl, fun k hk => hnot k (.tail _ hk)⟩))

private theorem exists_reads_acceptAny (kinds : List Token.Kind) (tokens : List Token) :
    ∃ found rest, (Parser.acceptAny kinds).Reads tokens found rest := by
  cases tokens with
  | nil => exact ⟨none, [], rfl⟩
  | cons token rest =>
      by_cases h : token.kind ∈ kinds
      · exact ⟨some token, rest, Parser.reads_acceptAny.mpr (.inl ⟨token, rfl, rfl, h⟩)⟩
      · exact ⟨none, token :: rest, by rw [Parser.Reads, Parser.acceptAny, if_neg h]⟩

namespace Mirrors

variable {kinds : List Token.Kind} {next : Option Token → Descent β}
  {next' : Option Token → Parser β}

theorem zero (q : Descent α) (p : Parser α) : Mirrors 0 d q p :=
  fun _ short _ => absurd short (Nat.not_lt_zero _)

/-- Behind a token that was taken there is one token less. -/
theorem takeBind {q : Descent (Option Token)} (hq : Takes q kinds) (hkinds : .endOfFile ∉ kinds)
    (hnone : Mirrors (n + 1) d (next none) (next' none))
    (hsome : ∀ token, Mirrors n d (next (some token)) (next' (some token))) :
    Mirrors (n + 1) d (q >>= next) (Parser.acceptAny kinds >>= next') := by
  intro s short hdepth
  obtain ⟨found, rest, hread⟩ := exists_reads_acceptAny kinds s.tokens
  have hrun := outcome?_bind_of_ok (hq s _ _ hread) next
  rw [hread.bind_apply]
  rcases Parser.reads_acceptAny.mp hread with ⟨token, rfl, htokens, hkind⟩ | ⟨rfl, rfl, -⟩
  · have hend : token.isEnd = false := by
      rw [Token.isEnd, decide_eq_false_iff_not]
      exact fun h => hkinds (h ▸ hkind)
    rw [htokens] at short
    exact (hsome token { s with tokens := rest } (Nat.lt_of_succ_lt_succ short) hdepth).behind
      htokens hend hrun
  · exact (hnone s short hdepth).congr hrun

private theorem acceptAnyBind (hkinds : .endOfFile ∉ kinds)
    (hnone : Mirrors (n + 1) d (next none) (next' none))
    (hsome : ∀ token, Mirrors n d (next (some token)) (next' (some token))) :
    Mirrors (n + 1) d (Descent.acceptAny kinds >>= next) (Parser.acceptAny kinds >>= next') :=
  takeBind (takes_acceptAny kinds) hkinds hnone hsome

theorem acceptBind {kind : Token.Kind} (hkind : .endOfFile ≠ kind)
    (hnone : Mirrors (n + 1) d (next none) (next' none))
    (hsome : ∀ token, Mirrors n d (next (some token)) (next' (some token))) :
    Mirrors (n + 1) d (Descent.accept kind >>= next) (Parser.accept kind >>= next') :=
  takeBind (takes_accept kind) (fun h => hkind (List.mem_singleton.mp h)) hnone hsome

theorem takes {q : Descent (Option Token)} (hq : Takes q kinds) (hkinds : .endOfFile ∉ kinds) :
    Mirrors n d q (Parser.acceptAny kinds) := by
  cases n with
  | zero => exact zero _ _
  | succ n =>
      rw [← bind_pure q, ← bind_pure (Parser.acceptAny kinds)]
      exact takeBind hq hkinds (pure none) fun token => pure (some token)

theorem accept {kind : Token.Kind} (hkind : .endOfFile ≠ kind) :
    Mirrors n d (Descent.accept kind) (Parser.accept kind) :=
  takes (takes_accept kind) fun h => hkind (List.mem_singleton.mp h)

private theorem fail (cause : SyntaxCause) :
    Mirrors n d (Descent.fail cause) (Parser.fail cause : Parser α) :=
  peek.bind fun token => throw token cause

theorem expect {kind : Token.Kind} (hkind : .endOfFile ≠ kind) (cause : SyntaxCause) :
    Mirrors n d (Descent.expect kind cause) (Parser.expect kind cause) :=
  (accept hkind).bind fun
    | some token => pure token
    | none => fail cause

theorem expectSymbol (symbol : Symbol) (place : Place) :
    Mirrors n d (Descent.expectSymbol symbol place) (Parser.expectSymbol symbol place) :=
  expect Token.Kind.noConfusion _

private theorem limit (count : Nat) (tooMany : SyntaxCause) :
    Mirrors n d (Descent.limit count tooMany) (Parser.limit count tooMany) := by
  unfold Descent.limit Parser.limit
  split
  · exact peek.bind fun token => report token tooMany
  · exact pure ()

/-- To this token with fewer than `n` others behind it, inside `d` functions, the procedure does
what the parser answers. -/
def Behind (n d : Nat) (token : Token) (q : Descent α) (p : Parser α) : Prop :=
  ∀ s rest, s.tokens = token :: rest → rest.length < n → s.depth = d →
    q.Performs s (p (token :: rest))

private theorem look {next : Token → Descent α} {next' : Token → Parser α}
    (hnil : Mirrors 1 d (next missingEnd) (next' missingEnd))
    (hcons : ∀ token, Behind n d token (next token) (next' token)) :
    Mirrors (n + 1) d (Descent.peek >>= next) (Parser.peek >>= next') := by
  intro s short hdepth
  have hpeek : Descent.peek.outcome? s = some (.ok (s.tokens.head?.getD missingEnd), s) := rfl
  refine Performs.congr (outcome?_bind_of_ok hpeek next) ?_
  cases htokens : s.tokens with
  | nil =>
      have hdone := hnil s (by rw [htokens]; exact Nat.one_pos) hdepth
      rw [htokens] at hdone
      exact hdone
  | cons token rest =>
      rw [htokens] at short
      rw [Parser.peek_bind_cons]
      exact hcons token s rest htokens (Nat.lt_of_succ_lt_succ short) hdepth

theorem Behind.take {token : Token} {next : Option Token → Descent α} {p : Parser α}
    (hend : token.isEnd = false) (h : Mirrors n d (next (some token)) p) :
    Behind n d token (Descent.take >>= next) (Parser.skip >>= fun _ => p) := by
  intro s rest htokens short hdepth
  have htake : Descent.take.outcome? s = some (.ok (some token), { s with tokens := rest }) := by
    show some (Except.ok s.tokens.head?, State.mk s.tokens.tail _ _) = _
    rw [htokens]
    rfl
  exact (h { s with tokens := rest } short hdepth).behind htokens hend
    (outcome?_bind_of_ok htake next)

private theorem behind {token : Token} {q : Descent α} (h : Mirrors (n + 1) d q p) :
    Behind n d token q p := by
  intro s rest htokens short hdepth
  rw [← htokens]
  exact h s (by rw [htokens]; exact Nat.succ_lt_succ short) hdepth

/-! ### Elementary procedures -/

theorem outcome?_isAtEnd (s : State) :
    Descent.isAtEnd.outcome? s = some (.ok (s.tokens.headD missingEnd).isEnd, s) := by
  show some (Except.ok (s.tokens.head?.all Token.isEnd), s) = _
  cases s.tokens <;> rfl

theorem isAtEnd : Mirrors n d Descent.isAtEnd (do return (← Parser.peek).isEnd) :=
  of_outcome? (f := fun tokens => (tokens.headD missingEnd).isEnd) outcome?_isAtEnd fun _ => rfl

theorem outcome?_endsBlock (s : State) :
    endsBlock.outcome? s = some (.ok (Parser.endsBlock (s.tokens.headD missingEnd)), s) := by
  show some (Except.ok (s.tokens.head?.any (·.kind = .symbol .rightBrace) ||
    s.tokens.head?.all Token.isEnd), s) = _
  cases s.tokens <;> rfl

theorem endsBlock_of_isEnd {token : Token} (h : token.isEnd = true) :
    Parser.endsBlock token = true := by
  rw [Parser.endsBlock, h, Bool.or_true]

theorem unlessClosed {element : Parser α} {tooMany : SyntaxCause} {q : Descent (List α)}
    (h : Mirrors n d q (Parser.elementsFrom element tooMany 0)) :
    Mirrors n d (Descent.unlessClosed q) (Parser.elements element tooMany) := by
  rw [Parser.elements_eq]
  exact (check _).bind fun
    | true => pure _
    | false => h

private theorem enclosed {q : Descent α} {p : Parser α} (h : Mirrors n (d + 1) q p) :
    Mirrors n d (Descent.enclosed q) p := by
  intro s short hdepth
  have hq := h { s with depth := s.depth + 1 } short (congrArg (· + 1) hdepth)
  have henter : (modify fun s : State => { s with depth := s.depth + 1 } : Descent Unit).outcome? s =
    some (.ok (), { s with depth := s.depth + 1 }) := rfl
  generalize p s.tokens = reply at hq
  cases hq with
  | ok hrun hrest =>
      refine .ok ?_ hrest
      exact (outcome?_bind_of_ok henter _).trans (outcome?_bind_of_ok (outcome?_attempt hrun) _)
  | error hrun hrest =>
      refine .error ?_ hrest
      exact (outcome?_bind_of_ok henter _).trans (outcome?_bind_of_ok (outcome?_attempt hrun) _)

section

variable {run : {β : Type} → Procedure β → Descent β}

/-- What is skipped behind a token that was skipped. -/
theorem synchronizeBehind (token : Token)
    (h : Mirrors n d (run .synchronize) Parser.synchronizing) :
    Mirrors n d (do
        if (some token).any (·.kind = .symbol .semicolon) then return ()
        else if (← next?).any Parser.startsDeclaration then return ()
        else run .synchronize)
      (Parser.synchronizingBehind token) := by
  unfold Parser.synchronizingBehind
  by_cases hsemicolon : token.kind = .symbol .semicolon
  · simp only [Option.any_some, hsemicolon, decide_true, if_true]
    exact pure ()
  · simp only [Option.any_some, hsemicolon, decide_false, Bool.false_eq_true, if_false]
    intro s short hdepth
    have hnext : next?.outcome? s = some (.ok s.tokens.head?, s) := rfl
    have hhead : s.tokens.head?.any Parser.startsDeclaration =
        Parser.startsDeclaration (s.tokens.headD missingEnd) := by
      cases s.tokens <;> rfl
    refine Performs.congr (outcome?_bind_of_ok hnext _) ?_
    show Performs _ s ((if Parser.startsDeclaration (s.tokens.headD missingEnd) = true then _
      else _ : Parser _) _)
    rw [hhead]
    split
    · exact pure () s short hdepth
    · exact h s short hdepth

theorem synchronize (h : Mirrors n d (run .synchronize) Parser.synchronizing) :
    Mirrors (n + 1) d (Descent.synchronize run) Parser.synchronizing := by
  intro s short hdepth
  have hstay : Performs (Pure.pure ()) s ⟨some (), [], s.tokens⟩ := pure () s short hdepth
  refine Performs.congr (outcome?_bind_of_ok (outcome?_isAtEnd s) _) ?_
  cases htokens : s.tokens with
  | nil => rwa [htokens] at hstay
  | cons token rest =>
      cases hend : token.isEnd with
      | true =>
          rw [htokens] at hstay
          rw [List.headD_cons, hend, Parser.synchronizing, Parser.synchronized, if_pos hend]
          exact hstay
      | false =>
          rw [htokens] at short
          rw [List.headD_cons, hend, Parser.synchronizing_cons hend]
          exact Behind.take hend (synchronizeBehind token h) s rest htokens
            (Nat.lt_of_succ_lt_succ short) hdepth

/-- A declaration that was given up is left behind. -/
theorem recovering {q : Descent Stmt} {p : Parser Stmt} (h : Mirrors n d q p)
    (hsynchronize : Mirrors n d (run .synchronize) Parser.synchronizing) :
    Mirrors n d (Descent.recovering run q) (Parser.recovering p) := by
  intro s short hdepth
  have hq := h s short hdepth
  have hget : (get : Descent State).outcome? s = some (.ok s, s) := rfl
  unfold Parser.recovering
  generalize p s.tokens = reply at hq
  cases hq with
  | @ok a faults rest hrun hrest =>
      -- The list of faults has grown if there are faults of this declaration.
      have hkept : (if (s.faults ++ faults).length = s.faults.length then some a else none) =
          if faults.isEmpty then some a else none := by
        cases faults <;> simp
      refine .ok ?_ hrest
      rw [← hkept]
      exact (outcome?_bind_of_ok hget _).trans (outcome?_bind_of_ok (outcome?_attempt hrun) _)
  | @error fault faults rest hrun hrest =>
      have hreport : (Descent.report fault).outcome? ⟨rest, s.faults ++ faults, s.depth⟩ =
          some (.ok (), ⟨rest, s.faults ++ (faults ++ [fault]), s.depth⟩) := by
        rw [← List.append_assoc]
        rfl
      have hskipped := hsynchronize ⟨rest, s.faults ++ (faults ++ [fault]), s.depth⟩
        (Nat.lt_of_le_of_lt hrest.suffix.length_le short) hdepth
      cases hskipped with
      | ok hskip hrest' =>
          rw [List.append_nil] at hskip
          refine .ok ?_ (hrest.trans hrest')
          refine (outcome?_bind_of_ok hget _).trans ?_
          refine (outcome?_bind_of_ok (outcome?_attempt hrun) _).trans ?_
          refine (outcome?_bind_of_ok hreport _).trans ?_
          exact outcome?_bind_of_ok hskip _

theorem elements {element : Descent α} {element' : Parser α} {others : Nat → Procedure (List α)}
    {tooMany : SyntaxCause} {count : Nat} (hc : Parser.Composed element')
    (h : Mirrors (n + 1) d element element')
    (hothers : Mirrors n d (run (others (count + 1)))
      (Parser.elementsFrom element' tooMany (count + 1))) :
    Mirrors (n + 1) d (Descent.elements run element others tooMany count)
      (Parser.elementsFrom element' tooMany count) := by
  rw [Parser.elementsFrom_eq hc]
  refine (limit _ _).bind fun _ => h.bind fun first => ?_
  refine acceptBind Token.Kind.noConfusion (pure _) fun _ => ?_
  exact hothers.bind fun more => pure _

/-! ### Expressions -/

variable {nested : Parser Expr}

theorem assignment {h : Parser.levels <:+ Parser.levels}
    (htarget : Mirrors (n + 1) d (run (.operation Parser.levels h))
      (Parser.operation Parser.expression Parser.levels))
    (hvalue : Mirrors n d (run .assignment) Parser.expression) :
    Mirrors (n + 1) d (Descent.assignment run) Parser.expression := by
  rw [Parser.expression_eq]
  refine htarget.bind fun target => acceptBind Token.Kind.noConfusion (pure _) fun equals =>
    hvalue.bind fun value => ?_
  cases target
  case var => exact pure _
  all_goals exact (report equals .invalidTarget).bind fun _ => pure _

/-- Operators are no end marks. -/
theorem endOfFile_not_mem_operators {level : Parser.Level} (h : level ∈ Parser.levels) :
    .endOfFile ∉ level.operators := by
  revert level
  decide

theorem chain {level : Parser.Level} {tighter : List Parser.Level}
    {h : level :: tighter <:+ Parser.levels} {left : Expr} (hnested : Parser.Composed nested)
    (hoperand : Mirrors n d (run (.operation tighter ((List.suffix_cons _ _).trans h)))
      (Parser.operation nested tighter))
    (hothers : ∀ left, Mirrors n d (run (.chain level tighter h left))
      (Parser.chainFrom level (Parser.operation nested tighter) left)) :
    Mirrors (n + 1) d (Descent.chain run level tighter h left)
      (Parser.chainFrom level (Parser.operation nested tighter) left) := by
  rw [Parser.chainFrom_eq (.operation hnested tighter)]
  refine acceptAnyBind (endOfFile_not_mem_operators (h.mem (.head _))) (pure _) fun op => ?_
  exact hoperand.bind fun right => hothers _

theorem unary (hnested : Parser.Composed nested)
    (hright : Mirrors n d (run .unary) (Parser.unary nested))
    (hcall : Mirrors (n + 1) d (run .call) (Parser.call nested)) :
    Mirrors (n + 1) d (Descent.unary run) (Parser.unary nested) := by
  rw [Parser.unary_eq hnested]
  exact acceptAnyBind (by decide) hcall fun op => hright.bind fun right => pure _

theorem calls {callee : Expr} (hnested : Parser.Composed nested)
    (hcalled : Mirrors n d (run (.finishCall callee)) (Parser.finishCall nested callee))
    (hothers : ∀ called, Mirrors n d (run (.calls called)) (Parser.callsOn nested called)) :
    Mirrors (n + 1) d (Descent.calls run callee) (Parser.callsOn nested callee) := by
  rw [Parser.callsOn_eq_finishCall hnested]
  exact acceptBind Token.Kind.noConfusion (pure _) fun _ => hcalled.bind hothers

theorem finishCall {callee : Expr}
    (harguments : Mirrors n d (run (.arguments 0))
      (Parser.elementsFrom nested .tooManyArguments 0)) :
    Mirrors n d (Descent.finishCall run callee) (Parser.finishCall nested callee) :=
  (unlessClosed harguments).bind fun _ => (expectSymbol _ _).bind fun _ => pure _

theorem primary (hinner : Mirrors n d (run .expression) nested) :
    Mirrors (n + 1) d (Descent.primary run) (Parser.primary nested) := by
  rw [Parser.primary_eq]
  refine look (throw missingEnd .noExpression) fun token => ?_
  cases hatom : Parser.atom? token with
  | some e => exact .take (Parser.Composed.isEnd_of_atom? hatom) (pure e)
  | none =>
      by_cases hkind : token.kind = .symbol .leftParen
      · simp only [hkind, if_true]
        refine .take (by rw [Token.isEnd, hkind]; rfl) (hinner.bind fun inner => ?_)
        exact (expectSymbol _ _).bind fun _ => pure _
      · simp only [hkind, if_false]
        exact (throw token .noExpression).behind

/-! ### Statements -/

section

variable (hexpression : Mirrors n d (run .expression) Parser.expression)
include hexpression

theorem varDeclaration : Mirrors n d (Descent.varDeclaration run) Parser.varDeclaration :=
  (expect Token.Kind.noConfusion _).bind fun _ => (accept Token.Kind.noConfusion).bind fun
    | some _ => hexpression.bind fun _ => (expectSymbol _ _).bind fun _ => pure _
    | none => (expectSymbol _ _).bind fun _ => pure _

theorem expressionStatement :
    Mirrors n d (Descent.expressionStatement run) Parser.expressionStatement :=
  hexpression.bind fun _ => (expectSymbol _ _).bind fun _ => pure _

theorem printStatement : Mirrors n d (Descent.printStatement run) Parser.printStatement :=
  hexpression.bind fun _ => (expectSymbol _ _).bind fun _ => pure _

theorem expressionUnless (kind : Token.Kind) :
    Mirrors n d (Descent.expressionUnless run kind) (Parser.expressionUnless kind) :=
  (check _).bind fun
    | true => pure _
    | false => hexpression.bind fun _ => pure _

end

/-- A `return` is inside a function where the depth is positive. -/
theorem returnStatement {keyword : Token}
    (hvalue : Mirrors n d (run (.expressionUnless (.symbol .semicolon)))
      (Parser.expressionUnless (.symbol .semicolon))) :
    Mirrors n d (Descent.returnStatement run keyword)
      (Parser.returnStatement (decide (0 < d)) keyword) := by
  intro s short hdepth
  have hget : (get : Descent State).outcome? s = some (.ok s, s) := rfl
  refine Performs.congr (outcome?_bind_of_ok hget _) ?_
  rw [hdepth]
  cases d with
  | zero => exact throw keyword .returnOutsideFunction s short hdepth
  | succ d =>
      refine bind hvalue (fun value => ?_) s short hdepth
      exact (expectSymbol _ _).bind fun _ => pure _

theorem forInitializer
    (hdeclaration : Mirrors n d (run .varDeclaration) Parser.varDeclaration)
    (hstatement : Mirrors n d (run .expressionStatement) Parser.expressionStatement) :
    Mirrors n d (Descent.forInitializer run) Parser.forInitializer :=
  (accept Token.Kind.noConfusion).bind fun
    | some _ => pure _
    | none => (accept Token.Kind.noConfusion).bind fun
        | some _ => hdeclaration.bind fun _ => pure _
        | none => hstatement.bind fun _ => pure _

variable {body : Parser Stmt}

theorem forStatement (hinitializer : Mirrors n d (run .forInitializer) Parser.forInitializer)
    (hclause : ∀ kind, Mirrors n d (run (.expressionUnless kind)) (Parser.expressionUnless kind))
    (hbody : Mirrors n d (run .statement) body) :
    Mirrors n d (Descent.forStatement run) (Parser.forStatement body) :=
  (expectSymbol _ _).bind fun _ => hinitializer.bind fun _ =>
    (hclause _).bind fun _ => (expectSymbol _ _).bind fun _ =>
      (hclause _).bind fun _ => (expectSymbol _ _).bind fun _ =>
        hbody.bind fun _ => pure _

theorem whileStatement (hcondition : Mirrors n d (run .expression) Parser.expression)
    (hbody : Mirrors n d (run .statement) body) :
    Mirrors n d (Descent.whileStatement run) (Parser.whileStatement body) :=
  (expectSymbol _ _).bind fun _ => hcondition.bind fun _ => (expectSymbol _ _).bind fun _ =>
    hbody.bind fun _ => pure _

theorem ifStatement (hcondition : Mirrors n d (run .expression) Parser.expression)
    (hbranch : Mirrors n d (run .statement) body) :
    Mirrors n d (Descent.ifStatement run) (Parser.ifStatement body) :=
  (expectSymbol _ _).bind fun _ => hcondition.bind fun _ => (expectSymbol _ _).bind fun _ =>
    hbranch.bind fun _ => (accept Token.Kind.noConfusion).bind fun
      | some _ => hbranch.bind fun _ => pure _
      | none => pure _

/-! ### Declarations

A function is the one place where the depth changes.  It is one higher for the body, and
back again however the body ends.  A `return` behind a function whose body was given up
is refused if there is no other function around it.
-/

variable {f : Bool}

/-- A declaration leaves fewer tokens to the others. -/
theorem declarations {stop : Descent Bool} {stop' : Token → Bool} {others : Procedure (List Stmt)}
    (hstop : ∀ s, stop.outcome? s = some (.ok (stop' (s.tokens.headD missingEnd)), s))
    (hend : ∀ token : Token, token.isEnd = true → stop' token = true)
    (h : Mirrors (n + 1) d (run .declaration) (Parser.declaration f))
    (hothers : Mirrors n d (run others) (Parser.declarationsUntil stop' (Parser.declaration f))) :
    Mirrors (n + 1) d (Descent.declarations run stop others)
      (Parser.declarationsUntil stop' (Parser.declaration f)) := by
  have hadvance := Parser.declaration_advances f
  rw [Parser.declarationsUntil_eq hend (.declaration f) hadvance]
  intro s short hdepth
  refine Performs.congr (outcome?_bind_of_ok (hstop s) _) ?_
  show Performs _ s ((if stop' (s.tokens.headD missingEnd) = true then _ else _ : Parser _) _)
  cases hcontinue : stop' (s.tokens.headD missingEnd) with
  | true => exact pure [] s short hdepth
  | false =>
      refine (h s short hdepth).bind fun first faults rest hreply _ => ?_
      have hleft : rest.length < n := by
        cases htokens : s.tokens with
        | nil =>
            rw [htokens] at hcontinue
            exact absurd (hcontinue.symm.trans (hend missingEnd rfl)) Bool.false_ne_true
        | cons token more =>
            rw [htokens] at hreply short hcontinue
            have hadvanced := hadvance token more (Parser.isEnd_of_goesOn hend hcontinue)
            rw [hreply] at hadvanced
            exact Nat.lt_of_le_of_lt hadvanced (Nat.lt_of_succ_lt_succ short)
      have hmore := hothers.bind fun more => pure (first.toList ++ more)
      exact hmore ⟨rest, s.faults ++ faults, s.depth⟩ hleft hdepth

theorem block (hbody : Mirrors n d (run .declarationsOfBlock)
      (Parser.declarationsUntil Parser.endsBlock (Parser.declaration f))) :
    Mirrors n d (Descent.block run) (Parser.block (Parser.declaration f)) :=
  hbody.bind fun _ => (expectSymbol _ _).bind fun _ => pure _

theorem function
    (hparameters : Mirrors n d (run (.parameters 0))
      (Parser.elementsFrom (Parser.expect .identifier .noParameterName) .tooManyParameters 0))
    (hbody : Mirrors n (d + 1) (run .block) (Parser.block (Parser.declaration true))) :
    Mirrors n d (Descent.function run) (Parser.functionDeclaration (Parser.declaration true)) :=
  (expect Token.Kind.noConfusion _).bind fun _ => (expectSymbol _ _).bind fun _ =>
    (unlessClosed hparameters).bind fun _ => (expectSymbol _ _).bind fun _ =>
      (expectSymbol _ _).bind fun _ => hbody.enclosed.bind fun _ => pure _

theorem statement
    (hfor : Mirrors n d (run .forStatement) (Parser.forStatement (Parser.statement f)))
    (hif : Mirrors n d (run .ifStatement) (Parser.ifStatement (Parser.statement f)))
    (hprint : Mirrors n d (run .printStatement) Parser.printStatement)
    (hreturn : ∀ keyword, Mirrors n d (run (.returnStatement keyword))
      (Parser.returnStatement f keyword))
    (hwhile : Mirrors n d (run .whileStatement) (Parser.whileStatement (Parser.statement f)))
    (hblock : Mirrors n d (run .block) (Parser.block (Parser.declaration f)))
    (hexpression : Mirrors (n + 1) d (run .expressionStatement) Parser.expressionStatement) :
    Mirrors (n + 1) d (Descent.statement run) (Parser.statement f) := by
  rw [Parser.statement_eq_tried]
  refine acceptBind Token.Kind.noConfusion ?_ fun _ => hfor
  refine acceptBind Token.Kind.noConfusion ?_ fun _ => hif
  refine acceptBind Token.Kind.noConfusion ?_ fun _ => hprint
  refine acceptBind Token.Kind.noConfusion ?_ hreturn
  refine acceptBind Token.Kind.noConfusion ?_ fun _ => hwhile
  exact acceptBind Token.Kind.noConfusion hexpression fun _ => hblock.bind fun _ => pure _

theorem declaration
    (hfunction : Mirrors n d (run .function)
      (Parser.functionDeclaration (Parser.declaration true)))
    (hvar : Mirrors n d (run .varDeclaration) Parser.varDeclaration)
    (hstatement : Mirrors (n + 1) d (run .statement) (Parser.statement f))
    (hsynchronize : Mirrors (n + 1) d (run .synchronize) Parser.synchronizing) :
    Mirrors (n + 1) d (Descent.recovering run (declared run)) (Parser.declaration f) := by
  rw [Parser.declaration_eq, Parser.declarationOf_eq]
  refine recovering ?_ hsynchronize
  rw [Parser.declarationBody_eq_tried]
  refine acceptBind Token.Kind.noConfusion ?_ fun _ => hfunction
  exact acceptBind Token.Kind.noConfusion hstatement fun _ => hvar

end

end Mirrors

end Descent

end Lox
