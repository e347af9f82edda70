/-
Parsing comes to an end.

No procedure of `Descent` is bounded by anything in itself, and yet each of them ends,
whatever the tokens: brackets may be left open, keywords may stand anywhere, end marks
may come early or be missing.  The measure is the number of tokens left, and then the
rank of the procedure.  What it calls before it has taken a token is of a lower rank,
and what it calls behind a token has fewer left.  So calls are nested no deeper than
there are ranks for every token, and where the limit allows for that, a procedure does
what its parser answers.

It takes tokens from the front only, no end mark among them, it takes back no fault,
and it returns to the depth where it started.  And since no end mark is ever taken,
what lies behind the first is never seen.
-/
import Lox.Proofs.Grammar.Mirrors
import Lox.Proofs.Grammar.Survivors

namespace Lox

open Lox.Parser (missingEnd)

namespace Parser

/-- A declaration is dropped at worst. -/
theorem declaration_reply (f : Bool) (tokens : List Token) :
    ∃ first faults rest, declaration f tokens = ⟨some first, faults, rest⟩ := by
  rcases declaration_cases f tokens with ⟨s, rest, hread⟩ | ⟨faults, rest, -, hdropped⟩
  · exact ⟨some s, [], rest, hread⟩
  · exact ⟨none, faults, rest, hdropped⟩

theorem declarations_reply (stop : Token → Bool) (f : Bool) : ∀ bound tokens : List Token,
    ∃ ss faults rest, declarations stop (declaration f) bound tokens = ⟨some ss, faults, rest⟩
  | [], tokens => ⟨[], [], tokens, rfl⟩
  | _ :: bound, tokens => by
      cases hstop : stop (tokens.headD missingEnd) with
      | true => exact ⟨[], [], tokens, declarations_of_stop hstop _⟩
      | false =>
          obtain ⟨first, faults, mid, hfirst⟩ := declaration_reply f tokens
          obtain ⟨more, moreFaults, rest, hmore⟩ := declarations_reply stop f bound mid
          exact ⟨first.toList ++ more, faults ++ moreFaults, rest,
            declarations_cons hstop hfirst hmore⟩

end Parser

namespace Descent

variable {α : Type}

/-! ### All procedures

What a procedure calls before it has taken a token is of lower rank, and what it calls
behind a token has fewer tokens.  The ranks are numbers in a table; that they go down
where they have to is checked by evaluation, call by call.
-/

/-- The parser that a procedure does the work of. -/
def Procedure.parser (insideFunction : Bool) : Procedure α → Parser α
  | isAtEnd => do return (← Parser.peek).isEnd
  | peek => Parser.peek
  | check kind => Parser.check kind
  | accept kind _ => Parser.accept kind
  | acceptAny kinds _ => Parser.acceptAny kinds
  | expect kind _ cause => Parser.expect kind cause
  | report fault => Parser.reportAt fault.token fault.cause
  | synchronize => Parser.synchronizing
  | expression | assignment => Parser.expression
  | operation levels _ => Parser.operation Parser.expression levels
  | chain level tighter _ left =>
      Parser.chainFrom level (Parser.operation Parser.expression tighter) left
  | unary => Parser.unary Parser.expression
  | call => Parser.call Parser.expression
  | calls callee => Parser.callsOn Parser.expression callee
  | finishCall callee => Parser.finishCall Parser.expression callee
  | arguments count => Parser.elementsFrom Parser.expression .tooManyArguments count
  | primary => Parser.primary Parser.expression
  | varDeclaration => Parser.varDeclaration
  | expressionStatement => Parser.expressionStatement
  | printStatement => Parser.printStatement
  | expressionUnless kind => Parser.expressionUnless kind
  | returnStatement keyword => Parser.returnStatement insideFunction keyword
  | forInitializer => Parser.forInitializer
  | forStatement => Parser.forStatement (Parser.statement insideFunction)
  | whileStatement => Parser.whileStatement (Parser.statement insideFunction)
  | ifStatement => Parser.ifStatement (Parser.statement insideFunction)
  | statement => Parser.statement insideFunction
  | declarationsOfBlock =>
      Parser.declarationsUntil Parser.endsBlock (Parser.declaration insideFunction)
  | block => Parser.block (Parser.declaration insideFunction)
  | parameters count =>
      Parser.elementsFrom (Parser.expect .identifier .noParameterName) .tooManyParameters count
  | function => Parser.functionDeclaration (Parser.declaration true)
  | declaration => Parser.declaration insideFunction
  | program => Parser.declarationsUntil Token.isEnd (Parser.declaration insideFunction)

/-- How far down a procedure stands among those that call one another before a token was taken: it
calls only lower ones then. -/
def Procedure.rank : Procedure α → Nat
  | call => 1
  | unary => 2
  | operation levels _ => 3 + levels.length
  | assignment => 10
  | expression => 11
  | arguments _ | varDeclaration | expressionStatement | printStatement | expressionUnless _
  | parameters _ => 12
  | finishCall _ | returnStatement _ | forInitializer | statement => 13
  | forStatement | whileStatement | ifStatement | declaration => 14
  | declarationsOfBlock | program => 15
  | block => 16
  | function => 17
  | _ => 0

/-- There are this many ranks. -/
def ranks : Nat := 18

private theorem Procedure.rank_lt (q : Procedure α) : q.rank < ranks := by
  cases q with
  | operation levels h =>
      have hlength : levels.length ≤ Parser.levels.length := h.length_le
      show 3 + levels.length < 18
      exact Nat.lt_of_le_of_lt (Nat.add_le_add_left hlength 3) (by decide)
  | _ => exact Nat.le_of_ble_eq_true rfl

/-- How deep the calls of a procedure are nested at most, with fewer than `n` tokens left: a call
goes down in rank, or else a token was taken before it. -/
def Procedure.nesting (q : Procedure α) (n : Nat) : Nat := ranks * n + q.rank

section

variable {run : {β : Type} → Procedure β → Descent β} {limit : Nat}

/-- The calls nested less deep than this do what the parsers answer. -/
def MirrorsWithin (limit : Nat) (run : {β : Type} → Procedure β → Descent β) : Prop :=
  ∀ {β : Type} (q : Procedure β) (n d : Nat), q.nesting n < limit →
    Mirrors n d (run q) (q.parser (decide (0 < d)))

/-- **Calls nested one deeper do what the parsers answer.** -/
theorem MirrorsWithin.body (h : MirrorsWithin limit run) :
    MirrorsWithin (limit + 1) fun q => q.body run := by
  intro α q n d hlimit
  cases n with
  | zero => exact .zero _ _
  | succ n =>
  -- What is called behind a token has one token less, and what is called before has a lower rank.
  have behind {β : Type} (q' : Procedure β) (d : Nat) :
      Mirrors n d (run q') (q'.parser (decide (0 < d))) := by
    refine h q' n d ?_
    have hrank := q'.rank_lt
    simp only [Procedure.nesting, ranks] at hlimit hrank ⊢
    omega
  have before {β : Type} (q' : Procedure β) (d : Nat) (hrank : q'.rank.blt q.rank = true) :
      Mirrors (n + 1) d (run q') (q'.parser (decide (0 < d))) := by
    refine h q' (n + 1) d ?_
    rw [Nat.blt_eq] at hrank
    simp only [Procedure.nesting] at hlimit ⊢
    omega
  cases q with
  | isAtEnd => exact .isAtEnd
  | peek => exact .peek
  | check kind => exact .check kind
  | accept kind h => exact .accept h
  | acceptAny kinds h => exact .takes (takes_acceptAny kinds) h
  | expect kind h cause => exact .expect h cause
  | report fault => exact .report fault.token fault.cause
  | synchronize => exact .synchronize (behind .synchronize d)
  | expression => exact before .assignment d rfl
  | assignment =>
      exact .assignment (before (.operation Parser.levels (List.suffix_refl _)) d rfl)
        (behind .assignment d)
  | operation levels h =>
      cases levels with
      | nil => exact before .unary d rfl
      | cons level tighter =>
          have h' : tighter <:+ Parser.levels := (List.suffix_cons _ _).trans h
          have hlower : (Procedure.operation tighter h').rank <
              (Procedure.operation (level :: tighter) h).rank := Nat.lt_succ_self _
          exact (before (.operation tighter h') d (by rwa [Nat.blt_eq])).bind fun first =>
            before (.chain level tighter h first) d rfl
  | chain level tighter h left =>
      exact .chain .expression (behind (.operation tighter _) d) fun left =>
        behind (.chain level tighter h left) d
  | unary => exact .unary .expression (behind .unary d) (before .call d rfl)
  | call => exact (before .primary d rfl).bind fun callee => before (.calls callee) d rfl
  | calls callee =>
      exact .calls .expression (behind (.finishCall callee) d) fun called =>
        behind (.calls called) d
  | finishCall callee => exact .finishCall (before (.arguments 0) d rfl)
  | arguments count =>
      exact .elements .expression (before .expression d rfl) (behind (.arguments (count + 1)) d)
  | primary => exact .primary (behind .expression d)
  | varDeclaration => exact .varDeclaration (before .expression d rfl)
  | expressionStatement => exact .expressionStatement (before .expression d rfl)
  | printStatement => exact .printStatement (before .expression d rfl)
  | expressionUnless kind => exact .expressionUnless (before .expression d rfl) kind
  | returnStatement keyword =>
      exact .returnStatement (before (.expressionUnless (.symbol .semicolon)) d rfl)
  | forInitializer =>
      exact .forInitializer (before .varDeclaration d rfl) (before .expressionStatement d rfl)
  | forStatement =>
      exact .forStatement (before .forInitializer d rfl)
        (fun kind => before (.expressionUnless kind) d rfl) (before .statement d rfl)
  | whileStatement =>
      exact .whileStatement (before .expression d rfl) (before .statement d rfl)
  | ifStatement =>
      exact .ifStatement (before .expression d rfl) (before .statement d rfl)
  | statement =>
      exact .statement (behind .forStatement d) (behind .ifStatement d) (behind .printStatement d)
        (fun keyword => behind (.returnStatement keyword) d) (behind .whileStatement d)
        (behind .block d) (before .expressionStatement d rfl)
  | declarationsOfBlock =>
      exact .declarations Mirrors.outcome?_endsBlock (fun _ => Mirrors.endsBlock_of_isEnd)
        (before .declaration d rfl) (behind .declarationsOfBlock d)
  | block => exact .block (before .declarationsOfBlock d rfl)
  | parameters count =>
      exact .elements (.expect _ _) (.expect Token.Kind.noConfusion _)
        (behind (.parameters (count + 1)) d)
  | function =>
      exact .function (before (.parameters 0) d rfl) (before .block (d + 1) rfl)
  | declaration =>
      exact .declaration (behind .function d) (behind .varDeclaration d)
        (before .statement d rfl) (before .synchronize d rfl)
  | program =>
      exact .declarations Mirrors.outcome?_isAtEnd (fun _ h => h)
        (before .declaration d rfl) (behind .program d)

end

/-- Calls do what the parsers answer if the limit leaves room for them. -/
theorem mirrorsWithin : ∀ limit, MirrorsWithin limit (within limit)
  | 0 => fun _ _ _ hlimit => absurd hlimit (Nat.not_lt_zero _)
  | limit + 1 => MirrorsWithin.body (mirrorsWithin limit)

/-! ### Termination

With a limit on nesting a procedure may have no outcome.  With any limit that is high
enough it has the one that its parser answers, so this can be called the end of the
procedure, without a limit.
-/

/-- The procedure, started in the first state, ends in the second with this result, whatever the
limit, if only it allows for calls as deep as there are ranks for every token left, and twice
more. -/
def Procedure.Ends (q : Procedure α) (s : State) (result : Except SyntaxFault α) (s' : State) :
    Prop :=
  ∀ limit, ranks * (s.tokens.length + 2) ≤ limit →
    (within limit q).outcome? s = some (result, s')

/-- What procedures may make of a state. -/
structure State.Leads (s s' : State) : Prop where
  /-- Tokens are taken from the front, and none of them is an end mark. -/
  tokens : Spares s.tokens s'.tokens
  /-- Faults are appended to those that were reported before. -/
  faults : s.faults <+: s'.faults
  /-- There are as many functions around the place as there were. -/
  depth : s'.depth = s.depth

section

variable {s : State}

theorem Performs.outcome?_eq {q q' : Descent α} {reply : Reply α} (h : q.Performs s reply)
    (h' : q'.Performs s reply) : q.outcome? s = q'.outcome? s := by
  cases h with
  | ok h => cases h' with
    | ok h' => rw [h, h']
  | @error fault faults _ h =>
      generalize hall : faults ++ [fault] = all at h'
      cases h' with
      | error h' =>
          obtain ⟨rfl, hfault⟩ := List.append_inj' hall rfl
          obtain rfl := List.singleton_inj.mp hfault
          rw [h, h']

/-- **Every procedure does what its parser answers.** -/
theorem Procedure.performs (q : Procedure α) (s : State) {limit : Nat}
    (hlimit : ranks * (s.tokens.length + 2) ≤ limit) :
    (within limit q).Performs s (q.parser (decide (0 < s.depth)) s.tokens) := by
  refine mirrorsWithin limit q (s.tokens.length + 1) s.depth ?_ s (Nat.lt_succ_self _) rfl
  have hrank := q.rank_lt
  simp only [Procedure.nesting, ranks] at hlimit hrank ⊢
  omega

theorem Procedure.ends_of_outcome {q : Procedure α} {result : Except SyntaxFault α} {s' : State}
    (h : (within (ranks * (s.tokens.length + 2)) q).outcome? s = some (result, s')) :
    q.Ends s result s' := by
  intro limit hlimit
  rw [(q.performs s hlimit).outcome?_eq (q.performs s (Nat.le_refl _)), h]

/-- **Every procedure comes to an end, whatever the state.** -/
theorem Procedure.exists_ends (q : Procedure α) (s : State) :
    ∃ result s', q.Ends s result s' ∧ s.Leads s' := by
  have hdone := q.performs s (Nat.le_refl _)
  generalize q.parser _ s.tokens = reply at hdone
  cases hdone with
  | ok h hrest => exact ⟨_, _, ends_of_outcome h, hrest, List.prefix_append _ _, rfl⟩
  | error h hrest => exact ⟨_, _, ends_of_outcome h, hrest, List.prefix_append _ _, rfl⟩

/-- **A declaration takes a token, unless it starts at the end.** -/
theorem declaration_takes {token : Token} {rest : List Token} (htokens : s.tokens = token :: rest)
    (hend : token.isEnd = false) :
    ∃ result s', Procedure.declaration.Ends s (.ok result) s' ∧
      s'.tokens.length < s.tokens.length := by
  have hdone : Performs _ s (Parser.declaration (decide (0 < s.depth)) s.tokens) :=
    Procedure.declaration.performs s (Nat.le_refl _)
  obtain ⟨first, _, _, hfirst⟩ := Parser.declaration_reply (decide (0 < s.depth)) s.tokens
  have hadvanced := Parser.declaration_advances (decide (0 < s.depth)) token rest hend
  rw [← htokens] at hadvanced
  generalize Parser.declaration (decide (0 < s.depth)) s.tokens = reply at *
  cases hdone with
  | ok h hrest =>
      refine ⟨_, _, Procedure.ends_of_outcome h, ?_⟩
      rw [htokens]
      exact Nat.lt_succ_of_le hadvanced
  | error h hrest => cases hfirst

/-- **Parsing is what the procedure for programs does.** -/
theorem program_ends (tokens : List Token) :
    ∃ rest, Procedure.program.Ends ⟨tokens, [], 0⟩ (.ok (parse tokens).statements)
      ⟨rest, (parse tokens).faults, 0⟩ := by
  have hdone : Performs _ ⟨tokens, [], 0⟩ (Parser.program tokens) :=
    Procedure.program.performs ⟨tokens, [], 0⟩ (Nat.le_refl _)
  obtain ⟨ss, _, _, hss⟩ : ∃ ss faults rest, Parser.program tokens = ⟨some ss, faults, rest⟩ :=
    Parser.declarations_reply Token.isEnd false tokens tokens
  unfold parse
  generalize Parser.program tokens = reply at *
  cases hdone with
  | @ok _ _ rest h hrest => exact ⟨rest, Procedure.ends_of_outcome h⟩
  | error h hrest => cases hss

end

end Descent

/-! ### The end mark

The tokens up to the end mark are their own counterparts.  What is said of counterparts,
that they are parsed alike with anything behind the end, comes to this: what is behind
it does not matter.
-/

/-- **What is parsed depends on the tokens up to an end mark only**, and a missing one is taken to
be there. -/
theorem parse_append_tail (ts tail tail' : List Token) (hend : (tail.headD missingEnd).isEnd = true)
    (hsame : tail.headD missingEnd = tail'.headD missingEnd) :
    parse (ts ++ tail) = parse (ts ++ tail') := by
  obtain ⟨hstatements, hfaults⟩ := parse_matches ⟨tail, tail', hend, hsame⟩
    (Token.Pairing.identity_pairs ts)
  have hs : List.Forall₂ Eq (parse (ts ++ tail)).statements (parse (ts ++ tail')).statements :=
    hstatements.imp fun _ _ h => Stmt.Matches.eq h
  have hf : List.Forall₂ Eq (parse (ts ++ tail)).faults (parse (ts ++ tail')).faults :=
    hfaults.imp fun _ _ h => SyntaxFault.Matches.eq h
  rw [List.forall₂_eq_eq_eq] at hs hf
  generalize parse (ts ++ tail) = parsed at *
  generalize parse (ts ++ tail') = parsed' at *
  obtain ⟨statements, faults⟩ := parsed
  obtain ⟨statements', faults'⟩ := parsed'
  obtain ⟨rfl, rfl⟩ : statements = statements' ∧ faults = faults' := ⟨hs, hf⟩
  rfl

/-- **Parsing comes to an end on all tokens, and looks no further than the first end mark.**
Every procedure does what its parser answers, and it ends, leading from one state to another in an
orderly way; a declaration takes a token unless it starts at the end; parsing is what the procedure
for programs does; and neither what lies behind an end mark nor a missing one makes a difference. -/
theorem parsing_ends :
    (∀ (α : Type) (q : Descent.Procedure α) (s : Descent.State) (limit : Nat),
      Descent.ranks * (s.tokens.length + 2) ≤ limit →
        (Descent.within limit q).Performs s (q.parser (decide (0 < s.depth)) s.tokens)) ∧
    (∀ (α : Type) (q : Descent.Procedure α) (s : Descent.State),
      ∃ result s', q.Ends s result s' ∧ s.Leads s') ∧
    (∀ (s : Descent.State) (token : Token) (rest : List Token),
      s.tokens = token :: rest → token.isEnd = false →
        ∃ result s', Descent.Procedure.declaration.Ends s (.ok result) s' ∧
          s'.tokens.length < s.tokens.length) ∧
    (∀ tokens : List Token, ∃ rest, Descent.Procedure.program.Ends ⟨tokens, [], 0⟩
      (.ok (parse tokens).statements) ⟨rest, (parse tokens).faults, 0⟩) ∧
    (∀ (ts rest : List Token) (last : Token), last.isEnd = true →
      parse (ts ++ [last] ++ rest) = parse (ts ++ [last])) ∧
    ∀ ts : List Token, parse ts = parse (ts ++ [⟨.endOfFile, "", 0⟩]) := by
  refine ⟨fun _ q s _ hlimit => q.performs s hlimit, fun _ q s => q.exists_ends s,
    fun _ _ _ htokens hend => Descent.declaration_takes htokens hend, Descent.program_ends,
    fun ts rest last hlast => ?_, fun ts => ?_⟩
  · have h : parse (ts ++ last :: rest) = parse (ts ++ [last]) :=
      parse_append_tail ts (last :: rest) [last] hlast rfl
    rwa [List.append_cons] at h
  · have h : parse (ts ++ []) = parse (ts ++ [missingEnd]) :=
      parse_append_tail ts [] [missingEnd] rfl rfl
    rwa [List.append_nil] at h

/-- A semicolon where a declaration should start is taken where calls are nested no deeper than 54,
and the one behind the end mark is not seen. -/
theorem parsing_ends_semicolon :
    (Descent.within 54 .declaration).Performs ⟨[⟨.symbol .semicolon, ";", 1⟩], [], 0⟩
        (Parser.declaration false [⟨.symbol .semicolon, ";", 1⟩]) ∧
      (∃ result s', Descent.Procedure.declaration.Ends ⟨[⟨.symbol .semicolon, ";", 1⟩], [], 0⟩
        (.ok result) s' ∧ s'.tokens.length < 1) ∧
      parse ([⟨.symbol .semicolon, ";", 1⟩] ++ [.endOfFile 1] ++ [⟨.symbol .semicolon, ";", 1⟩]) =
        parse ([⟨.symbol .semicolon, ";", 1⟩] ++ [.endOfFile 1]) :=
  ⟨parsing_ends.1 _ .declaration _ 54 (Nat.le_refl 54), parsing_ends.2.2.1 _ _ _ rfl rfl,
    parsing_ends.2.2.2.2.1 _ _ _ rfl⟩

end Lox
