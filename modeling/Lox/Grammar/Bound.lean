/-
The bounds are never felt.

Loops and nesting take a token of their bound for each round or level.  What makes
that harmless is that each round, and each nested parser, starts behind a token
that was accepted: with as many tokens in the bound as there are to parse, both
come to their end together.  So a parser started with its own tokens as bound
answers as it would with any longer bound, and satisfies the equation of the
grammar, in which no bound occurs: `expression_eq`, `statement_eq` and
`declaration_eq`.

Agreement of two parsers is stated up to a number of tokens.  Handing two nested
parsers that agree below `n` tokens to a production gives two parsers that agree
below `n + 1`.
-/
import Lox.Grammar.Rest

namespace Lox.Parser

variable {α β : Type}

/-! ### Agreement

With the same bound two parsers are the same; with bounds of other lengths they may
differ on tokens that neither bound is long enough for.  So agreement is stated below a
number of tokens, and behind a token that is known it reaches one further.
-/

/-- Two parsers answer alike to fewer than `n` tokens. -/
def AgreeBelow (n : Nat) (p q : Parser α) : Prop :=
  ∀ tokens, tokens.length < n → p tokens = q tokens

/-- Two parsers answer alike to this token with fewer than `n` others behind it. -/
def AgreeBehind (n : Nat) (token : Token) (p q : Parser α) : Prop :=
  ∀ rest : List Token, rest.length < n → p (token :: rest) = q (token :: rest)

theorem peek_bind_cons (f : Token → Parser α) (token : Token) (rest : List Token) :
    (peek >>= f) (token :: rest) = f token (token :: rest) := by
  simp [bind_apply, andThen, peek]

theorem skip_bind_cons (f : Unit → Parser α) (token : Token) (rest : List Token) :
    (skip >>= f) (token :: rest) = f () rest := by
  simp [bind_apply, andThen, skip]

namespace AgreeBehind

variable {n : Nat} {token : Token}

theorem refl (p : Parser α) : AgreeBehind n token p p := fun _ _ => rfl

/-- A parser that skips the token gets to see fewer. -/
theorem skip {p q : Parser α} (h : AgreeBelow n p q) :
    AgreeBehind n token (Parser.skip >>= fun _ => p) (Parser.skip >>= fun _ => q) :=
  fun rest short => by rw [skip_bind_cons, skip_bind_cons, h rest short]

theorem ofBelow {p q : Parser α} (h : AgreeBelow (n + 1) p q) : AgreeBehind n token p q :=
  fun rest short => h (token :: rest) (by simpa using short)

end AgreeBehind

namespace AgreeBelow

variable {n : Nat}

theorem refl (p : Parser α) : AgreeBelow n p p := fun _ _ => rfl

theorem mono {m : Nat} {p q : Parser α} (h : AgreeBelow n p q) (le : m ≤ n) : AgreeBelow m p q :=
  fun tokens short => h tokens (Nat.lt_of_lt_of_le short le)

theorem bind {p q : Parser α} {f g : α → Parser β} (hp : Composed p)
    (h : AgreeBelow n p q) (hfg : ∀ a, AgreeBelow n (f a) (g a)) :
    AgreeBelow n (p >>= f) (q >>= g) := by
  intro tokens short
  have le := (hp.leavesSuffix tokens).length_le
  rw [bind_apply, bind_apply, andThen, andThen, ← h tokens short]
  split
  · rfl
  · rw [hfg _ _ (by omega)]

theorem bindSame {p : Parser α} {f g : α → Parser β} (hp : Composed p)
    (hfg : ∀ a, AgreeBelow n (f a) (g a)) : AgreeBelow n (p >>= f) (p >>= g) :=
  bind hp (refl p) hfg

theorem bounded {p q : (bound : List Token) → Parser α}
    (h : ∀ bound, AgreeBelow n (p bound) (q bound)) : AgreeBelow n (bounded p) (bounded q) :=
  fun tokens short => h tokens tokens short

/-- Behind an accepted token there is one token less. -/
theorem acceptAny {kinds : List Token.Kind} {f g : Option Token → Parser β}
    (hnone : AgreeBelow (n + 1) (f none) (g none))
    (hsome : ∀ token, AgreeBelow n (f (some token)) (g (some token))) :
    AgreeBelow (n + 1) (acceptAny kinds >>= f) (acceptAny kinds >>= g) := by
  intro tokens short
  cases tokens with
  | nil => simp only [bind_apply, andThen, Parser.acceptAny, hnone [] short]
  | cons token rest =>
      have short' : rest.length < n := by simpa using short
      rw [bind_apply, bind_apply, andThen, andThen, Parser.acceptAny]
      by_cases h : token.kind ∈ kinds
      · simp only [h, if_true, hsome token rest short']
      · simp only [h, if_false, hnone (token :: rest) short]

theorem accept {kind : Token.Kind} {f g : Option Token → Parser β}
    (hnone : AgreeBelow (n + 1) (f none) (g none))
    (hsome : ∀ token, AgreeBelow n (f (some token)) (g (some token))) :
    AgreeBelow (n + 1) (accept kind >>= f) (accept kind >>= g) :=
  acceptAny hnone hsome

/-- Looking at the next token is harmless if what is done then agrees, whatever the token. -/
theorem look {f g : Token → Parser β} (h : ∀ token, AgreeBelow n (f token) (g token)) :
    AgreeBelow n (Parser.peek >>= f) (Parser.peek >>= g) :=
  fun tokens short => h (tokens.headD missingEnd) tokens short

/-- It suffices to agree where the next token is known, and where there is none. -/
theorem peek {f g : Token → Parser β} (hnil : f missingEnd [] = g missingEnd [])
    (hcons : ∀ token, AgreeBehind n token (f token) (g token)) :
    AgreeBelow (n + 1) (peek >>= f) (peek >>= g) := by
  intro tokens short
  cases tokens with
  | nil => simp only [bind_apply, andThen, Parser.peek, List.headD_nil, hnil]
  | cons token rest =>
      rw [peek_bind_cons, peek_bind_cons]
      exact hcons token rest (by simpa using short)

/-! ### Productions of expressions -/

theorem moreElements {p q : Parser α} (hp : Composed p) (h : AgreeBelow n p q)
    (tooMany : SyntaxCause) :
    ∀ bound (count : Nat), AgreeBelow n (moreElements p tooMany bound count)
      (moreElements q tooMany bound count)
  | [], _ => refl _
  | _ :: bound, _ => bindSame (.accept _) fun
      | none => refl _
      | some _ => bindSame (.limit _ _) fun _ => bind hp h fun _ =>
          bind (.moreElements hp _ _ _) (moreElements hp h _ bound _) fun _ => refl _

theorem elements {p q : Parser α} (hp : Composed p) (h : AgreeBelow n p q)
    (tooMany : SyntaxCause) : AgreeBelow n (elements p tooMany) (elements q tooMany) :=
  bindSame (.check _) fun
    | true => refl _
    | false => bind hp h fun _ =>
        bind (.bounded fun bound => .moreElements hp _ bound _)
          (bounded fun bound => moreElements hp h _ bound _) fun _ => refl _

theorem primary {p q : Parser Expr} (hp : Composed p) (h : AgreeBelow n p q) :
    AgreeBelow (n + 1) (primary p) (primary q) :=
  look fun token => by
    cases atom? token with
    | some e => exact refl _
    | none =>
        refine accept (refl _) fun _ => bind hp h fun _ => refl _

theorem calls {p q : Parser Expr} (hp : Composed p) (h : AgreeBelow n p q) :
    ∀ bound callee, AgreeBelow (n + 1) (calls p bound callee) (calls q bound callee)
  | [], _ => refl _
  | _ :: bound, _ => accept (refl _) fun _ =>
      bind (.elements hp _) (elements hp h _) fun _ => bindSame (.expectSymbol _ _) fun _ =>
        (calls hp h bound _).mono (Nat.le_succ n)

theorem call {p q : Parser Expr} (hp : Composed p) (h : AgreeBelow n p q) :
    AgreeBelow (n + 1) (call p) (call q) :=
  bind (.primary hp) (primary hp h) fun _ => bounded fun bound => calls hp h bound _

theorem unaryWithin {p q : Parser Expr} (hp : Composed p) (h : AgreeBelow n p q) :
    ∀ bound, AgreeBelow (n + 1) (unaryWithin p bound) (unaryWithin q bound)
  | [] => call hp h
  | _ :: bound => acceptAny (call hp h) fun _ =>
      bind (.unaryWithin hp bound) ((unaryWithin hp h bound).mono (Nat.le_succ n)) fun _ => refl _

theorem unary {p q : Parser Expr} (hp : Composed p) (h : AgreeBelow n p q) :
    AgreeBelow (n + 1) (unary p) (unary q) :=
  bounded (unaryWithin hp h)

theorem chain {level : Level} {p q : Parser Expr} (hp : Composed p) (h : AgreeBelow n p q) :
    ∀ bound left, AgreeBelow n (chain level p bound left) (chain level q bound left)
  | [], _ => refl _
  | _ :: bound, _ => bindSame (.acceptAny _) fun
      | none => refl _
      | some _ => bind hp h fun _ => chain hp h bound _

theorem joined {level : Level} {p q : Parser Expr} (hp : Composed p) (h : AgreeBelow n p q) :
    AgreeBelow n (joined level p) (joined level q) :=
  bind hp h fun _ => bounded fun bound => chain hp h bound _

theorem operation {p q : Parser Expr} (hp : Composed p) (h : AgreeBelow n p q) :
    ∀ levels, AgreeBelow (n + 1) (operation p levels) (operation q levels)
  | [] => unary hp h
  | _ :: tighter => joined (.operation hp tighter) (operation hp h tighter)

theorem assignment {p q : Parser Expr} (hp : Composed p) (h : AgreeBelow n p q) :
    AgreeBelow (n + 1) (assignment p) (assignment q) :=
  bind (.operation hp _) (operation hp h _) fun _ =>
    accept (refl _) fun _ => bind hp h fun _ => refl _

/-! ### Productions of statements -/

theorem forStatement {p q : Parser Stmt} (hp : Composed p) (h : AgreeBelow n p q) :
    AgreeBelow n (forStatement p) (forStatement q) :=
  bindSame (.expectSymbol _ _) fun _ => bindSame .forInitializer fun _ =>
    bindSame (.expressionUnless _) fun _ => bindSame (.expectSymbol _ _) fun _ =>
      bindSame (.expressionUnless _) fun _ => bindSame (.expectSymbol _ _) fun _ =>
        bind hp h fun _ => refl _

theorem whileStatement {p q : Parser Stmt} (hp : Composed p) (h : AgreeBelow n p q) :
    AgreeBelow n (whileStatement p) (whileStatement q) :=
  bindSame (.expectSymbol _ _) fun _ => bindSame .expression fun _ =>
    bindSame (.expectSymbol _ _) fun _ => bind hp h fun _ => refl _

theorem ifStatement {p q : Parser Stmt} (hp : Composed p) (h : AgreeBelow n p q) :
    AgreeBelow n (ifStatement p) (ifStatement q) :=
  bindSame (.expectSymbol _ _) fun _ => bindSame .expression fun _ =>
    bindSame (.expectSymbol _ _) fun _ => bind hp h fun _ => bindSame (.accept _) fun
      | some _ => bind hp h fun _ => refl _
      | none => refl _

theorem declarations {stop : Token → Bool} {p q : Parser (Option Stmt)} (hp : Composed p)
    (h : AgreeBelow n p q) :
    ∀ bound, AgreeBelow n (declarations stop p bound) (declarations stop q bound)
  | [] => refl _
  | _ :: bound => look fun token => by
      cases stop token with
      | true => exact refl _
      | false =>
          exact bind hp h fun _ => bind (.declarations hp bound) (declarations hp h bound)
            fun _ => refl _

theorem block {p q : Parser (Option Stmt)} (hp : Composed p) (h : AgreeBelow n p q) :
    AgreeBelow n (block p) (block q) :=
  bind (.bounded (.declarations hp)) (bounded (declarations hp h)) fun _ => refl _

theorem functionDeclaration {p q : Parser (Option Stmt)} (hp : Composed p)
    (h : AgreeBelow n p q) : AgreeBelow n (functionDeclaration p) (functionDeclaration q) :=
  bindSame (.expect _ _) fun _ => bindSame (.expectSymbol _ _) fun _ =>
    bindSame (.elements (.expect _ _) _) fun _ => bindSame (.expectSymbol _ _) fun _ =>
      bindSame (.expectSymbol _ _) fun _ => bind (.block hp) (block hp h) fun _ => refl _

theorem statementOf {p q : Parser Stmt} {d e : Parser (Option Stmt)} (hp : Composed p)
    (h : AgreeBelow n p q) (hd : Composed d) (h' : AgreeBelow n d e) (insideFunction : Bool) :
    AgreeBelow (n + 1) (statementOf p d insideFunction) (statementOf q e insideFunction) :=
  peek rfl fun token => by
    split
    · exact .skip (forStatement hp h)
    · exact .skip (ifStatement hp h)
    · exact .refl _
    · exact .refl _
    · exact .skip (whileStatement hp h)
    · exact .skip (bind (.block hd) (block hd h') fun _ => refl _)
    · exact .refl _

theorem recovering {p q : Parser Stmt} (h : AgreeBelow n p q) :
    AgreeBelow n (recovering p) (recovering q) := by
  intro tokens short
  unfold Parser.recovering
  rw [h tokens short]

theorem declarationOf {p q : Parser Stmt} {d e : Parser (Option Stmt)}
    (h : AgreeBelow (n + 1) p q) (hd : Composed d) (h' : AgreeBelow n d e) :
    AgreeBelow (n + 1) (declarationOf p d) (declarationOf q e) :=
  recovering (peek (h [] (Nat.succ_pos n)) fun token => by
    split
    · exact .skip (functionDeclaration hd h')
    · exact .refl _
    · exact .ofBelow h)

end AgreeBelow

/-! ### Bounds long enough -/

/-- Bounds as long as the tokens all give the same answer. -/
def BoundFree (p : (bound : List Token) → Parser α) : Prop :=
  ∀ n a b, n ≤ a.length → n ≤ b.length → AgreeBelow (n + 1) (p a) (p b)

theorem BoundFree.agree_bounded {p : (bound : List Token) → Parser α} (h : BoundFree p)
    (bound : List Token) : AgreeBelow (bound.length + 1) (p bound) (bounded p) :=
  fun tokens short =>
    h tokens.length bound tokens (by omega) (Nat.le_refl _) tokens (Nat.lt_succ_self _)

/-- A loop, or a nesting, is bound free if it answers nothing but tokens the same under every
bound, and if each round leaves one token less to the next. -/
theorem boundFree_of_rounds {ι : Type} {p : ι → (bound : List Token) → Parser α}
    (nil : ∀ i a b, p i a [] = p i b [])
    (round : ∀ n a b, (∀ i, AgreeBelow (n + 1) (p i a) (p i b)) →
      ∀ i x y, AgreeBelow (n + 2) (p i (x :: a)) (p i (y :: b))) (i : ι) : BoundFree (p i) := by
  intro n
  induction n generalizing i with
  | zero =>
      intro a b _ _ tokens short
      have : tokens = [] := List.eq_nil_of_length_eq_zero (by omega)
      rw [this, nil i a b]
  | succ n ih =>
      intro a b ha hb
      cases a with
      | nil => simp at ha
      | cons x a =>
          cases b with
          | nil => simp at hb
          | cons y b =>
              simp only [List.length_cons] at ha hb
              exact round n a b (fun i => ih i a b (by omega) (by omega)) i x y

/-! ### Loops -/

theorem moreElements_boundFree {element : Parser α} (h : Composed element)
    (tooMany : SyntaxCause) (count : Nat) :
    BoundFree fun bound => moreElements element tooMany bound count := by
  refine boundFree_of_rounds (p := fun count bound => moreElements element tooMany bound count)
    ?_ ?_ count
  · intro count a b
    cases a <;> cases b <;> rfl
  · intro n a b same count x y
    exact .accept (.refl _) fun _ => .bindSame (.limit _ _) fun _ => .bindSame h fun _ =>
      .bind (.moreElements h _ _ _) (same (count + 1)) fun _ => .refl _

theorem calls_boundFree {nested : Parser Expr} (h : Composed nested) (callee : Expr) :
    BoundFree fun bound => calls nested bound callee := by
  refine boundFree_of_rounds (p := fun callee bound => calls nested bound callee) ?_ ?_ callee
  · intro callee a b
    cases a <;> cases b <;> rfl
  · intro n a b same callee x y
    exact .accept (.refl _) fun _ => .bindSame (.elements h _) fun _ =>
      .bindSame (.expectSymbol _ _) fun _ => same _

theorem chain_boundFree {level : Level} {operand : Parser Expr} (h : Composed operand)
    (left : Expr) : BoundFree fun bound => chain level operand bound left := by
  refine boundFree_of_rounds (p := fun left bound => chain level operand bound left) ?_ ?_ left
  · intro left a b
    cases a <;> cases b <;> rfl
  · intro n a b same left x y
    exact .acceptAny (.refl _) fun _ => .bindSame h fun _ => same _

theorem unaryWithin_boundFree {nested : Parser Expr} (h : Composed nested) :
    BoundFree (unaryWithin nested) := by
  refine boundFree_of_rounds (p := fun (_ : Unit) bound => unaryWithin nested bound) ?_ ?_ ()
  · intro _ a b
    cases a <;> cases b <;> rfl
  · intro n a b same _ x y
    exact .acceptAny (.refl _) fun _ => .bind (.unaryWithin h _) (same ()) fun _ => .refl _

/-! ### Loops without bounds

Started with their own tokens as bound, the loops satisfy the equations one would
write for them if recursion were free.
-/

/-- The elements after the first `count`, each behind a comma. -/
def moreElementsAfter (element : Parser α) (tooMany : SyntaxCause) (count : Nat) :
    Parser (List α) :=
  bounded fun bound => moreElements element tooMany bound count

/-- The calls made on a callee. -/
def callsOn (nested : Parser Expr) (callee : Expr) : Parser Expr :=
  bounded fun bound => calls nested bound callee

/-- The operators of a level and their right operands behind a left operand. -/
def chainFrom (level : Level) (operand : Parser Expr) (left : Expr) : Parser Expr :=
  bounded fun bound => chain level operand bound left

theorem moreElementsAfter_eq {element : Parser α} (h : Composed element) (tooMany : SyntaxCause)
    (count : Nat) :
    moreElementsAfter element tooMany count = (do
      match ← accept (.symbol .comma) with
      | none => pure []
      | some _ =>
        limit count tooMany
        let a ← element
        let more ← moreElementsAfter element tooMany (count + 1)
        pure (a :: more)) := by
  funext tokens
  cases tokens with
  | nil => rfl
  | cons token rest =>
      show moreElements element tooMany (token :: rest) count (token :: rest) = _
      rw [moreElements]
      refine AgreeBelow.accept ?_ (fun _ => ?_) (token :: rest) (Nat.lt_succ_self _)
      · exact .refl _
      · refine .bindSame (.limit _ _) fun _ => .bindSame h fun _ => ?_
        exact .bind (.moreElements h _ _ _)
          ((moreElements_boundFree h tooMany (count + 1)).agree_bounded rest) fun _ => .refl _

theorem callsOn_eq {nested : Parser Expr} (h : Composed nested) (callee : Expr) :
    callsOn nested callee = (do
      match ← accept (.symbol .leftParen) with
      | none => pure callee
      | some _ =>
        let arguments ← elements nested .tooManyArguments
        let paren ← expectSymbol .rightParen .afterArguments
        callsOn nested (.call callee paren arguments)) := by
  funext tokens
  cases tokens with
  | nil => rfl
  | cons token rest =>
      show calls nested (token :: rest) callee (token :: rest) = _
      rw [calls]
      refine AgreeBelow.accept ?_ (fun _ => ?_) (token :: rest) (Nat.lt_succ_self _)
      · exact .refl _
      · refine .bindSame (.elements h _) fun _ => .bindSame (.expectSymbol _ _) fun _ => ?_
        exact (calls_boundFree h _).agree_bounded rest

theorem chainFrom_eq {level : Level} {operand : Parser Expr} (h : Composed operand)
    (left : Expr) :
    chainFrom level operand left = (do
      match ← acceptAny level.operators with
      | none => pure left
      | some op =>
        let right ← operand
        chainFrom level operand (level.node left op right)) := by
  funext tokens
  cases tokens with
  | nil => rfl
  | cons token rest =>
      show chain level operand (token :: rest) left (token :: rest) = _
      rw [chain]
      refine AgreeBelow.acceptAny ?_ (fun _ => ?_) (token :: rest) (Nat.lt_succ_self _)
      · exact .refl _
      · exact .bindSame h fun _ => (chain_boundFree h _).agree_bounded rest

theorem unary_eq {nested : Parser Expr} (h : Composed nested) :
    unary nested = (do
      match ← acceptAny unaryOperators with
      | some op =>
        let right ← unary nested
        pure (.unary op right)
      | none => call nested) := by
  funext tokens
  cases tokens with
  | nil => rfl
  | cons token rest =>
      show unaryWithin nested (token :: rest) (token :: rest) = _
      rw [unaryWithin]
      refine AgreeBelow.acceptAny ?_ (fun _ => ?_) (token :: rest) (Nat.lt_succ_self _)
      · exact .refl _
      · exact .bind (.unaryWithin h _) ((unaryWithin_boundFree h).agree_bounded rest)
          fun _ => .refl _

/-! ### Nesting

Statements and declarations are nested in one another, so both are shown to agree in one
induction.  A function's body is the only place where one goes over to the parsers for
inside of functions, and so the induction is for both kinds at once.
-/

theorem expressionWithin_nil : ∀ bound, expressionWithin bound [] = fail .noExpression []
  | [] => rfl
  | _ :: _ => rfl

theorem expressionWithin_boundFree : BoundFree expressionWithin := by
  refine boundFree_of_rounds (p := fun (_ : Unit) bound => expressionWithin bound) ?_ ?_ ()
  · intro _ a b
    rw [expressionWithin_nil, expressionWithin_nil]
  · intro n a b same _ x y
    exact .assignment (.expressionWithin a) (same ())

/-- An expression is an assignment in which expressions are nested. -/
theorem expression_eq : expression = assignment expression := by
  funext tokens
  cases tokens with
  | nil => rfl
  | cons token rest =>
      exact AgreeBelow.assignment (.expressionWithin rest)
        (expressionWithin_boundFree.agree_bounded rest) (token :: rest) (by simp)

theorem statementWithin_nil (insideFunction : Bool) :
    ∀ bound, statementWithin bound insideFunction [] = fail .noExpression []
  | [] => rfl
  | _ :: _ => rfl

theorem declarationWithin_nil (insideFunction : Bool) :
    ∀ bound, declarationWithin bound insideFunction [] = recovering (fail .noExpression) []
  | [] => rfl
  | _ :: _ => rfl

theorem within_boundFree : ∀ (insideFunction : Bool) (n : Nat) (a b : List Token),
    n ≤ a.length → n ≤ b.length →
      AgreeBelow (n + 1) (statementWithin a insideFunction) (statementWithin b insideFunction) ∧
        AgreeBelow (n + 1) (declarationWithin a insideFunction)
          (declarationWithin b insideFunction) := by
  intro insideFunction n
  induction n generalizing insideFunction with
  | zero =>
      intro a b _ _
      constructor <;> intro tokens short <;>
        have : tokens = [] := List.eq_nil_of_length_eq_zero (by omega)
      · rw [this, statementWithin_nil, statementWithin_nil]
      · rw [this, declarationWithin_nil, declarationWithin_nil]
  | succ n ih =>
      intro a b ha hb
      cases a with
      | nil => simp at ha
      | cons _ a =>
          cases b with
          | nil => simp at hb
          | cons _ b =>
              simp only [List.length_cons] at ha hb
              have same := ih insideFunction a b (by omega) (by omega)
              have inner := ih true a b (by omega) (by omega)
              have leaves := Composed.within a insideFunction
              have statement : AgreeBelow (n + 2) _ _ :=
                .statementOf leaves.1 same.1 leaves.2 same.2 insideFunction
              exact ⟨statement, .declarationOf statement (Composed.within a true).2 inner.2⟩

theorem agree_statement (bound : List Token) (insideFunction : Bool) :
    AgreeBelow (bound.length + 1) (statementWithin bound insideFunction)
      (statement insideFunction) :=
  BoundFree.agree_bounded (fun n a b ha hb => (within_boundFree insideFunction n a b ha hb).1) bound

theorem agree_declaration (bound : List Token) (insideFunction : Bool) :
    AgreeBelow (bound.length + 1) (declarationWithin bound insideFunction)
      (declaration insideFunction) :=
  BoundFree.agree_bounded (fun n a b ha hb => (within_boundFree insideFunction n a b ha hb).2) bound

/-- A statement is what the production makes of the statements and declarations in it. -/
theorem statement_eq (insideFunction : Bool) :
    statement insideFunction =
      statementOf (statement insideFunction) (declaration insideFunction) insideFunction := by
  funext tokens
  cases tokens with
  | nil => rfl
  | cons token rest =>
      have leaves := Composed.within rest insideFunction
      exact AgreeBelow.statementOf leaves.1 (agree_statement rest _) leaves.2
        (agree_declaration rest _) insideFunction (token :: rest) (by simp)

/-- A declaration is what the production makes of statements and the declarations in functions. -/
theorem declaration_eq (insideFunction : Bool) :
    declaration insideFunction = declarationOf (statement insideFunction) (declaration true) := by
  funext tokens
  cases tokens with
  | nil => rfl
  | cons token rest =>
      have leaves := Composed.within rest insideFunction
      have statement : AgreeBelow (rest.length + 2) _ _ :=
        .statementOf leaves.1 (agree_statement rest _) leaves.2 (agree_declaration rest _)
          insideFunction
      rw [statement_eq insideFunction]
      exact AgreeBelow.declarationOf statement (Composed.within rest true).2
        (agree_declaration rest true) (token :: rest) (by simp)

end Lox.Parser
