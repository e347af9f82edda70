/-
The `for` loop and the `while` loop it stands for.

There is no `for` in a tree.  A `for` loop is read as the tree that one gets by writing it
without `for`: the condition, or `true`, in front of a `while` loop, the increment behind
the body in a block with it, and the initializer before all that in a block around it.

`ForTokens` holds the tokens of a loop's clauses and body, which is all that both ways of
writing it have in common.  The clauses are known to be read without a fault in a `for`
loop only.  In the other way something else follows each of them, so one has to go
through the rules of the grammar, which do not know what follows.
-/
import Lox.Proofs.Grammar.Equality

namespace Lox

open Lox.Parser

/-! ### Trees of a loop -/

namespace Stmt

/-- What runs in each round of a `for` loop. -/
def forRound (body : Stmt) : (increment : Option Expr) → Stmt
  | none => body
  | some e => block [body, .expression e]

theorem forLoop_none (condition increment : Option Expr) (body : Stmt) :
    forLoop none condition increment body =
      .loop (condition.getD (.literal (.bool true))) (forRound body increment) := by
  cases increment <;> rfl

end Stmt

/-! ### Tokens of a loop -/

/-- The tokens of the clauses of a `for` loop and of its body. -/
structure ForTokens where
  /-- With the semicolon, which belongs to the declaration or the statement. -/
  initializer : Option (List Token)
  /-- Without the semicolon behind it. -/
  condition : Option (List Token)
  /-- Without the parenthesis behind it. -/
  increment : Option (List Token)
  /-- All of the statement that is repeated. -/
  body : List Token

namespace ForTokens

/-- All of the tokens. -/
def all (c : ForTokens) : List Token :=
  c.initializer.getD [] ++ (c.condition.getD [] ++ (c.increment.getD [] ++ c.body))

/-- Tokens as they are. -/
def kept (ts : List Token) : List Piece := ts.map .kept

/-- `for ( initializer condition ; increment ) body` -/
def asFor (c : ForTokens) : List Piece :=
  .keyword .for_ :: .symbol .leftParen ::
    ((c.initializer.map kept).getD [.symbol .semicolon] ++
      (kept (c.condition.getD []) ++ .symbol .semicolon ::
        (kept (c.increment.getD []) ++ .symbol .rightParen :: kept c.body)))

/-- `body`, or `{ body increment ; }` -/
def round (c : ForTokens) : List Piece :=
  match c.increment with
  | none => kept c.body
  | some ns => .symbol .leftBrace ::
      (kept c.body ++ (kept ns ++ [.symbol .semicolon, .symbol .rightBrace]))

/-- `while ( condition ) round`, with `true` for a condition that is missing -/
def loop (c : ForTokens) : List Piece :=
  .keyword .while_ :: .symbol .leftParen ::
    ((c.condition.map kept).getD [.keyword .true_] ++ .symbol .rightParen :: c.round)

/-- `loop`, or `{ initializer loop }` -/
def asWhile (c : ForTokens) : List Piece :=
  match c.initializer with
  | none => c.loop
  | some is => .symbol .leftBrace :: (kept is ++ (c.loop ++ [.symbol .rightBrace]))

/-! ### Reading the clauses

That a clause is read without a fault is said of the parser, with what stands behind the
clause in a `for` loop.  In the other way of writing the loop something else stands
there.  So each clause is turned into what the rules of the grammar say, which hold in
both.
-/

/-- The parser takes all of these tokens and nothing else where a token of this kind follows. -/
def ReadsBefore {α : Type} (kind : Token.Kind) (p : Parser α) (ts : List Token) (a : α) : Prop :=
  ∃ token, token.kind = kind ∧ p.Reads (ts ++ [token]) a [token]

/-- The clauses and the body are read as these trees, each without a fault where it stands in a
`for` loop that these tokens follow. -/
structure Read (c : ForTokens) (f : Bool) (rest : List Token) (initializer : Option Stmt)
    (condition increment : Option Expr) (body : Stmt) : Prop where
  /-- The initializer ends with its semicolon, so it is read from its tokens alone. -/
  initializer : Option.Rel (fun ts s => forInitializer.Reads ts (some s) []) c.initializer initializer
  /-- The semicolon that follows is none of its tokens, but where it ends depends on it. -/
  condition : Option.Rel (ReadsBefore (.symbol .semicolon) expression) c.condition condition
  /-- It is read up to the closing parenthesis in the same way. -/
  increment : Option.Rel (ReadsBefore (.symbol .rightParen) expression) c.increment increment
  /-- The body may be an `if` without `else`, so it is read with what stands behind the loop. -/
  body : (statement f).Reads (c.body ++ rest) body rest

/-- What is read in front of a token that ends it follows the rules. -/
theorem written_of_readsBefore {symbol : Symbol} (hends : endsExpression (.symbol symbol) = true)
    {ts : List Token} {e : Expr} (h : ReadsBefore (.symbol symbol) expression ts e) :
    (Phrase.expression e).Written ts := by
  obtain ⟨token, hkind, hread⟩ := h
  obtain ⟨us, heq, hus⟩ := (reads_expression_iff (endsExpression_cons hkind hends)).mp hread
  rwa [List.append_cancel_right heq]

theorem readsBefore_of_written {symbol : Symbol} (hends : endsExpression (.symbol symbol) = true)
    {ts : List Token} {e : Expr} (h : (Phrase.expression e).Written ts) :
    ReadsBefore (.symbol symbol) expression ts e :=
  ⟨⟨.symbol symbol, symbol.text, 1⟩, rfl,
    (reads_expression_iff (endsExpression_cons rfl hends)).mpr ⟨ts, rfl, h⟩⟩

theorem written_of_reads_initializer {ts : List Token} {s : Stmt}
    (h : forInitializer.Reads ts (some s) []) : WrittenInitializer (some s) ts := by
  obtain ⟨us, heq, hus⟩ := reads_forInitializer.mp h
  rwa [heq, List.append_nil]

/-! ### Tokens that fit -/

theorem unparses_kept {ts us : List Token} : Unparses (kept ts) us ↔ us = ts := by
  constructor
  · intro h
    induction ts generalizing us with
    | nil => exact h.nil_inv
    | cons t ts ih =>
        obtain ⟨token, more, rfl, hfits, hmore⟩ := h.cons_inv
        rw [ih hmore, show token = t from hfits]
  · rintro rfl
    induction us with
    | nil => exact .nil
    | cons t us ih => exact .cons rfl ih

theorem writtenOptional_of_rel {symbol : Symbol} (hends : endsExpression (.symbol symbol) = true)
    {tokens : Option (List Token)} {value : Option Expr}
    (h : Option.Rel (ReadsBefore (.symbol symbol) expression) tokens value) :
    WrittenOptional value (tokens.getD []) := by
  cases h with
  | none => exact .none
  | some hread => exact .some (written_of_readsBefore hends hread)

theorem rel_of_writtenOptional (symbol : Symbol) (hends : endsExpression (.symbol symbol) = true)
    {ts : List Token} {value : Option Expr} (h : WrittenOptional value ts) :
    ∃ tokens : Option (List Token), tokens.getD [] = ts ∧
      Option.Rel (ReadsBefore (.symbol symbol) expression) tokens value := by
  cases h with
  | none => exact ⟨none, rfl, .none⟩
  | some he => exact ⟨some ts, rfl, .some (readsBefore_of_written hends he)⟩

namespace Read

variable {c : ForTokens} {f : Bool} {rest ts : List Token} {initializer : Option Stmt}
  {condition increment : Option Expr} {body : Stmt}

/-! ### Both ways of writing a loop

Only the body needs care.  If it is open, an `else` behind it would go into it, and what
stands behind it, a brace or whatever follows the loop, depends on how the loop is
written and on which clauses it has.
-/

/-- The start of a loop, whether it has an initializer or not. -/
theorem written_initializer (h : c.Read f rest initializer condition increment body)
    (hts : Unparses ((c.initializer.map kept).getD [.symbol .semicolon]) ts) :
    WrittenInitializer initializer ts := by
  have hrel := h.initializer
  generalize c.initializer = tokens at hrel hts
  cases hrel with
  | none =>
      obtain ⟨semicolon, rfl, hend⟩ := hts.single_inv
      exact .none hend
  | some hread =>
      rw [unparses_kept.mp hts]
      exact written_of_reads_initializer hread

/-- The body is a statement, and if it is open no `else` follows. -/
theorem written_body (h : c.Read f rest initializer condition increment body) :
    ∃ isOpen, (Clause.statement f isOpen body).Written c.body ∧
      (isOpen = true → nextKind? rest ≠ some (.keyword .else_)) := by
  obtain ⟨us, isOpen, heq, hus, hrest⟩ := reads_statement_iff.mp h.body
  rw [List.append_cancel_right heq]
  exact ⟨isOpen, hus, hrest⟩

/-- As a `for` loop. -/
theorem reads_for (h : c.Read f rest initializer condition increment body)
    (hts : Unparses c.asFor ts) :
    (statement f).Reads (ts ++ rest) (.forLoop initializer condition increment body) rest := by
  obtain ⟨keyword, _, rfl, hkeyword, hmore⟩ := hts.cons_inv
  obtain ⟨opening, _, rfl, hopening, hmore⟩ := hmore.cons_inv
  obtain ⟨is, _, rfl, his, hmore⟩ := hmore.append_inv
  obtain ⟨cs, _, rfl, hcs, hmore⟩ := hmore.append_inv
  obtain ⟨semicolon, _, rfl, hsemicolon, hmore⟩ := hmore.cons_inv
  obtain ⟨ns, _, rfl, hns, hmore⟩ := hmore.append_inv
  obtain ⟨closing, us, rfl, hclosing, hus⟩ := hmore.cons_inv
  rw [unparses_kept.mp hcs, unparses_kept.mp hns, unparses_kept.mp hus]
  obtain ⟨isOpen, hbody, hrest⟩ := h.written_body
  have hwritten := Clause.Written.forLoop hkeyword hopening (h.written_initializer his)
    (writtenOptional_of_rel rfl h.condition) hsemicolon (writtenOptional_of_rel rfl h.increment)
    hclosing hbody
  exact reads_statement_iff.mpr ⟨_, isOpen, rfl, hwritten, hrest⟩

/-- The body with the increment, in a block if there is one. -/
theorem written_round (h : c.Read f rest initializer condition increment body)
    (hts : Unparses c.round ts) :
    ∃ isOpen, (Clause.statement f isOpen (.forRound body increment)).Written ts := by
  obtain ⟨isOpen, hbody, -⟩ := h.written_body
  have hrel := h.increment
  unfold round at hts
  generalize c.increment = tokens at hrel hts
  cases hrel with
  | none =>
      rw [unparses_kept.mp hts]
      exact ⟨isOpen, hbody⟩
  | @some ns e hread =>
      obtain ⟨opening, _, rfl, hopening, hmore⟩ := hts.cons_inv
      obtain ⟨us, _, rfl, hus, hmore⟩ := hmore.append_inv
      obtain ⟨ns', _, rfl, hns, hmore⟩ := hmore.append_inv
      obtain ⟨semicolon, _, rfl, hsemicolon, hmore⟩ := hmore.cons_inv
      obtain ⟨closing, rfl, hclosing⟩ := hmore.single_inv
      rw [unparses_kept.mp hus, unparses_kept.mp hns]
      -- The increment as a statement, and behind it nothing.
      have hlast : (Clause.declarations f [.expression e]).Written ((ns ++ [semicolon]) ++ []) :=
        .cons (.statement (.expression (written_of_readsBefore rfl hread) hsemicolon)) .nil
      have hblock := Clause.Written.block hopening (.cons (.statement hbody) hlast) hclosing
      rw [List.append_nil, List.append_assoc, List.append_assoc] at hblock
      exact ⟨false, hblock⟩

/-- The `while` loop. -/
theorem written_loop (h : c.Read f rest initializer condition increment body)
    (hts : Unparses c.loop ts) :
    ∃ isOpen, (Clause.statement f isOpen
      (.forLoop none condition increment body)).Written ts := by
  obtain ⟨keyword, _, rfl, hkeyword, hmore⟩ := hts.cons_inv
  obtain ⟨opening, _, rfl, hopening, hmore⟩ := hmore.cons_inv
  obtain ⟨cs, _, rfl, hcs, hmore⟩ := hmore.append_inv
  obtain ⟨closing, us, rfl, hclosing, hus⟩ := hmore.cons_inv
  obtain ⟨isOpen, hround⟩ := h.written_round hus
  have hcondition : (Phrase.expression (condition.getD (.literal (.bool true)))).Written cs := by
    have hrel := h.condition
    generalize c.condition = tokens at hrel hcs
    cases hrel with
    | none => exact written_expression_iff.mpr ⟨trivial, hcs⟩
    | some hread =>
        rw [unparses_kept.mp hcs]
        exact written_of_readsBefore rfl hread
  rw [Stmt.forLoop_none]
  exact ⟨isOpen, .loop hkeyword hopening hcondition hclosing hround⟩

/-- As it is documented. -/
theorem written_while (h : c.Read f rest initializer condition increment body)
    (hts : Unparses c.asWhile ts) :
    ∃ isOpen, (Clause.statement f isOpen
      (.forLoop initializer condition increment body)).Written ts := by
  have hrel := h.initializer
  unfold asWhile at hts
  generalize c.initializer = tokens at hrel hts
  cases hrel with
  | none => exact h.written_loop hts
  | @some is s hread =>
      obtain ⟨opening, _, rfl, hopening, hmore⟩ := hts.cons_inv
      obtain ⟨is', _, rfl, his, hmore⟩ := hmore.append_inv
      obtain ⟨ws, _, rfl, hws, hmore⟩ := hmore.append_inv
      obtain ⟨closing, rfl, hclosing⟩ := hmore.single_inv
      rw [unparses_kept.mp his]
      obtain ⟨isOpen, hloop⟩ := h.written_loop hws
      have hfirst : (Clause.declaration f s).Written is := by
        cases written_of_reads_initializer hread with
        | var hkeyword hs => exact .var hkeyword hs
        | expression he hend => exact .statement (.expression he hend)
      have hblock := Clause.Written.block hopening
        (.cons hfirst (.cons (.statement hloop) .nil)) hclosing
      rw [List.append_nil, List.append_assoc] at hblock
      exact ⟨false, hblock⟩

/-- The tree is made of the tokens of the clauses and of the body. -/
theorem madeOf {P : Token → Prop} (h : c.Read f rest initializer condition increment body)
    (hall : ∀ t ∈ c.all, P t) :
    MadeOf P (Stmt.forLoop initializer condition increment body).pieces := by
  simp only [all, List.forall_mem_append] at hall
  obtain ⟨his, hcs, hns, hus⟩ := hall
  obtain ⟨_, hbody, -⟩ := h.written_body
  refine Stmt.madeOf_forLoop ?_ ((writtenOptional_of_rel rfl h.condition).madeOf hcs)
    ((writtenOptional_of_rel rfl h.increment).madeOf hns) (hbody.madeOf hus)
  have hrel := h.initializer
  generalize c.initializer = tokens at hrel his
  cases hrel with
  | none => exact fun _ hmem => by cases hmem
  | some hread => exact (written_of_reads_initializer hread).madeOf his

end Read

/-- Whatever `for` loop is read, it is read from clauses and a body that are read. -/
theorem exists_read {f : Bool} {keyword : Token} {tokens rest : List Token} {s : Stmt}
    (hkeyword : keyword.kind = .keyword .for_)
    (hread : (statement f).Reads (keyword :: tokens) s rest) :
    ∃ (c : ForTokens) (ts : List Token) (initializer : Option Stmt)
      (condition increment : Option Expr) (body : Stmt), keyword :: tokens = ts ++ rest ∧
      Unparses c.asFor ts ∧ c.Read f rest initializer condition increment body ∧
      s = .forLoop initializer condition increment body := by
  rw [reads_statement_cons, reads_statementOf_cons] at hread
  simp only [hkeyword] at hread
  obtain ⟨opening, is, initializer, condition, cs, semicolon, increment, ns, closing, mid, body,
    rfl, hopening, hi, hc, hsemicolon, hn, hclosing, hbody, rfl⟩ := reads_forStatement.mp hread
  obtain ⟨us, _, rfl, -⟩ := reads_statement_iff.mp hbody
  obtain ⟨cs, rfl, hcs⟩ := rel_of_writtenOptional .semicolon rfl hc
  obtain ⟨ns, rfl, hns⟩ := rel_of_writtenOptional .rightParen rfl hn
  have hinitializer : ∃ tokens : Option (List Token),
      Option.Rel (fun ts s => forInitializer.Reads ts (some s) []) tokens initializer ∧
      Unparses ((tokens.map kept).getD [.symbol .semicolon]) is := by
    have hreads : forInitializer.Reads is initializer [] :=
      reads_forInitializer.mpr ⟨is, (List.append_nil is).symm, hi⟩
    cases hi with
    | none hend => exact ⟨none, .none, .single hend⟩
    | var | expression => exact ⟨some _, .some hreads, unparses_kept.mpr rfl⟩
  obtain ⟨tokens, hrel, his⟩ := hinitializer
  refine ⟨⟨tokens, cs, ns, us⟩,
    keyword :: opening :: (is ++ (cs.getD [] ++ semicolon :: (ns.getD [] ++ closing :: us))),
    initializer, condition, increment, body, by simp, ?_, ⟨hrel, hcs, hns, hbody⟩, rfl⟩
  exact .cons hkeyword (.cons hopening (.append his (.append (unparses_kept.mpr rfl)
    (.cons hsemicolon (.append (unparses_kept.mpr rfl)
      (.cons hclosing (unparses_kept.mpr rfl)))))))

end ForTokens

/-- **A `for` loop is its documented desugaring.**  Clauses and a body that are read without a
fault make a `for` loop that is, and so does the loop without `for`; both are read as one tree,
which is equal to itself if the tokens are, and so if they come from sources. -/
theorem for_reads_as_while {c : ForTokens} {f : Bool} {rest ts us : List Token}
    {initializer : Option Stmt} {condition increment : Option Expr} {body : Stmt}
    (h : c.Read f rest initializer condition increment body)
    (hrest : nextKind? rest ≠ some (.keyword .else_)) (hts : Unparses c.asFor ts)
    (hus : Unparses c.asWhile us) :
    ∃ s, (statement f).Reads (ts ++ rest) s rest ∧ (statement f).Reads (us ++ rest) s rest ∧
      ((∀ t ∈ c.all, t.SelfSame) → s.same s = true) ∧
      ((∀ t ∈ c.all, t.Scanned) → s.same s = true) := by
  obtain ⟨isOpen, hwhile⟩ := h.written_while hus
  have hsame (hall : ∀ t ∈ c.all, t.SelfSame) :
      (Stmt.forLoop initializer condition increment body).same
        (.forLoop initializer condition increment body) = true :=
    Stmt.same_self _ (h.madeOf hall)
  refine ⟨.forLoop initializer condition increment body, h.reads_for hts, ?_, hsame, fun hall => ?_⟩
  · exact reads_statement_iff.mpr ⟨us, isOpen, rfl, hwhile, fun _ => hrest⟩
  · exact hsame fun t ht => (hall t ht).selfSame

/-- `for (var i = nil; i; i) if (i) print i;` and the loop without `for`, in a function. -/
theorem for_reads_as_while_sample :
    let i : Token := ⟨.identifier, "i", 2⟩
    let symbol (s : Symbol) : Token := ⟨.symbol s, s.text, 1⟩
    let keyword (k : Keyword) : Token := ⟨.keyword k, k.text, 1⟩
    let start := [keyword .var_, i, symbol .equal, keyword .nil_, symbol .semicolon]
    let body := [keyword .if_, symbol .leftParen, i, symbol .rightParen, keyword .print_, i,
      symbol .semicolon]
    let ts := [keyword .for_, symbol .leftParen] ++ start ++ [i, symbol .semicolon, i,
      symbol .rightParen] ++ body
    let us := [symbol .leftBrace] ++ start ++ [keyword .while_, symbol .leftParen, i,
      symbol .rightParen, symbol .leftBrace] ++ body ++ [i, symbol .semicolon, symbol .rightBrace,
      symbol .rightBrace]
    ∃ s, (statement true).Reads ts s [] ∧ (statement true).Reads us s [] ∧ s.same s = true := by
  intro i symbol keyword start body ts us
  let c : ForTokens := ⟨some start, some [i], some [i], body⟩
  have hend : nextKind? [] ≠ some (.keyword .else_) := by simp
  have hi : (Phrase.expression (.var i)).Written [i] :=
    written_expression_iff.mpr ⟨rfl, .single rfl⟩
  have hnil : (Phrase.expression (.literal .nil)).Written [keyword .nil_] :=
    written_expression_iff.mpr ⟨trivial, .single rfl⟩
  have hstart : WrittenInitializer (some (.var i (some (.literal .nil)))) start :=
    .var rfl (.initialized rfl rfl hnil rfl)
  have hbody : (Clause.statement true true (.conditional (.var i) (.print (.var i)) none)).Written
      body := .conditional rfl rfl hi rfl (.print rfl hi rfl)
  have hread : c.Read true [] (some (.var i (some (.literal .nil)))) (some (.var i)) (some (.var i))
      (.conditional (.var i) (.print (.var i)) none) :=
    ⟨.some (reads_forInitializer.mpr ⟨start, rfl, hstart⟩),
      .some (ForTokens.readsBefore_of_written rfl hi),
      .some (ForTokens.readsBefore_of_written rfl hi),
      reads_statement_iff.mpr ⟨body, true, rfl, hbody, fun _ => hend⟩⟩
  have hts : Unparses c.asFor ts := by
    repeat' first | exact .nil | refine .cons rfl ?_
  have hus : Unparses c.asWhile us := by
    repeat' first | exact .nil | refine .cons rfl ?_
  have hscanned : ∀ t ∈ c.all, .ok t ∈ scan "var = nil; if () print ;\ni" := by decide +kernel
  obtain ⟨s, hfor, hwhile, -, hsame⟩ := for_reads_as_while hread hend hts hus
  exact ⟨s, hfor, hwhile, hsame fun t ht => ⟨_, hscanned t ht⟩⟩

end Lox
