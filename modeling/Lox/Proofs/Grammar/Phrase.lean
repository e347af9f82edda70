/-
How expressions are written.

The parser is a procedure; here is what it decides, as a relation between tokens
and trees.  `Phrase.Written` has one rule for each alternative of the grammar of
expressions, and says which tree each of them makes.  Operators of one level group
from the left by the shape of the rules: what stands left of an operator is again
of its level, and what stands right of it is tighter.

The relation knows nothing of lookahead.  It is unambiguous all the same, and
`Expressions` shows that the parser reads a tree from tokens exactly where the
tokens are a way to write it.
-/
import Lox.Proofs.Grammar.Reads

namespace Lox

open Lox.Parser

/-- What tokens can be read as inside a statement. -/
inductive Phrase where
  | expression (e : Expr)
  /-- Operations of these levels. -/
  | operation (levels : List Level) (e : Expr)
  | unary (e : Expr)
  | call (e : Expr)
  | primary (e : Expr)
  | arguments (es : List Expr)
  /-- The arguments after the first, each behind a comma. -/
  | moreArguments (es : List Expr)

namespace Phrase

/-- The tokens are a way to write the phrase. -/
inductive Written : Phrase → List Token → Prop where
  | assign {name equals : Token} {value : Expr} {ts : List Token}
      (hname : name.kind = .identifier) (hequals : equals.kind = .symbol .equal)
      (hvalue : Written (.expression value) ts) :
      Written (.expression (.assign name value)) (name :: equals :: ts)
  | operation {e : Expr} {ts : List Token} (h : Written (.operation levels e) ts) :
      Written (.expression e) ts
  | operand {level : Level} {tighter : List Level} {e : Expr} {ts : List Token}
      (h : Written (.operation tighter e) ts) : Written (.operation (level :: tighter) e) ts
  | join {level : Level} {tighter : List Level} {l r : Expr} {op : Token} {ls rs : List Token}
      (hlevel : level :: tighter <:+ levels) (hl : Written (.operation (level :: tighter) l) ls)
      (hop : op.kind ∈ level.operators) (hr : Written (.operation tighter r) rs) :
      Written (.operation (level :: tighter) (level.node l op r)) (ls ++ op :: rs)
  | unary {e : Expr} {ts : List Token} (h : Written (.unary e) ts) :
      Written (.operation [] e) ts
  | operator {op : Token} {e : Expr} {ts : List Token} (hop : op.kind ∈ unaryOperators)
      (h : Written (.unary e) ts) : Written (.unary (.unary op e)) (op :: ts)
  | call {e : Expr} {ts : List Token} (h : Written (.call e) ts) : Written (.unary e) ts
  | apply {callee : Expr} {opening closing : Token} {es : List Expr} {ts as : List Token}
      (hcallee : Written (.call callee) ts) (hopening : opening.kind = .symbol .leftParen)
      (harguments : Written (.arguments es) as) (hcount : es.length ≤ maxArity)
      (hclosing : closing.kind = .symbol .rightParen) :
      Written (.call (.call callee closing es)) (ts ++ opening :: (as ++ [closing]))
  | primary {e : Expr} {ts : List Token} (h : Written (.primary e) ts) : Written (.call e) ts
  | atom {token : Token} {e : Expr} (h : atom? token = some e) : Written (.primary e) [token]
  | grouping {e : Expr} {opening closing : Token} {ts : List Token}
      (hopening : opening.kind = .symbol .leftParen) (h : Written (.expression e) ts)
      (hclosing : closing.kind = .symbol .rightParen) :
      Written (.primary (.grouping e)) (opening :: (ts ++ [closing]))
  | noArguments : Written (.arguments []) []
  | arguments {e : Expr} {es : List Expr} {ts us : List Token} (h : Written (.expression e) ts)
      (hmore : Written (.moreArguments es) us) : Written (.arguments (e :: es)) (ts ++ us)
  | noMore : Written (.moreArguments []) []
  | more {comma : Token} {e : Expr} {es : List Expr} {ts us : List Token}
      (hcomma : comma.kind = .symbol .comma) (h : Written (.expression e) ts)
      (hmore : Written (.moreArguments es) us) :
      Written (.moreArguments (e :: es)) (comma :: (ts ++ us))

/-! ### Levels -/

/-- The levels of operators and those tighter than each. -/
theorem mem_levels {level : Level} {tighter : List Level} (h : level :: tighter <:+ levels) :
    level ∈ levels := h.subset List.mem_cons_self

/-- An operator is of one level only, and opens no call. -/
theorem not_tighter {level : Level} {tighter : List Level} (h : level :: tighter <:+ levels)
    {kind : Token.Kind} (hkind : kind ∈ level.operators) :
    kind ≠ .symbol .leftParen ∧ ∀ other ∈ tighter, kind ∉ other.operators := by
  simp only [levels, List.suffix_cons_iff, List.suffix_nil, List.cons.injEq, reduceCtorEq,
    or_false] at h
  rcases h with ⟨rfl, rfl⟩ | ⟨rfl, rfl⟩ | ⟨rfl, rfl⟩ | ⟨rfl, rfl⟩ | ⟨rfl, rfl⟩ | ⟨rfl, rfl⟩ <;>
    simp only [List.mem_cons, List.not_mem_nil, or_false] at hkind <;>
    rcases hkind with rfl | rfl | rfl | rfl <;> simp

/-- Operators of the levels make operations, between two operands. -/
theorem node_of_mem {level : Level} (h : level ∈ levels) :
    level.node = .logical ∨ level.node = .binary := by
  simp only [levels, List.mem_cons, List.not_mem_nil, or_false] at h
  rcases h with rfl | rfl | rfl | rfl | rfl | rfl <;> simp

theorem operators_ne_endOfFile {level : Level} (h : level ∈ levels) :
    .endOfFile ∉ level.operators := by
  simp only [levels, List.mem_cons, List.not_mem_nil, or_false] at h
  rcases h with rfl | rfl | rfl | rfl | rfl | rfl <;> simp

/-! ### First tokens

The relation knows nothing of lookahead, and the parser decides by it.  What links the
two is which tokens a phrase can start with: a call does not start with an operator in
front of its operand, and an argument does not start with the parenthesis that closes
them.
-/

/-- Can an expression start with a token of this kind? -/
def startsExpression : Token.Kind → Bool
  | .keyword .true_ | .keyword .false_ | .keyword .nil_ | .number _ | .string _ | .identifier
  | .symbol .leftParen | .symbol .bang | .symbol .minus => true
  | _ => false

/-- The tokens start as an expression does. -/
def StartsExpression (ts : List Token) : Prop :=
  ∃ token more, ts = token :: more ∧ startsExpression token.kind = true

theorem StartsExpression.append {ts : List Token} (h : StartsExpression ts) (us : List Token) :
    StartsExpression (ts ++ us) := by
  obtain ⟨token, more, rfl, hkind⟩ := h
  exact ⟨token, more ++ us, rfl, hkind⟩

theorem StartsExpression.nextKind?_ne {ts : List Token} (h : StartsExpression ts)
    {kind : Token.Kind} (hkind : startsExpression kind = false) : nextKind? ts ≠ some kind := by
  obtain ⟨token, more, rfl, hstart⟩ := h
  rw [nextKind?_cons]
  intro heq
  rw [Option.some.inj heq, hkind] at hstart
  exact Bool.noConfusion hstart

private theorem startsExpression_of_atom? {token : Token} {e : Expr} (h : atom? token = some e) :
    startsExpression token.kind = true := by
  unfold atom? at h
  split at h <;> first | contradiction | simp [startsExpression, *]

/-- Every phrase but a list of arguments starts as an expression does. -/
theorem Written.starts {p : Phrase} {ts : List Token} (h : p.Written ts) :
    match p with
    | .arguments _ | .moreArguments _ => True
    | _ => StartsExpression ts := by
  induction h with
  | assign hname => exact ⟨_, _, rfl, by simp [startsExpression, hname]⟩
  | operation h ih | operand h ih | unary h ih | call h ih | primary h ih => exact ih
  | join hlevel hl hop hr ihl => exact ihl.append _
  | @operator op e ts hop =>
      refine ⟨_, _, rfl, ?_⟩
      simp only [unaryOperators, List.mem_cons, List.not_mem_nil, or_false] at hop
      rcases hop with hop | hop <;> simp [startsExpression, hop]
  | apply hcallee hopening harguments hcount hclosing ihcallee => exact ihcallee.append _
  | atom h => exact ⟨_, _, rfl, startsExpression_of_atom? h⟩
  | grouping hopening => exact ⟨_, _, rfl, by simp [startsExpression, hopening]⟩
  | noArguments | arguments | noMore | more => trivial

private theorem operator_ne_of_atom? {token : Token} {e : Expr} (h : atom? token = some e) :
    token.kind ∉ unaryOperators := by
  simp only [unaryOperators, List.mem_cons, List.not_mem_nil, or_false]
  rintro (hkind | hkind) <;> simp [atom?, hkind] at h

/-- A call starts with no operator. -/
theorem Written.starts_call {p : Phrase} {ts : List Token} (h : p.Written ts) :
    match p with
    | .call _ | .primary _ => ∃ token more, ts = token :: more ∧ token.kind ∉ unaryOperators
    | _ => True := by
  induction h with
  | apply hcallee hopening harguments hcount hclosing ihcallee =>
      obtain ⟨token, more, rfl, hkind⟩ := ihcallee
      exact ⟨token, _, rfl, hkind⟩
  | primary h ih => exact ih
  | atom h => exact ⟨_, _, rfl, operator_ne_of_atom? h⟩
  | grouping hopening => exact ⟨_, _, rfl, by simp [unaryOperators, hopening]⟩
  | _ => trivial

/-- No phrase holds an end mark. -/
theorem Written.isEnd_eq_false {p : Phrase} {ts : List Token} (h : p.Written ts) :
    ∀ token ∈ ts, token.isEnd = false := by
  induction h with
  | assign hname hequals hvalue ih => simp_all [Token.isEnd]
  | operation h ih | operand h ih | unary h ih | call h ih | primary h ih => exact ih
  | @join level tighter l r op ls rs hlevel hl hop hr ihl ihr =>
      have hend : op.isEnd = false := by
        simp only [Token.isEnd, decide_eq_false_iff_not]
        intro heq
        exact operators_ne_endOfFile (mem_levels hlevel) (heq ▸ hop)
      simp only [List.mem_append, List.mem_cons]
      rintro token (h | rfl | h)
      · exact ihl token h
      · exact hend
      · exact ihr token h
  | operator hop h ih =>
      simp only [unaryOperators, List.mem_cons, List.not_mem_nil, or_false] at hop
      rcases hop with hop | hop <;> simp_all [Token.isEnd]
  | apply hcallee hopening harguments hcount hclosing ihcallee iharguments =>
      simp only [List.mem_append, List.mem_cons, List.not_mem_nil, or_false]
      rintro token (h | rfl | h | rfl)
      · exact ihcallee token h
      · simp [Token.isEnd, hopening]
      · exact iharguments token h
      · simp [Token.isEnd, hclosing]
  | atom h => simpa using Composed.isEnd_of_atom? h
  | grouping hopening h hclosing ih =>
      simp only [List.mem_append, List.mem_cons, List.not_mem_nil, or_false]
      rintro token (rfl | h | rfl)
      · simp [Token.isEnd, hopening]
      · exact ih token h
      · simp [Token.isEnd, hclosing]
  | noArguments | noMore => simp
  | arguments h hmore ih ihmore =>
      simp only [List.mem_append]
      rintro token (h | h)
      · exact ih token h
      · exact ihmore token h
  | more hcomma h hmore ih ihmore =>
      simp only [List.mem_cons, List.mem_append]
      rintro token (rfl | h | h)
      · simp [Token.isEnd, hcomma]
      · exact ih token h
      · exact ihmore token h

/-! ### Variables -/

private theorem kind_of_atom?_var {token name : Token} (h : atom? token = some (.var name)) :
    token = name ∧ name.kind = .identifier := by
  unfold atom? at h
  split at h <;> simp_all

/-- A variable is written as its name. -/
theorem Written.of_var {p : Phrase} {ts : List Token} (h : p.Written ts) (name : Token) :
    match p with
    | .operation _ e | .unary e | .call e | .primary e =>
        e = .var name → ts = [name] ∧ name.kind = .identifier
    | _ => True := by
  induction h with
  | operand h ih | unary h ih | call h ih | primary h ih => exact ih
  | join hlevel =>
      intro he
      rcases node_of_mem (mem_levels hlevel) with hnode | hnode <;> simp [hnode] at he
  | operator | apply | grouping => exact fun he => nomatch he
  | atom h =>
      rintro rfl
      obtain ⟨rfl, hkind⟩ := kind_of_atom?_var h
      exact ⟨rfl, hkind⟩
  | assign | operation | noArguments | arguments | noMore | more => trivial

end Phrase

end Lox
