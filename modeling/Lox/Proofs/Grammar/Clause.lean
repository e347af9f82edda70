/-
How statements and declarations are written.

As `Phrase` does for expressions, `Clause.Written` says of tokens and trees what
the grammar allows, one rule for each alternative.  A `for` loop has a rule of its
own, whose tree is the one the loop stands for.

The dangling `else` is settled in the rules.  A statement is open if it ends in an
`if` without `else`, so that an `else` behind it would be part of it; only what is
not open may stand between `if` and `else`.  Whether a `return` is allowed is known
from outside: rules say if a function encloses what they are about.
-/
import Lox.Proofs.Grammar.Expressions

namespace Lox

open Lox.Parser

/-! ### Parts without statements inside -/

/-- How a variable's declaration is written behind `var`. -/
inductive WrittenVar : Stmt → List Token → Prop where
  | bare {name semicolon : Token} (hname : name.kind = .identifier)
      (hend : semicolon.kind = .symbol .semicolon) : WrittenVar (.var name none) [name, semicolon]
  | initialized {name equals semicolon : Token} {e : Expr} {ts : List Token}
      (hname : name.kind = .identifier) (hequals : equals.kind = .symbol .equal)
      (he : (Phrase.expression e).Written ts) (hend : semicolon.kind = .symbol .semicolon) :
      WrittenVar (.var name (some e)) (name :: equals :: (ts ++ [semicolon]))

/-- How an expression is written that may be missing. -/
inductive WrittenOptional : Option Expr → List Token → Prop where
  | none : WrittenOptional none []
  | some {e : Expr} {ts : List Token} (he : (Phrase.expression e).Written ts) :
      WrittenOptional (some e) ts

/-- How the start of a `for` loop is written, with its semicolon. -/
inductive WrittenInitializer : Option Stmt → List Token → Prop where
  | none {semicolon : Token} (hend : semicolon.kind = .symbol .semicolon) :
      WrittenInitializer none [semicolon]
  | var {keyword : Token} {s : Stmt} {ts : List Token} (hkeyword : keyword.kind = .keyword .var_)
      (hs : WrittenVar s ts) : WrittenInitializer (some s) (keyword :: ts)
  | expression {semicolon : Token} {e : Expr} {ts : List Token}
      (he : (Phrase.expression e).Written ts) (hend : semicolon.kind = .symbol .semicolon) :
      WrittenInitializer (some (.expression e)) (ts ++ [semicolon])

/-- How the parameters after the first are written. -/
inductive WrittenMoreParameters : List Token → List Token → Prop where
  | nil : WrittenMoreParameters [] []
  | cons {comma name : Token} {names ts : List Token} (hcomma : comma.kind = .symbol .comma)
      (hname : name.kind = .identifier) (hmore : WrittenMoreParameters names ts) :
      WrittenMoreParameters (name :: names) (comma :: name :: ts)

/-- How the parameters of a function are written. -/
inductive WrittenParameters : List Token → List Token → Prop where
  | nil : WrittenParameters [] []
  | cons {name : Token} {names ts : List Token} (hname : name.kind = .identifier)
      (hmore : WrittenMoreParameters names ts) : WrittenParameters (name :: names) (name :: ts)

/-! ### Statements and declarations -/

/-- What tokens can be read as outside of expressions. -/
inductive Clause where
  | statement (insideFunction isOpen : Bool) (s : Stmt)
  | declaration (insideFunction : Bool) (s : Stmt)
  | declarations (insideFunction : Bool) (ss : List Stmt)

namespace Clause

/-- The tokens are a way to write the clause. -/
inductive Written : Clause → List Token → Prop where
  | expression {f : Bool} {e : Expr} {semicolon : Token} {ts : List Token}
      (he : (Phrase.expression e).Written ts) (hend : semicolon.kind = .symbol .semicolon) :
      Written (.statement f false (.expression e)) (ts ++ [semicolon])
  | print {f : Bool} {e : Expr} {keyword semicolon : Token} {ts : List Token}
      (hkeyword : keyword.kind = .keyword .print_) (he : (Phrase.expression e).Written ts)
      (hend : semicolon.kind = .symbol .semicolon) :
      Written (.statement f false (.print e)) (keyword :: (ts ++ [semicolon]))
  | return_ {value : Option Expr} {keyword semicolon : Token} {ts : List Token}
      (hkeyword : keyword.kind = .keyword .return_) (hvalue : WrittenOptional value ts)
      (hend : semicolon.kind = .symbol .semicolon) :
      Written (.statement true false (.return_ keyword value)) (keyword :: (ts ++ [semicolon]))
  | loop {f isOpen : Bool} {condition : Expr} {body : Stmt} {keyword opening closing : Token}
      {ts us : List Token} (hkeyword : keyword.kind = .keyword .while_)
      (hopening : opening.kind = .symbol .leftParen)
      (hcondition : (Phrase.expression condition).Written ts)
      (hclosing : closing.kind = .symbol .rightParen)
      (hbody : Written (.statement f isOpen body) us) :
      Written (.statement f isOpen (.loop condition body))
        (keyword :: opening :: (ts ++ closing :: us))
  | forLoop {f isOpen : Bool} {initializer : Option Stmt} {condition increment : Option Expr}
      {body : Stmt} {keyword opening semicolon closing : Token} {is cs ns us : List Token}
      (hkeyword : keyword.kind = .keyword .for_) (hopening : opening.kind = .symbol .leftParen)
      (hinitializer : WrittenInitializer initializer is)
      (hcondition : WrittenOptional condition cs)
      (hsemicolon : semicolon.kind = .symbol .semicolon)
      (hincrement : WrittenOptional increment ns)
      (hclosing : closing.kind = .symbol .rightParen)
      (hbody : Written (.statement f isOpen body) us) :
      Written (.statement f isOpen (.forLoop initializer condition increment body))
        (keyword :: opening :: (is ++ (cs ++ semicolon :: (ns ++ closing :: us))))
  | conditional {f isOpen : Bool} {condition : Expr} {thenBranch : Stmt}
      {keyword opening closing : Token} {ts us : List Token}
      (hkeyword : keyword.kind = .keyword .if_) (hopening : opening.kind = .symbol .leftParen)
      (hcondition : (Phrase.expression condition).Written ts)
      (hclosing : closing.kind = .symbol .rightParen)
      (hthen : Written (.statement f isOpen thenBranch) us) :
      Written (.statement f true (.conditional condition thenBranch none))
        (keyword :: opening :: (ts ++ closing :: us))
  | choice {f isOpen : Bool} {condition : Expr} {thenBranch elseBranch : Stmt}
      {keyword opening closing divider : Token} {ts us vs : List Token}
      (hkeyword : keyword.kind = .keyword .if_) (hopening : opening.kind = .symbol .leftParen)
      (hcondition : (Phrase.expression condition).Written ts)
      (hclosing : closing.kind = .symbol .rightParen)
      (hthen : Written (.statement f false thenBranch) us)
      (hdivider : divider.kind = .keyword .else_)
      (helse : Written (.statement f isOpen elseBranch) vs) :
      Written (.statement f isOpen (.conditional condition thenBranch (some elseBranch)))
        (keyword :: opening :: (ts ++ closing :: (us ++ divider :: vs)))
  | block {f : Bool} {body : List Stmt} {opening closing : Token} {ts : List Token}
      (hopening : opening.kind = .symbol .leftBrace) (hbody : Written (.declarations f body) ts)
      (hclosing : closing.kind = .symbol .rightBrace) :
      Written (.statement f false (.block body)) (opening :: (ts ++ [closing]))
  | function {f : Bool} {name : Token} {params : List Token} {body : List Stmt}
      {keyword opening closing left right : Token} {ps ts : List Token}
      (hkeyword : keyword.kind = .keyword .fun_) (hname : name.kind = .identifier)
      (hopening : opening.kind = .symbol .leftParen) (hparams : WrittenParameters params ps)
      (hcount : params.length ≤ maxArity) (hclosing : closing.kind = .symbol .rightParen)
      (hleft : left.kind = .symbol .leftBrace) (hbody : Written (.declarations true body) ts)
      (hright : right.kind = .symbol .rightBrace) :
      Written (.declaration f (.function name params body))
        (keyword :: name :: opening :: (ps ++ closing :: left :: (ts ++ [right])))
  | var {f : Bool} {s : Stmt} {keyword : Token} {ts : List Token}
      (hkeyword : keyword.kind = .keyword .var_) (hs : WrittenVar s ts) :
      Written (.declaration f s) (keyword :: ts)
  | statement {f isOpen : Bool} {s : Stmt} {ts : List Token}
      (hs : Written (.statement f isOpen s) ts) : Written (.declaration f s) ts
  | nil {f : Bool} : Written (.declarations f []) []
  | cons {f : Bool} {s : Stmt} {ss : List Stmt} {ts us : List Token}
      (hs : Written (.declaration f s) ts) (hss : Written (.declarations f ss) us) :
      Written (.declarations f (s :: ss)) (ts ++ us)

/-! ### First tokens

A list of declarations goes on as long as its next token does not stop it.  It goes on
over a declaration that is written, since none starts with a brace that closes or with
an end mark.
-/

/-- Can a declaration start with a token of this kind? -/
def startsDeclaration : Token.Kind → Bool
  | .keyword .fun_ | .keyword .var_ | .keyword .for_ | .keyword .if_ | .keyword .print_
  | .keyword .return_ | .keyword .while_ | .symbol .leftBrace => true
  | kind => Phrase.startsExpression kind

/-- The tokens start as a declaration does. -/
def StartsDeclaration (ts : List Token) : Prop :=
  ∃ token more, ts = token :: more ∧ startsDeclaration token.kind = true

theorem StartsDeclaration.append {ts : List Token} (h : StartsDeclaration ts)
    (us : List Token) : StartsDeclaration (ts ++ us) := by
  obtain ⟨token, more, rfl, hkind⟩ := h
  exact ⟨token, more ++ us, rfl, hkind⟩

theorem StartsDeclaration.ne_nil {ts : List Token} (h : StartsDeclaration ts) : ts ≠ [] := by
  obtain ⟨token, more, rfl, -⟩ := h
  exact List.cons_ne_nil token more

theorem StartsDeclaration.nextKind?_ne {ts : List Token} (h : StartsDeclaration ts)
    {kind : Token.Kind} (hkind : startsDeclaration kind = false) : nextKind? ts ≠ some kind := by
  obtain ⟨token, more, rfl, hstart⟩ := h
  rw [nextKind?_cons]
  intro heq
  rw [Option.some.inj heq, hkind] at hstart
  exact Bool.noConfusion hstart

theorem startsDeclaration_of_expression {kind : Token.Kind}
    (h : Phrase.startsExpression kind = true) : startsDeclaration kind = true := by
  unfold startsDeclaration
  split <;> first | rfl | exact h

private theorem startsDeclaration_of_startsExpression {ts : List Token}
    (h : Phrase.StartsExpression ts) : StartsDeclaration ts := by
  obtain ⟨token, more, rfl, hkind⟩ := h
  exact ⟨token, more, rfl, startsDeclaration_of_expression hkind⟩

/-- What starts with one of these keywords or with a brace starts as a declaration does. -/
theorem startsDeclaration_cons {token : Token} {more : List Token} {kind : Token.Kind}
    (h : token.kind = kind) (hkind : startsDeclaration kind = true) :
    StartsDeclaration (token :: more) :=
  ⟨token, more, rfl, by rw [h, hkind]⟩

/-- Statements and declarations start as declarations do. -/
theorem Written.starts {c : Clause} {ts : List Token} (h : c.Written ts) :
    match c with
    | .declarations _ _ => True
    | _ => StartsDeclaration ts := by
  induction h with
  | expression he => exact (startsDeclaration_of_startsExpression he.starts).append _
  | print hkeyword | return_ hkeyword | loop hkeyword | forLoop hkeyword | conditional hkeyword
  | choice hkeyword | block hkeyword | function hkeyword | var hkeyword =>
      exact startsDeclaration_cons hkeyword rfl
  | statement hs ih => exact ih
  | nil | cons => trivial

/-- A statement starts with neither of the keywords of a declaration. -/
theorem Written.startsStatement {f isOpen : Bool} {s : Stmt} {ts : List Token}
    (h : (Clause.statement f isOpen s).Written ts) :
    ∃ token more, ts = token :: more ∧
      token.kind ≠ .keyword .fun_ ∧ token.kind ≠ .keyword .var_ := by
  cases h with
  | expression he =>
      obtain ⟨token, more, rfl, hkind⟩ := he.starts
      refine ⟨token, _, rfl, ?_, ?_⟩ <;> intro heq <;> rw [heq] at hkind <;> exact nomatch hkind
  | print hkeyword | return_ hkeyword | loop hkeyword | forLoop hkeyword | conditional hkeyword
  | choice hkeyword | block hkeyword => exact ⟨_, _, rfl, by simp [hkeyword]⟩

end Clause

/-! ### End marks -/

theorem WrittenVar.isEnd_eq_false {s : Stmt} {ts : List Token} (h : WrittenVar s ts) :
    ∀ token ∈ ts, token.isEnd = false := by
  cases h with
  | bare hname hend => simp [Token.isEnd, hname, hend]
  | initialized hname hequals he hend =>
      have := he.isEnd_eq_false
      simp_all [Token.isEnd, or_imp]

private theorem WrittenOptional.isEnd_eq_false {e : Option Expr} {ts : List Token}
    (h : WrittenOptional e ts) : ∀ token ∈ ts, token.isEnd = false := by
  cases h with
  | none => exact fun _ hmem => nomatch hmem
  | some he => exact he.isEnd_eq_false

private theorem WrittenInitializer.isEnd_eq_false {s : Option Stmt} {ts : List Token}
    (h : WrittenInitializer s ts) : ∀ token ∈ ts, token.isEnd = false := by
  cases h with
  | none hend => simp [Token.isEnd, hend]
  | var hkeyword hs =>
      have := hs.isEnd_eq_false
      simp_all [Token.isEnd]
  | expression he hend =>
      have := he.isEnd_eq_false
      simp_all [Token.isEnd, or_imp]

private theorem WrittenMoreParameters.isEnd_eq_false {names ts : List Token}
    (h : WrittenMoreParameters names ts) : ∀ token ∈ ts, token.isEnd = false := by
  induction h with
  | nil => exact fun _ hmem => nomatch hmem
  | cons hcomma hname hmore ih => simp_all [Token.isEnd]

private theorem WrittenParameters.isEnd_eq_false {names ts : List Token}
    (h : WrittenParameters names ts) : ∀ token ∈ ts, token.isEnd = false := by
  cases h with
  | nil => exact fun _ hmem => nomatch hmem
  | cons hname hmore =>
      have := hmore.isEnd_eq_false
      simp_all [Token.isEnd]

/-- No clause holds an end mark. -/
theorem Clause.Written.isEnd_eq_false {c : Clause} {ts : List Token} (h : c.Written ts) :
    ∀ token ∈ ts, token.isEnd = false := by
  induction h with
  | expression he hend | print hkeyword he hend =>
      have := he.isEnd_eq_false
      simp_all [Token.isEnd, or_imp]
  | return_ hkeyword hvalue hend =>
      have := hvalue.isEnd_eq_false
      simp_all [Token.isEnd, or_imp]
  | loop hkeyword hopening hcondition hclosing hbody ih
  | conditional hkeyword hopening hcondition hclosing hthen ih =>
      have := hcondition.isEnd_eq_false
      simp_all [Token.isEnd, or_imp]
  | forLoop hkeyword hopening hinitializer hcondition hsemicolon hincrement hclosing hbody ih =>
      have := hinitializer.isEnd_eq_false
      have := hcondition.isEnd_eq_false
      have := hincrement.isEnd_eq_false
      simp_all [Token.isEnd, or_imp]
  | choice hkeyword hopening hcondition hclosing hthen hdivider helse ihthen ihelse =>
      have := hcondition.isEnd_eq_false
      simp_all [Token.isEnd, or_imp]
  | block hopening hbody hclosing ih =>
      simp_all [Token.isEnd, or_imp]
  | function hkeyword hname hopening hparams hcount hclosing hleft hbody hright ih =>
      have := hparams.isEnd_eq_false
      simp_all [Token.isEnd, or_imp]
  | var hkeyword hs =>
      have := hs.isEnd_eq_false
      simp_all [Token.isEnd]
  | statement hs ih => exact ih
  | nil => simp
  | cons hs hss ih ihss => simp_all [or_imp]

/-! ### Declarations after declarations -/

/-- Declarations after declarations are declarations. -/
theorem Clause.Written.append {f : Bool} {ss rest : List Stmt} {ts us : List Token}
    (hts : (Clause.declarations f ss).Written ts) (hus : (Clause.declarations f rest).Written us) :
    (Clause.declarations f (ss ++ rest)).Written (ts ++ us) := by
  induction ss generalizing ts with
  | nil =>
      cases hts
      exact hus
  | cons s ss ih =>
      cases hts with
      | cons hs hss =>
          rw [List.append_assoc]
          exact .cons hs (ih hss)

/-- Declarations can be taken apart wherever one ends. -/
theorem Clause.Written.append_inv {f : Bool} {ss rest : List Stmt} {tokens : List Token}
    (h : (Clause.declarations f (ss ++ rest)).Written tokens) :
    ∃ ts us, tokens = ts ++ us ∧ (Clause.declarations f ss).Written ts ∧
      (Clause.declarations f rest).Written us := by
  induction ss generalizing tokens with
  | nil => exact ⟨[], tokens, rfl, .nil, h⟩
  | cons s ss ih =>
      cases h with
      | @cons _ _ _ vs _ hs hmore =>
          obtain ⟨ts, us, rfl, hss, hrest⟩ := ih hmore
          exact ⟨vs ++ ts, us, (List.append_assoc vs ts us).symm, .cons hs hss, hrest⟩

end Lox
