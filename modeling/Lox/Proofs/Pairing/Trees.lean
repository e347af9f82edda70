/-
Trees of the same form.

Two programs that differ in their layout only are parsed into trees that differ in
the tokens they keep, and each token of one stands where its counterpart stands in
the other.  Which token is whose counterpart is a `Pairing`; all that is asked of it
is that counterparts have one kind and one lexeme.

`Matches` relates the trees that parsing can give for two such programs.  It has no
case for what is never parsed: property access, `super` and `this`, and operators in
a place where they are none.  So a tree that matches itself is well formed, and one
pass over the parser and one over the evaluator show both what layout does not
change and what parsed programs never do.
-/
import Mathlib.Data.List.Forall2
import Lox.Evaluation
import Lox.Proofs.Grammar.Shape

namespace Lox

/-- Which tokens of two programs are counterparts. -/
structure Token.Pairing where
  /-- The tokens are counterparts. -/
  Pairs : Token → Token → Prop
  /-- The parser decides by kinds, and literals are in them. -/
  kind_eq : ∀ {t t' : Token}, Pairs t t' → t.kind = t'.kind
  /-- The evaluator looks names up by their lexemes. -/
  lexeme_eq : ∀ {t t' : Token}, Pairs t t' → t.lexeme = t'.lexeme

namespace Token.Pairing

/-- Every token is its own counterpart. -/
def identity : Pairing := ⟨Eq, congrArg kind, congrArg lexeme⟩

theorem identity_pairs (ts : List Token) : List.Forall₂ identity.Pairs ts ts :=
  List.forall₂_same.mpr fun _ _ => rfl

variable {R : Pairing} {t t' : Token}

theorem isEnd_eq (h : R.Pairs t t') : t.isEnd = t'.isEnd := by
  rw [isEnd, isEnd, R.kind_eq h]

end Token.Pairing

/-- Faults with one cause, at counterparts. -/
structure SyntaxFault.Matches (R : Token.Pairing) (f f' : SyntaxFault) : Prop where
  /-- The tokens at which the faults are reported are counterparts. -/
  token : R.Pairs f.token f'.token
  /-- The message is the same. -/
  cause : f.cause = f'.cause

/-! ### Expressions and statements -/

/-- Parsed expressions that are the same but for tokens, which are counterparts. -/
inductive Expr.Matches (R : Token.Pairing) : Expr → Expr → Prop where
  | assign {name name' : Token} {value value' : Expr} (hname : R.Pairs name name')
      (hvalue : Matches R value value') : Matches R (.assign name value) (.assign name' value')
  | binary {left left' right right' : Expr} {op op' : Token} (hleft : Matches R left left')
      (hop : R.Pairs op op') (hbinary : (binaryStrength? op.kind).isSome)
      (hright : Matches R right right') :
      Matches R (.binary left op right) (.binary left' op' right')
  | call {callee callee' : Expr} {paren paren' : Token} {arguments arguments' : List Expr}
      (hcallee : Matches R callee callee') (hparen : R.Pairs paren paren')
      (harguments : List.Forall₂ (Matches R) arguments arguments') :
      Matches R (.call callee paren arguments) (.call callee' paren' arguments')
  | grouping {inner inner' : Expr} (hinner : Matches R inner inner') :
      Matches R (.grouping inner) (.grouping inner')
  | literal (value : Literal) : Matches R (.literal value) (.literal value)
  | logical {left left' right right' : Expr} {op op' : Token} (hleft : Matches R left left')
      (hop : R.Pairs op op') (hlogical : (logicalStrength? op.kind).isSome)
      (hright : Matches R right right') :
      Matches R (.logical left op right) (.logical left' op' right')
  | unary {op op' : Token} {right right' : Expr} (hop : R.Pairs op op')
      (hunary : op.kind = .symbol .bang ∨ op.kind = .symbol .minus)
      (hright : Matches R right right') : Matches R (.unary op right) (.unary op' right')
  | var {name name' : Token} (hname : R.Pairs name name') : Matches R (.var name) (.var name')

/-- Parsed statements that are the same but for tokens, which are counterparts. -/
inductive Stmt.Matches (R : Token.Pairing) : Stmt → Stmt → Prop where
  | block {body body' : List Stmt} (hbody : List.Forall₂ (Matches R) body body') :
      Matches R (.block body) (.block body')
  | expression {value value' : Expr} (hvalue : value.Matches R value') :
      Matches R (.expression value) (.expression value')
  | function {name name' : Token} {params params' : List Token} {body body' : List Stmt}
      (hname : R.Pairs name name') (hparams : List.Forall₂ R.Pairs params params')
      (hbody : List.Forall₂ (Matches R) body body') :
      Matches R (.function name params body) (.function name' params' body')
  | conditional {condition condition' : Expr} {thenBranch thenBranch' : Stmt}
      {elseBranch elseBranch' : Option Stmt} (hcondition : condition.Matches R condition')
      (hthen : Matches R thenBranch thenBranch')
      (helse : Option.Rel (Matches R) elseBranch elseBranch') :
      Matches R (.conditional condition thenBranch elseBranch)
        (.conditional condition' thenBranch' elseBranch')
  | print {value value' : Expr} (hvalue : value.Matches R value') :
      Matches R (.print value) (.print value')
  | return_ {keyword keyword' : Token} {value value' : Option Expr}
      (hkeyword : R.Pairs keyword keyword') (hvalue : Option.Rel (Expr.Matches R) value value') :
      Matches R (.return_ keyword value) (.return_ keyword' value')
  | var {name name' : Token} {value value' : Option Expr} (hname : R.Pairs name name')
      (hvalue : Option.Rel (Expr.Matches R) value value') :
      Matches R (.var name value) (.var name' value')
  | loop {condition condition' : Expr} {body body' : Stmt}
      (hcondition : condition.Matches R condition') (hbody : Matches R body body') :
      Matches R (.loop condition body) (.loop condition' body')

/-- A `for` loop stands for the same statement in both programs. -/
theorem Stmt.Matches.forLoop {R : Token.Pairing} {initializer initializer' : Option Stmt}
    {condition condition' increment increment' : Option Expr} {body body' : Stmt}
    (hinitializer : Option.Rel (Stmt.Matches R) initializer initializer')
    (hcondition : Option.Rel (Expr.Matches R) condition condition')
    (hincrement : Option.Rel (Expr.Matches R) increment increment')
    (hbody : body.Matches R body') :
    (Stmt.forLoop initializer condition increment body).Matches R
      (Stmt.forLoop initializer' condition' increment' body') := by
  have htest : (condition.getD (.literal (.bool true))).Matches R
      (condition'.getD (.literal (.bool true))) := by
    cases hcondition with
    | none => exact .literal _
    | some h => exact h
  have hloop : (Stmt.forLoop none condition increment body).Matches R
      (Stmt.forLoop none condition' increment' body') := by
    refine .loop htest ?_
    cases hincrement with
    | none => exact hbody
    | some h => exact .block (.cons hbody (.cons (.expression h) .nil))
  cases hinitializer with
  | none => exact hloop
  | some h => exact .block (.cons h (.cons hloop .nil))

/-! ### Trees that match token for token

Lists of tokens that agree up to an end mark are parsed into trees that match in this
way, whatever lies behind the mark.  That such trees are equal says that nothing behind
it is seen.
-/

/-- An expression matches no other token for token. -/
theorem Expr.Matches.eq {e e' : Expr} (h : e.Matches .identity e') : e = e' := by
  refine @Expr.Matches.rec .identity (fun e e' _ => e = e') (fun es es' _ => es = es')
    ?assign ?binary ?call ?grouping ?literal ?logical ?unary ?var ?nil ?cons e e' h
  case assign => rintro name _ value _ rfl _ rfl; rfl
  case binary => rintro left _ right _ op _ _ rfl _ _ rfl rfl; rfl
  case call => rintro callee _ paren _ args _ _ rfl _ rfl rfl; rfl
  case grouping => rintro inner _ _ rfl; rfl
  case literal => intro value; rfl
  case logical => rintro left _ right _ op _ _ rfl _ _ rfl rfl; rfl
  case unary => rintro op _ right _ rfl _ _ rfl; rfl
  case var => rintro name _ rfl; rfl
  case nil => rfl
  case cons => rintro e _ es _ _ _ rfl rfl; rfl

theorem Expr.Matches.eq_of_rel {e e' : Option Expr}
    (h : Option.Rel (Expr.Matches .identity) e e') : e = e' := by
  cases h with
  | none => rfl
  | some h => rw [h.eq]

/-- A statement matches no other token for token. -/
theorem Stmt.Matches.eq {s s' : Stmt} (h : s.Matches .identity s') : s = s' := by
  refine @Stmt.Matches.rec .identity (fun s s' _ => s = s') (fun ss ss' _ => ss = ss')
    (fun s s' _ => s = s') ?block ?expression ?function ?conditional ?print ?returned ?var ?loop
    ?nil ?cons ?some ?none s s' h
  case block => rintro body _ _ rfl; rfl
  case expression => intro value value' hvalue; rw [hvalue.eq]
  case function =>
    rintro name _ params params' body _ rfl hparams _ rfl
    rw [show params = params' from List.forall₂_eq_eq_eq ▸ hparams]
  case conditional =>
    rintro condition condition' thenBranch _ elseBranch _ hcondition _ _ rfl rfl
    rw [hcondition.eq]
  case print => intro value value' hvalue; rw [hvalue.eq]
  case returned => rintro keyword _ value value' rfl hvalue; rw [Expr.Matches.eq_of_rel hvalue]
  case var => rintro name _ value value' rfl hvalue; rw [Expr.Matches.eq_of_rel hvalue]
  case loop => rintro condition condition' body _ hcondition _ rfl; rw [hcondition.eq]
  case nil => rfl
  case cons => rintro s _ ss _ _ _ rfl rfl; rfl
  case some => rintro s _ _ rfl; rfl
  case none => rfl

theorem SyntaxFault.Matches.eq {f f' : SyntaxFault} (h : f.Matches .identity f') : f = f' := by
  obtain ⟨token, cause⟩ := f
  obtain ⟨token', cause'⟩ := f'
  obtain ⟨rfl, rfl⟩ : token = token' ∧ cause = cause' := ⟨h.token, h.cause⟩
  rfl

end Lox
