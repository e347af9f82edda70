/-
Keywords that statements start with.

Some keywords stand at the start of a declaration or of a statement and nowhere else,
so an expression holds none of them.  A tree has as many statements that start with
one as there are such keywords among the tokens it is written with, whichever of the
ways to write it was taken: `for` and `while` count alike.  What is written with some
tokens is therefore not written with those that are left when such a keyword is skipped.
-/
import Lox.Proofs.Grammar.Barrier
import Lox.Proofs.Grammar.Clause

namespace Lox

open Lox.Parser

/-! ### Tokens of expressions -/

/-- All tokens of an expression can stand in one. -/
theorem Phrase.Written.inExpression {p : Phrase} {ts : List Token} (h : p.Written ts) :
    ∀ token ∈ ts, inExpression token.kind = true := by
  have of_kind {token : Token} {kind : Token.Kind} (hkind : token.kind = kind)
      (hin : Parser.inExpression kind = true) : Parser.inExpression token.kind = true := by
    rw [hkind, hin]
  induction h with
  | assign hname hequals hvalue ih =>
      exact List.forall_mem_cons.mpr ⟨of_kind hname rfl,
        List.forall_mem_cons.mpr ⟨of_kind hequals rfl, ih⟩⟩
  | operation h ih | operand h ih | unary h ih | call h ih | primary h ih => exact ih
  | join hlevel hl hop hr ihl ihr =>
      exact List.forall_mem_append.mpr ⟨ihl, List.forall_mem_cons.mpr
        ⟨inExpression_of_mem (mem_levels hlevel) hop, ihr⟩⟩
  | operator hop h ih =>
      exact List.forall_mem_cons.mpr ⟨inExpression_of_mem_unaryOperators hop, ih⟩
  | apply hcallee hopening harguments hcount hclosing ihcallee iharguments =>
      exact List.forall_mem_append.mpr ⟨ihcallee, List.forall_mem_cons.mpr
        ⟨of_kind hopening rfl, List.forall_mem_append.mpr
          ⟨iharguments, List.forall_mem_singleton.mpr (of_kind hclosing rfl)⟩⟩⟩
  | atom h => exact List.forall_mem_singleton.mpr (inExpression_of_atom? h)
  | grouping hopening h hclosing ih =>
      exact List.forall_mem_cons.mpr ⟨of_kind hopening rfl, List.forall_mem_append.mpr
        ⟨ih, List.forall_mem_singleton.mpr (of_kind hclosing rfl)⟩⟩
  | noArguments | noMore => exact fun _ hmem => absurd hmem List.not_mem_nil
  | arguments h hmore ih ihmore => exact List.forall_mem_append.mpr ⟨ih, ihmore⟩
  | more hcomma h hmore ih ihmore =>
      exact List.forall_mem_cons.mpr ⟨of_kind hcomma rfl, List.forall_mem_append.mpr ⟨ih, ihmore⟩⟩

/-! ### Counting on both sides

A `for` loop is made into a `while` loop, perhaps with a block around it and one inside.
For the count to be the same on both sides blocks count for nothing, and `for` and
`while` count alike.
-/

/-- Is this one of the keywords that stand only where a declaration or a statement starts, and that
trees do not keep? -/
def Token.opensStatement (token : Token) : Bool :=
  match token.kind with
  | .keyword .fun_ | .keyword .var_ | .keyword .for_ | .keyword .if_ | .keyword .while_
  | .keyword .print_ => true
  | _ => false

theorem Token.inExpression_of_opensStatement {token : Token} (h : token.opensStatement = true) :
    inExpression token.kind = false := by
  unfold opensStatement at h
  split at h <;> simp_all [inExpression]

theorem Token.ne_semicolon_of_opensStatement {token : Token} (h : token.opensStatement = true) :
    token.kind ≠ .symbol .semicolon := by
  unfold opensStatement at h
  split at h <;> simp_all

theorem Token.isEnd_of_opensStatement {token : Token} (h : token.opensStatement = true) :
    token.isEnd = false := by
  unfold opensStatement at h
  split at h <;> simp_all [isEnd]

/-- How many such keywords there are. -/
def Token.openings (ts : List Token) : Nat := ts.countP opensStatement

@[simp] theorem Token.openings_nil : openings [] = 0 := rfl

@[simp] theorem Token.openings_cons (token : Token) (ts : List Token) :
    openings (token :: ts) = openings ts + if token.opensStatement then 1 else 0 :=
  List.countP_cons

@[simp] theorem Token.openings_append (ts us : List Token) :
    openings (ts ++ us) = openings ts + openings us :=
  List.countP_append

namespace Stmt

mutual

/-- How many statements are written with such a keyword, among those in the statement and itself. -/
def openings : Stmt → Nat
  | block body => openingsList body
  | expression _ | return_ _ _ => 0
  | function _ _ body => openingsList body + 1
  | conditional _ thenBranch elseBranch => thenBranch.openings + openingsElse elseBranch + 1
  | print _ | var _ _ => 1
  | loop _ body => body.openings + 1

/-- How many there are among the statements and in them. -/
def openingsList : List Stmt → Nat
  | [] => 0
  | s :: ss => s.openings + openingsList ss

/-- How many there are in a branch that may be missing. -/
def openingsElse : Option Stmt → Nat
  | none => 0
  | some s => s.openings

end

/-- The loop itself counts once, as does whatever it starts with. -/
theorem openings_forLoop (initializer : Option Stmt) (condition increment : Option Expr)
    (body : Stmt) : (forLoop initializer condition increment body).openings =
      openingsElse initializer + body.openings + 1 := by
  cases initializer <;> cases increment <;>
    simp [forLoop, openings, openingsList, openingsElse, Nat.add_assoc]

end Stmt

/-- How many statements of the clause are written with such a keyword. -/
def Clause.openings : Clause → Nat
  | statement _ _ s | declaration _ s => s.openings
  | declarations _ ss => Stmt.openingsList ss

/-! ### The two counts agree -/

variable {ts : List Token}

private theorem Token.openings_eq_zero (h : ∀ token ∈ ts, inExpression token.kind = true) :
    openings ts = 0 := by
  refine List.countP_eq_zero.mpr fun token hmem hopens => ?_
  have hout := inExpression_of_opensStatement hopens
  rw [h token hmem] at hout
  exact Bool.noConfusion hout

theorem Phrase.Written.openings {e : Expr} (h : (Phrase.expression e).Written ts) :
    Token.openings ts = 0 :=
  Token.openings_eq_zero h.inExpression

private theorem WrittenOptional.openings {value : Option Expr} (h : WrittenOptional value ts) :
    Token.openings ts = 0 := by
  cases h with
  | none => rfl
  | some he => exact he.openings

theorem WrittenVar.openings {s : Stmt} (h : WrittenVar s ts) :
    Token.openings ts = 0 ∧ s.openings = 1 := by
  cases h with
  | bare hname hend => simp [Token.opensStatement, hname, hend, Stmt.openings]
  | initialized hname hequals he hend =>
      simp [Token.opensStatement, hname, hequals, he.openings, hend, Stmt.openings]

private theorem WrittenInitializer.openings {initializer : Option Stmt}
    (h : WrittenInitializer initializer ts) :
    Token.openings ts = Stmt.openingsElse initializer := by
  cases h with
  | none hend => simp [Token.opensStatement, hend, Stmt.openingsElse]
  | var hkeyword hs =>
      obtain ⟨htokens, hopens⟩ := hs.openings
      simp [Token.opensStatement, hkeyword, htokens, Stmt.openingsElse, hopens]
  | expression he hend =>
      simp [Token.opensStatement, he.openings, hend, Stmt.openingsElse, Stmt.openings]

private theorem WrittenMoreParameters.openings {names : List Token}
    (h : WrittenMoreParameters names ts) : Token.openings ts = 0 := by
  induction h with
  | nil => rfl
  | cons hcomma hname hmore ih => simp [Token.opensStatement, hcomma, hname, ih]

private theorem WrittenParameters.openings {names : List Token} (h : WrittenParameters names ts) :
    Token.openings ts = 0 := by
  cases h with
  | nil => rfl
  | cons hname hmore => simp [Token.opensStatement, hname, hmore.openings]

/-- **A clause has as many statements that start with such a keyword as there are keywords among its
tokens.** -/
theorem Clause.Written.openings {c : Clause} (h : c.Written ts) :
    Token.openings ts = c.openings := by
  induction h with
  | expression he hend =>
      simp [Token.opensStatement, he.openings, hend, Clause.openings, Stmt.openings]
  | print hkeyword he hend =>
      simp [Token.opensStatement, hkeyword, he.openings, hend, Clause.openings, Stmt.openings]
  | return_ hkeyword hvalue hend =>
      simp [Token.opensStatement, hkeyword, hvalue.openings, hend, Clause.openings, Stmt.openings]
  | loop hkeyword hopening hcondition hclosing hbody ih =>
      simp [Token.opensStatement, hkeyword, hopening, hcondition.openings, hclosing, ih,
        Clause.openings, Stmt.openings]
  | conditional hkeyword hopening hcondition hclosing hthen ih =>
      simp [Token.opensStatement, hkeyword, hopening, hcondition.openings, hclosing, ih,
        Clause.openings, Stmt.openings, Stmt.openingsElse]
  | forLoop hkeyword hopening hinitializer hcondition hsemicolon hincrement hclosing hbody ih =>
      simp [Token.opensStatement, hkeyword, hopening, hinitializer.openings, hcondition.openings,
        hsemicolon, hincrement.openings, hclosing, ih, Clause.openings, Stmt.openings_forLoop]
  | choice hkeyword hopening hcondition hclosing hthen hdivider helse ihthen ihelse =>
      simp [Token.opensStatement, hkeyword, hopening, hcondition.openings, hclosing, ihthen,
        hdivider, ihelse, Clause.openings, Stmt.openings, Stmt.openingsElse]
  | block hopening hbody hclosing ih =>
      simp [Token.opensStatement, hopening, ih, hclosing, Clause.openings, Stmt.openings]
  | function hkeyword hname hopening hparams hcount hclosing hleft hbody hright ih =>
      simp [Token.opensStatement, hkeyword, hname, hopening, hparams.openings, hclosing, hleft, ih,
        hright, Clause.openings, Stmt.openings]
  | var hkeyword hs =>
      obtain ⟨htokens, hopens⟩ := hs.openings
      simp [Token.opensStatement, hkeyword, htokens, Clause.openings, hopens]
  | statement hs ih => exact ih
  | nil => rfl
  | cons hs hss ih ihss =>
      rw [Token.openings_append, ih, ihss]
      rfl

end Lox
