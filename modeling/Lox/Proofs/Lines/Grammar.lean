/-
Parsing does not look at lines.

The rules for writing trees ask for the kinds of tokens only.  So tokens with their
lines renamed are a way to write the tree with its lines renamed, and by what is
known of whole programs they are parsed as that.
-/
import Lox.Proofs.Grammar.Programs
import Lox.Proofs.Lines.Relabel

namespace Lox

open Lox.Parser

variable {ρ : Nat → Nat}

/-! ### Expressions -/

private theorem atom?_relabel {token : Token} {e : Expr} (h : atom? token = some e) :
    atom? (token.relabel ρ) = some (e.relabel ρ) := by
  unfold atom? at h ⊢
  rw [Token.relabel_kind]
  split at h <;> cases h <;> rfl

private theorem node_relabel {level : Level} (h : level ∈ levels) (l r : Expr) (op : Token) :
    (level.node l op r).relabel ρ = level.node (l.relabel ρ) (op.relabel ρ) (r.relabel ρ) := by
  rcases Phrase.node_of_mem h with hnode | hnode <;> rw [hnode] <;> rfl

def Phrase.relabel (ρ : Nat → Nat) : Phrase → Phrase
  | .expression e => .expression (e.relabel ρ)
  | .operation levels e => .operation levels (e.relabel ρ)
  | .unary e => .unary (e.relabel ρ)
  | .call e => .call (e.relabel ρ)
  | .primary e => .primary (e.relabel ρ)
  | .arguments es => .arguments (Expr.relabelList ρ es)
  | .moreArguments es => .moreArguments (Expr.relabelList ρ es)

theorem Phrase.Written.relabel {p : Phrase} {ts : List Token} (h : p.Written ts) :
    (p.relabel ρ).Written (ts.map (Token.relabel ρ)) := by
  induction h with
  | assign hname hequals hvalue ih => exact .assign hname hequals ih
  | operation h ih => exact .operation ih
  | operand h ih => exact .operand ih
  | join hlevel hl hop hr ihl ihr =>
      rw [Phrase.relabel, node_relabel (mem_levels hlevel), List.map_append, List.map_cons]
      exact .join hlevel ihl hop ihr
  | unary h ih => exact .unary ih
  | operator hop h ih => exact .operator hop ih
  | call h ih => exact .call ih
  | apply hcallee hopening harguments hcount hclosing ihcallee iharguments =>
      simp only [List.map_append, List.map_cons, List.map_nil]
      refine .apply ihcallee hopening iharguments ?_ hclosing
      rwa [Expr.relabelList_eq_map, List.length_map]
  | primary h ih => exact .primary ih
  | atom h => exact .atom (atom?_relabel h)
  | grouping hopening h hclosing ih =>
      simp only [List.map_append, List.map_cons, List.map_nil]
      exact .grouping hopening ih hclosing
  | noArguments => exact .noArguments
  | arguments h hmore ih ihmore =>
      rw [List.map_append]
      exact .arguments ih ihmore
  | noMore => exact .noMore
  | more hcomma h hmore ih ihmore =>
      rw [List.map_cons, List.map_append]
      exact .more hcomma ih ihmore

/-! ### Statements -/

theorem WrittenVar.relabel {s : Stmt} {ts : List Token} (h : WrittenVar s ts) :
    WrittenVar (s.relabel ρ) (ts.map (Token.relabel ρ)) := by
  cases h with
  | bare hname hend => exact .bare hname hend
  | initialized hname hequals he hend =>
      simp only [List.map_append, List.map_cons, List.map_nil]
      exact .initialized hname hequals he.relabel hend

private theorem WrittenOptional.relabel {e : Option Expr} {ts : List Token}
    (h : WrittenOptional e ts) :
    WrittenOptional (e.map (Expr.relabel ρ)) (ts.map (Token.relabel ρ)) := by
  cases h with
  | none => exact .none
  | some he => exact .some he.relabel

private theorem WrittenInitializer.relabel {s : Option Stmt} {ts : List Token}
    (h : WrittenInitializer s ts) :
    WrittenInitializer (s.map (Stmt.relabel ρ)) (ts.map (Token.relabel ρ)) := by
  cases h with
  | none hend => exact .none hend
  | var hkeyword hs => exact .var hkeyword hs.relabel
  | expression he hend =>
      rw [List.map_append]
      exact .expression he.relabel hend

private theorem WrittenMoreParameters.relabel {names ts : List Token}
    (h : WrittenMoreParameters names ts) :
    WrittenMoreParameters (names.map (Token.relabel ρ)) (ts.map (Token.relabel ρ)) := by
  induction h with
  | nil => exact .nil
  | cons hcomma hname hmore ih => exact .cons hcomma hname ih

private theorem WrittenParameters.relabel {names ts : List Token} (h : WrittenParameters names ts) :
    WrittenParameters (names.map (Token.relabel ρ)) (ts.map (Token.relabel ρ)) := by
  cases h with
  | nil => exact .nil
  | cons hname hmore => exact .cons hname hmore.relabel

theorem Stmt.relabel_forLoop (initializer : Option Stmt) (condition increment : Option Expr)
    (body : Stmt) :
    (forLoop initializer condition increment body).relabel ρ =
      forLoop (initializer.map (Stmt.relabel ρ)) (condition.map (Expr.relabel ρ))
        (increment.map (Expr.relabel ρ)) (body.relabel ρ) := by
  cases initializer <;> cases condition <;> cases increment <;> rfl

def Clause.relabel (ρ : Nat → Nat) : Clause → Clause
  | .statement f isOpen s => .statement f isOpen (s.relabel ρ)
  | .declaration f s => .declaration f (s.relabel ρ)
  | .declarations f ss => .declarations f (Stmt.relabelList ρ ss)

theorem Clause.Written.relabel {c : Clause} {ts : List Token} (h : c.Written ts) :
    (c.relabel ρ).Written (ts.map (Token.relabel ρ)) := by
  induction h with
  | expression he hend =>
      rw [List.map_append]
      exact .expression he.relabel hend
  | print hkeyword he hend =>
      simp only [List.map_append, List.map_cons, List.map_nil]
      exact .print hkeyword he.relabel hend
  | return_ hkeyword hvalue hend =>
      simp only [List.map_append, List.map_cons, List.map_nil]
      exact .return_ hkeyword hvalue.relabel hend
  | loop hkeyword hopening hcondition hclosing hbody ih =>
      simp only [List.map_append, List.map_cons]
      exact .loop hkeyword hopening hcondition.relabel hclosing ih
  | forLoop hkeyword hopening hinitializer hcondition hsemicolon hincrement hclosing hbody ih =>
      simp only [List.map_append, List.map_cons, Clause.relabel, Stmt.relabel_forLoop]
      exact .forLoop hkeyword hopening hinitializer.relabel hcondition.relabel hsemicolon
        hincrement.relabel hclosing ih
  | conditional hkeyword hopening hcondition hclosing hthen ih =>
      simp only [List.map_append, List.map_cons]
      exact .conditional hkeyword hopening hcondition.relabel hclosing ih
  | choice hkeyword hopening hcondition hclosing hthen hdivider helse ihthen ihelse =>
      simp only [List.map_append, List.map_cons]
      exact .choice hkeyword hopening hcondition.relabel hclosing ihthen hdivider ihelse
  | block hopening hbody hclosing ih =>
      simp only [List.map_append, List.map_cons, List.map_nil]
      exact .block hopening ih hclosing
  | function hkeyword hname hopening hparams hcount hclosing hleft hbody hright ih =>
      simp only [List.map_append, List.map_cons, List.map_nil]
      exact .function hkeyword hname hopening hparams.relabel (by rwa [List.length_map]) hclosing
        hleft ih hright
  | var hkeyword hs => exact .var hkeyword hs.relabel
  | statement hs ih => exact .statement ih
  | nil => exact .nil
  | cons hs hss ih ihss =>
      rw [List.map_append]
      exact .cons ih ihss

end Lox
