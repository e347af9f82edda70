/-
Renaming lines.

Tokens carry the line they end on, and trees, functions and faults carry tokens.
`relabel ρ` puts the line `ρ n` in the place of every line `n` and leaves the rest
as it is.  A source that stands below another one has all its lines moved by the
same number, which is one use; to tell from which source a token comes is the
other, for a line can be renamed to one that says both.
-/
import Lox.Evaluation

namespace Lox

variable (ρ σ : Nat → Nat)

/-! ### Tokens and trees -/

def Token.relabel (t : Token) : Token := { t with line := ρ t.line }

@[simp] theorem Token.relabel_kind (t : Token) : (t.relabel ρ).kind = t.kind := rfl

@[simp] theorem Token.relabel_lexeme (t : Token) : (t.relabel ρ).lexeme = t.lexeme := rfl

@[simp] theorem Token.relabel_line (t : Token) : (t.relabel ρ).line = ρ t.line := rfl

namespace Expr

mutual

def relabel : Expr → Expr
  | assign name value => assign (name.relabel ρ) value.relabel
  | binary left op right => binary left.relabel (op.relabel ρ) right.relabel
  | call callee paren arguments => call callee.relabel (paren.relabel ρ) (relabelList arguments)
  | get object name => get object.relabel (name.relabel ρ)
  | grouping inner => grouping inner.relabel
  | literal value => literal value
  | logical left op right => logical left.relabel (op.relabel ρ) right.relabel
  | set object name value => set object.relabel (name.relabel ρ) value.relabel
  | super keyword method => super (keyword.relabel ρ) (method.relabel ρ)
  | this keyword => this (keyword.relabel ρ)
  | unary op right => unary (op.relabel ρ) right.relabel
  | var name => var (name.relabel ρ)

def relabelList : List Expr → List Expr
  | [] => []
  | e :: es => e.relabel :: relabelList es

end

end Expr

namespace Stmt

mutual

def relabel : Stmt → Stmt
  | block body => block (relabelList body)
  | expression value => expression (value.relabel ρ)
  | function name params body =>
    function (name.relabel ρ) (params.map (Token.relabel ρ)) (relabelList body)
  | conditional condition thenBranch elseBranch =>
    conditional (condition.relabel ρ) thenBranch.relabel (relabelElse elseBranch)
  | print value => print (value.relabel ρ)
  | return_ keyword value => return_ (keyword.relabel ρ) (value.map (Expr.relabel ρ))
  | var name initializer => var (name.relabel ρ) (initializer.map (Expr.relabel ρ))
  | loop condition body => loop (condition.relabel ρ) body.relabel

def relabelList : List Stmt → List Stmt
  | [] => []
  | s :: ss => s.relabel :: relabelList ss

def relabelElse : Option Stmt → Option Stmt
  | none => none
  | some s => some s.relabel

end

end Stmt

/-! ### Values and machines -/

def Closure.relabel (f : Closure) : Closure :=
  { f with
    name := f.name.relabel ρ
    params := f.params.map (Token.relabel ρ)
    body := Stmt.relabelList ρ f.body }

def Value.relabel : Value → Value
  | function f => function (f.relabel ρ)
  | v => v

def Callee.relabel : Callee → Callee
  | function f => function (f.relabel ρ)
  | native f => native f

def Flow.relabel : Flow → Flow
  | normal => normal
  | returned v => returned (v.relabel ρ)

def Bindings.relabel (bindings : Bindings) : Bindings :=
  bindings.map fun (name, value) => (name, value.relabel ρ)

def Scope.relabel (scope : Scope) : Scope :=
  { scope with bindings := scope.bindings.relabel ρ }

def Store.relabel (s : Store) : Store := ⟨s.scopes.map (Scope.relabel ρ)⟩

def Machine.relabel (m : Machine) : Machine := { m with store := m.store.relabel ρ }

def RuntimeFault.relabel : RuntimeFault → RuntimeFault
  | raised token cause => raised (token.relabel ρ) cause
  | outputFull => outputFull

def Stop.relabel : Stop → Stop
  | fault f => fault (f.relabel ρ)
  | outOfFuel => outOfFuel

/-! ### Renaming twice

Lines get renamed more than once where sources are joined: first so that they tell the
source, and then to what they are in it or in the joined text.  Both at once are one
renaming.
-/

@[simp] theorem Token.relabel_relabel (t : Token) :
    (t.relabel ρ).relabel σ = t.relabel (σ ∘ ρ) := rfl

@[simp] theorem Token.map_relabel_relabel (ts : List Token) :
    (ts.map (relabel ρ)).map (relabel σ) = ts.map (relabel (σ ∘ ρ)) :=
  List.map_map

namespace Expr

mutual

theorem relabel_relabel : ∀ e : Expr, (e.relabel ρ).relabel σ = e.relabel (σ ∘ ρ)
  | assign name value => by simp [relabel, relabel_relabel value]
  | binary left op right => by simp [relabel, relabel_relabel left, relabel_relabel right]
  | call callee paren arguments => by
      simp [relabel, relabel_relabel callee, relabelList_relabelList arguments]
  | get object name => by simp [relabel, relabel_relabel object]
  | grouping inner => by simp [relabel, relabel_relabel inner]
  | literal value => rfl
  | logical left op right => by simp [relabel, relabel_relabel left, relabel_relabel right]
  | set object name value => by simp [relabel, relabel_relabel object, relabel_relabel value]
  | super keyword method => rfl
  | this keyword => rfl
  | unary op right => by simp [relabel, relabel_relabel right]
  | var name => rfl

theorem relabelList_relabelList :
    ∀ es : List Expr, relabelList σ (relabelList ρ es) = relabelList (σ ∘ ρ) es
  | [] => rfl
  | e :: es => by simp [relabelList, relabel_relabel e, relabelList_relabelList es]

end

theorem map_relabel_relabel (e : Option Expr) :
    (e.map (relabel ρ)).map (relabel σ) = e.map (relabel (σ ∘ ρ)) := by
  cases e with
  | none => rfl
  | some e => exact congrArg some (relabel_relabel ρ σ e)

end Expr

namespace Stmt

mutual

theorem relabel_relabel : ∀ s : Stmt, (s.relabel ρ).relabel σ = s.relabel (σ ∘ ρ)
  | block body => by simp [relabel, relabelList_relabelList body]
  | expression value => by simp [relabel, Expr.relabel_relabel]
  | function name params body => by simp [relabel, relabelList_relabelList body]
  | conditional condition thenBranch elseBranch => by
      simp [relabel, Expr.relabel_relabel, relabel_relabel thenBranch,
        relabelElse_relabelElse elseBranch]
  | print value => by simp [relabel, Expr.relabel_relabel]
  | return_ keyword value => by
      simp only [relabel, Expr.map_relabel_relabel, Token.relabel_relabel]
  | var name initializer => by
      simp only [relabel, Expr.map_relabel_relabel, Token.relabel_relabel]
  | loop condition body => by simp [relabel, Expr.relabel_relabel, relabel_relabel body]

theorem relabelList_relabelList :
    ∀ ss : List Stmt, relabelList σ (relabelList ρ ss) = relabelList (σ ∘ ρ) ss
  | [] => rfl
  | s :: ss => by simp [relabelList, relabel_relabel s, relabelList_relabelList ss]

theorem relabelElse_relabelElse :
    ∀ s : Option Stmt, relabelElse σ (relabelElse ρ s) = relabelElse (σ ∘ ρ) s
  | none => rfl
  | some s => by simp [relabelElse, relabel_relabel s]

end

end Stmt

theorem Value.relabel_relabel (v : Value) : (v.relabel ρ).relabel σ = v.relabel (σ ∘ ρ) := by
  cases v with
  | function f => simp [relabel, Closure.relabel, Stmt.relabelList_relabelList]
  | _ => rfl

theorem Machine.relabel_relabel (m : Machine) :
    (m.relabel ρ).relabel σ = m.relabel (σ ∘ ρ) := by
  simp [relabel, Store.relabel, Scope.relabel, Bindings.relabel, Value.relabel_relabel,
    Function.comp_def]

/-! ### Renaming nothing -/

@[simp] theorem Token.map_relabel_id (ts : List Token) : ts.map (Token.relabel id) = ts :=
  List.map_id ts

namespace Expr

mutual

theorem relabel_id : ∀ e : Expr, e.relabel id = e
  | assign name value => by simp [relabel, relabel_id value, Token.relabel]
  | binary left op right => by simp [relabel, relabel_id left, relabel_id right, Token.relabel]
  | call callee paren arguments => by
      simp [relabel, relabel_id callee, relabelList_id arguments, Token.relabel]
  | get object name => by simp [relabel, relabel_id object, Token.relabel]
  | grouping inner => by simp [relabel, relabel_id inner]
  | literal value => rfl
  | logical left op right => by simp [relabel, relabel_id left, relabel_id right, Token.relabel]
  | set object name value => by
      simp [relabel, relabel_id object, relabel_id value, Token.relabel]
  | super keyword method => rfl
  | this keyword => rfl
  | unary op right => by simp [relabel, relabel_id right, Token.relabel]
  | var name => rfl

theorem relabelList_id : ∀ es : List Expr, relabelList id es = es
  | [] => rfl
  | e :: es => by simp [relabelList, relabel_id e, relabelList_id es]

end

end Expr

namespace Stmt

mutual

theorem relabel_id : ∀ s : Stmt, s.relabel id = s
  | block body => by simp [relabel, relabelList_id body]
  | expression value => by simp [relabel, Expr.relabel_id]
  | function name params body => by simp [relabel, relabelList_id body, Token.relabel]
  | conditional condition thenBranch elseBranch => by
      simp [relabel, Expr.relabel_id, relabel_id thenBranch, relabelElse_id elseBranch]
  | print value => by simp [relabel, Expr.relabel_id]
  | return_ keyword value => by cases value <;> simp [relabel, Expr.relabel_id, Token.relabel]
  | var name initializer => by
      cases initializer <;> simp [relabel, Expr.relabel_id, Token.relabel]
  | loop condition body => by simp [relabel, Expr.relabel_id, relabel_id body]

theorem relabelList_id : ∀ ss : List Stmt, relabelList id ss = ss
  | [] => rfl
  | s :: ss => by simp [relabelList, relabel_id s, relabelList_id ss]

theorem relabelElse_id : ∀ s : Option Stmt, relabelElse id s = s
  | none => rfl
  | some s => by simp [relabelElse, relabel_id s]

end

end Stmt

theorem Value.relabel_id (v : Value) : v.relabel id = v := by
  cases v with
  | function f => simp [relabel, Closure.relabel, Stmt.relabelList_id, Token.relabel]
  | _ => rfl

theorem Machine.relabel_id (m : Machine) : m.relabel id = m := by
  have hscope : Scope.relabel id = id := by
    funext scope
    simp [Scope.relabel, Bindings.relabel, Value.relabel_id]
  simp [relabel, Store.relabel, hscope]

/-! ### Lists -/

theorem Expr.relabelList_eq_map (es : List Expr) : relabelList ρ es = es.map (relabel ρ) := by
  induction es with
  | nil => rfl
  | cons e es ih => rw [relabelList, ih, List.map_cons]

theorem Stmt.relabelList_eq_map (ss : List Stmt) : relabelList ρ ss = ss.map (relabel ρ) := by
  induction ss with
  | nil => rfl
  | cons s ss ih => rw [relabelList, ih, List.map_cons]

end Lox
