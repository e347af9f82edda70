/-
Scopes, and the store that holds them.

A scope binds names to values.  It remembers the scopes around it, nearest first,
from the moment it is made; with itself in front they are its chain, along which
names are looked up.  The store keeps every scope ever made, numbered in order, so
a scope outlives the block or call it was made for as long as a function needs it.
-/
import Lox.Value

namespace Lox

/-! ### Bindings -/

/-- The names bound in one scope, each once, in order of first definition. -/
abbrev Bindings := List (String × Value)

namespace Bindings

/-- The value bound to a name. -/
def get? (name : String) : Bindings → Option Value
  | [] => none
  | (n, v) :: rest => if n = name then some v else get? name rest

/-- Bind a name, in the place of what was bound to it before. -/
def set (name : String) (value : Value) : Bindings → Bindings
  | [] => [(name, value)]
  | (n, v) :: rest => if n = name then (n, value) :: rest else (n, v) :: set name value rest

/-- Bind names to values in order; of a name that comes twice the later value stays. -/
def ofPairs (pairs : List (String × Value)) : Bindings :=
  pairs.foldl (fun bindings (name, value) => bindings.set name value) []

theorem get?_set (bindings : Bindings) (name : String) (value : Value) (n : String) :
    (bindings.set name value).get? n = if n = name then some value else bindings.get? n := by
  induction bindings with
  | nil => simp [set, get?, eq_comm]
  | cons entry rest ih =>
      obtain ⟨m, v⟩ := entry
      by_cases hm : m = name
      · subst hm
        by_cases hn : n = m <;> simp [set, get?, hn, eq_comm]
      · by_cases hn : m = n
        · subst hn; simp [set, get?, hm]
        · simp [set, get?, hm, hn, ih]

end Bindings

/-- One scope. -/
structure Scope where
  /-- The scopes around this one, nearest first. -/
  outer : List ScopeId
  bindings : Bindings
deriving Inhabited

/-! ### The store

Scopes are never taken away, so a number stands for the same scope for good.  A scope
keeps its whole chain and not just the scope around it: a look-up goes along a list, and
its end is not in question.
-/

/-- All scopes, by number. -/
structure Store where
  scopes : Array Scope
deriving Inhabited

namespace Store

/-- A store without scopes. -/
def empty : Store := ⟨#[]⟩

/-- How many scopes there are; the next one made has this number. -/
def size (s : Store) : Nat := s.scopes.size

/-- The names bound in a scope; none if there is no such scope. -/
def bindings (s : Store) (id : ScopeId) : Bindings :=
  match s.scopes[id]? with
  | some scope => scope.bindings
  | none => []

/-- A scope and those around it, nearest first. -/
def chain (s : Store) (id : ScopeId) : List ScopeId :=
  match s.scopes[id]? with
  | some scope => id :: scope.outer
  | none => []

/-- The scope directly around this one. -/
def enclosing? (s : Store) (id : ScopeId) : Option ScopeId := (s.chain id).tail.head?

/-- Add a scope with these scopes around it. -/
def push (s : Store) (outer : List ScopeId) (bindings : Bindings) : Store :=
  ⟨s.scopes.push ⟨outer, bindings⟩⟩

/-- Add a scope that nothing encloses. -/
def pushRoot (s : Store) (bindings : Bindings) : Store := s.push [] bindings

/-- Add a scope directly inside another. -/
def pushChild (s : Store) (parent : ScopeId) (bindings : Bindings) : Store :=
  s.push (s.chain parent) bindings

/-- The nearest scope on a chain that binds a name. -/
def resolve? (s : Store) (id : ScopeId) (name : String) : Option ScopeId :=
  (s.chain id).find? fun j => ((s.bindings j).get? name).isSome

/-- The value of a name, seen from a scope. -/
def get? (s : Store) (id : ScopeId) (name : String) : Option Value :=
  (s.resolve? id name).bind fun j => (s.bindings j).get? name

/-- Bind a name in a scope itself. -/
def define (s : Store) (id : ScopeId) (name : String) (value : Value) : Store :=
  ⟨s.scopes.modify id fun scope => { scope with bindings := scope.bindings.set name value }⟩

/-- Give a name a new value in the nearest scope that binds it. -/
@[inline]
def assign? (s : Store) (id : ScopeId) (name : String) (value : Value) : Option Store :=
  match s.resolve? id name with
  | some j => some (s.define j name value)
  | none => none

/-! ### What the operations do to bindings and chains -/

theorem size_push (s : Store) (outer : List ScopeId) (bindings : Bindings) :
    (s.push outer bindings).size = s.size + 1 := by
  simp [push, size]

theorem size_define (s : Store) (id : ScopeId) (name : String) (value : Value) :
    (s.define id name value).size = s.size := by
  simp [define, size]

theorem bindings_push (s : Store) (outer : List ScopeId) (bindings : Bindings) (id : ScopeId) :
    (s.push outer bindings).bindings id = if id = s.size then bindings else s.bindings id := by
  by_cases h : id = s.size <;> simp_all [push, size, Store.bindings, Array.getElem?_push]

theorem chain_push (s : Store) (outer : List ScopeId) (bindings : Bindings) (id : ScopeId) :
    (s.push outer bindings).chain id = if id = s.size then id :: outer else s.chain id := by
  by_cases h : id = s.size <;> simp_all [push, size, chain, Array.getElem?_push]

theorem bindings_define (s : Store) (id : ScopeId) (name : String) (value : Value) (j : ScopeId) :
    (s.define id name value).bindings j =
      if id = j ∧ j < s.size then (s.bindings j).set name value else s.bindings j := by
  simp only [define, bindings, size, Array.getElem?_modify]
  by_cases hj : id = j
  · by_cases h : j < s.scopes.size <;> simp [hj, h]
  · simp [hj]

theorem chain_define (s : Store) (id : ScopeId) (name : String) (value : Value) (j : ScopeId) :
    (s.define id name value).chain j = s.chain j := by
  simp only [define, chain, Array.getElem?_modify]
  by_cases hj : id = j
  · by_cases h : j < s.scopes.size <;> simp [hj, h]
  · simp [hj]

end Store

end Lox
