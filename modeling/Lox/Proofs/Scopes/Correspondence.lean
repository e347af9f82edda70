/-
Functions of two machines that correspond.

Two machines that run the same thing make the same functions, but number them from
where each of them stands.  So a function made later corresponds to one with another
number, and one made before to itself.  That is all that tells the values apart which
the two machines compute.

Bindings correspond name by name.  What is looked up in them corresponds, and they
go on corresponding when something is set in both.
-/
import Lox.Proofs.Scopes.WellFormed

namespace Lox

/-! ### Other numbers for functions

The numbers of two machines that have done the same differ by a constant for what was
made since, and by nothing for what was there before.  So one function on numbers says
it all.
-/

/-- The number on the second machine of a function that has this number on the first: the same
for what there was before, and counted from where the second stands for what is made later. -/
def Machine.renumbering (m₁ m₂ : Machine) (id : Nat) : Nat :=
  if id < m₁.functions then id else id - m₁.functions + m₂.functions

/-- The function with another number. -/
def Closure.renumber (ρ : Nat → Nat) (f : Closure) : Closure := { f with id := ρ f.id }

/-- The value, with another number if it is a function. -/
def Value.renumber (ρ : Nat → Nat) : Value → Value
  | .function f => .function (f.renumber ρ)
  | v => v

/-- The bindings, with other numbers for the functions among them. -/
def Bindings.renumber (ρ : Nat → Nat) (bindings : Bindings) : Bindings :=
  bindings.map fun (name, value) => (name, value.renumber ρ)

/-! ### Bindings that correspond -/

variable {functions : Closure.Relation}

/-- The same names in the same order, bound to the same values but for their functions. -/
def Bindings.Related (functions : Closure.Relation) : Bindings → Bindings → Prop :=
  List.Forall₂ fun entry other =>
    entry.1 = other.1 ∧ entry.2.Related functions other.2

namespace Bindings.Related

variable {bindings other : Bindings}

theorem get? (h : bindings.Related functions other) (name : String) :
    bindings.get? name = none ∧ other.get? name = none ∨
      ∃ v w, bindings.get? name = some v ∧ other.get? name = some w ∧ v.Related functions w := by
  induction h with
  | nil => exact .inl ⟨rfl, rfl⟩
  | @cons entry entry' rest rest' hentry _ ih =>
      obtain ⟨n, v⟩ := entry
      obtain ⟨n', v'⟩ := entry'
      obtain ⟨rfl, hv⟩ := hentry
      rw [Bindings.get?, Bindings.get?]
      by_cases hname : n = name
      · rw [if_pos hname, if_pos hname]
        exact .inr ⟨v, v', rfl, rfl, hv⟩
      · rw [if_neg hname, if_neg hname]
        exact ih

theorem isSome_get? (h : bindings.Related functions other) (name : String) :
    (bindings.get? name).isSome = (other.get? name).isSome := by
  rcases h.get? name with ⟨hnone, hnone'⟩ | ⟨v, w, hsome, hsome', -⟩
  · rw [hnone, hnone']
  · rw [hsome, hsome']
    rfl

theorem set (h : bindings.Related functions other) (name : String) {v w : Value}
    (hv : v.Related functions w) :
    (bindings.set name v).Related functions (other.set name w) := by
  induction h with
  | nil => exact .cons ⟨rfl, hv⟩ .nil
  | @cons entry entry' rest rest' hentry hrest ih =>
      obtain ⟨n, u⟩ := entry
      obtain ⟨n', u'⟩ := entry'
      obtain ⟨rfl, hu⟩ := hentry
      rw [Bindings.set, Bindings.set]
      by_cases hname : n = name
      · rw [if_pos hname, if_pos hname]
        exact .cons ⟨rfl, hv⟩ hrest
      · rw [if_neg hname, if_neg hname]
        exact .cons ⟨rfl, hu⟩ ih

theorem ofPairs {vs ws : List Value} (names : List String)
    (h : List.Forall₂ (Value.Related functions) vs ws) :
    (Bindings.ofPairs (names.zip vs)).Related functions (.ofPairs (names.zip ws)) := by
  -- The bindings made so far correspond.
  have hfold : ∀ (names : List String) (bindings other : Bindings),
      bindings.Related functions other →
        ((names.zip vs).foldl (fun (bindings : Bindings) pair => bindings.set pair.1 pair.2)
          bindings).Related functions
        ((names.zip ws).foldl (fun (bindings : Bindings) pair => bindings.set pair.1 pair.2) other) := by
    induction h with
    | nil =>
        intro names bindings other hbindings
        rw [List.zip_nil_right]
        exact hbindings
    | cons hv _ ih =>
        intro names bindings other hbindings
        cases names with
        | nil => exact hbindings
        | cons name names => exact ih names _ _ (hbindings.set name hv)
  rw [ofPairs_eq_foldl, ofPairs_eq_foldl]
  exact hfold names [] [] .nil

end Bindings.Related

/-- Arguments that correspond are bound alike. -/
theorem Closure.arguments_related {f g : Closure} {vs ws : List Value}
    (hparams : f.params = g.params) (h : List.Forall₂ (Value.Related functions) vs ws) :
    (f.arguments vs).Related functions (g.arguments ws) := by
  unfold arguments
  rw [hparams]
  exact .ofPairs _ h

/-! ### Functions that correspond

What was there before keeps its number, and what was made since is counted on from where
a machine stood.  The two must not get mixed up, or two functions of one machine could
be given the same number on the other.  Nor must a function lead out of view, for
calling it would show where the machines differ.
-/

/-- A scope that a run may see: one of these, or one made later. -/
def Machine.InView (seen : ScopeId → Prop) (m : Machine) (i : ScopeId) : Prop :=
  seen i ∨ m.store.size ≤ i

/-- The function of the first machine corresponds to that of the second. -/
structure Machine.Corresponds (seen : ScopeId → Prop) (m₁ m₂ : Machine) (f g : Closure) :
    Prop where
  /-- They differ in nothing but their numbers. -/
  eq : g = f.renumber (m₁.renumbering m₂)
  /-- What the function sees when it is called, the run may see. -/
  scope : m₁.InView seen f.scope
  /-- It was made before both runs or in both of them. -/
  old : f.id < m₁.functions → f.id < m₂.functions

namespace Machine.Corresponds

variable {seen : ScopeId → Prop} {m₁ m₂ : Machine} {f g : Closure}

theorem congruent (seen : ScopeId → Prop) (m₁ m₂ : Machine) :
    Closure.Congruent (m₁.Corresponds seen m₂) where
  name h := by rw [h.eq]; rfl
  params h := by rw [h.eq]; rfl
  body h := by rw [h.eq]; rfl
  id_iff {f g f' g'} h h' := by
    have hold := h.old
    have hold' := h'.old
    rw [h.eq, h'.eq]
    show f.id = f'.id ↔ m₁.renumbering m₂ f.id = m₁.renumbering m₂ f'.id
    unfold renumbering
    by_cases hf : f.id < m₁.functions
    · rw [if_pos hf]
      by_cases hf' : f'.id < m₁.functions
      · rw [if_pos hf']
      · rw [if_neg hf']
        omega
    · rw [if_neg hf]
      by_cases hf' : f'.id < m₁.functions
      · rw [if_pos hf']
        omega
      · rw [if_neg hf']
        omega

/-- A function that both machines have corresponds to itself. -/
theorem refl (h₁ : m₁.Made f) (h₂ : m₂.Made f) (hscope : m₁.InView seen f.scope) :
    m₁.Corresponds seen m₂ f f := by
  have hid : m₁.renumbering m₂ f.id = f.id := by
    unfold renumbering
    rw [if_pos h₁.id]
  refine ⟨?_, hscope, fun _ => h₂.id⟩
  unfold Closure.renumber
  rw [hid]

theorem value_eq {v w : Value} (h : v.Related (m₁.Corresponds seen m₂) w) :
    w = v.renumber (m₁.renumbering m₂) := by
  cases h with
  | function hf =>
      rw [hf.eq]
      rfl
  | _ => rfl

theorem bindings_eq {bindings other : Bindings}
    (h : bindings.Related (m₁.Corresponds seen m₂) other) :
    other = bindings.renumber (m₁.renumbering m₂) := by
  induction h with
  | nil => rfl
  | @cons entry entry' rest rest' hentry _ ih =>
      obtain ⟨n, v⟩ := entry
      obtain ⟨n', v'⟩ := entry'
      obtain ⟨rfl, hv⟩ := hentry
      have hvalue : v' = v.renumber (m₁.renumbering m₂) := value_eq hv
      rw [ih, hvalue]
      rfl

/-- A value that both machines have corresponds to itself. -/
theorem value_refl {v : Value}
    (h : ∀ f, v = .function f → m₁.Made f ∧ m₂.Made f ∧ m₁.InView seen f.scope) :
    v.Related (m₁.Corresponds seen m₂) v := by
  cases v with
  | function f =>
      obtain ⟨h₁, h₂, hscope⟩ := h f rfl
      exact .function (.refl h₁ h₂ hscope)
  | nil => exact .nil
  | bool b => exact .bool b
  | number n => exact .number n
  | string s => exact .string s
  | native f => exact .native f

theorem bindings_refl {bindings : Bindings}
    (h : ∀ name f, (name, .function f) ∈ bindings →
      m₁.Made f ∧ m₂.Made f ∧ m₁.InView seen f.scope) :
    bindings.Related (m₁.Corresponds seen m₂) bindings := by
  unfold Bindings.Related
  rw [List.forall₂_same]
  intro entry hentry
  refine ⟨rfl, value_refl fun f hf => h entry.1 f ?_⟩
  rw [← hf]
  exact hentry

end Machine.Corresponds

end Lox
