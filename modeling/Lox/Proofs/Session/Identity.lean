/-
Equal functions are one function.

Equality compares functions by their numbers and by nothing else.  So what it says of
two functions depends on where their numbers come from, and they come from one place:
each execution of a declaration takes the next one.  The functions that a session has
made so far, in the order in which they were made, are therefore numbered by their
places in this list, and whatever function is around at a moment, bound or held, is one
of the list; a copy is never changed.  `Moment.Knows` says this of a moment, and moves
preserve it.

On the other values equality is decided by looking at them.  It is an equivalence, and
for numbers it has to be shown: a NaN equals each NaN, and the two zeros are equal.
-/
import Lox.Proofs.Scopes.WellFormed
import Lox.Proofs.Session.History

namespace Lox

/-! ### Equality of values

Between numbers equality is neither identity of bits nor comparison of floats: NaNs are
equal to one another, and so are the two zeros.  `Equal` says when values are equal one
type at a time, and that it is an equivalence is read off there.
-/

theorem Number.not_isNaN_of_isZero {a : Number} (h : a.isZero = true) : a.isNaN = false := by
  have hzero : a.magnitude = 0 := of_decide_eq_true h
  simp [isNaN, hzero]

/-- Numbers are equal if they are the same, or both NaNs, or both zeros. -/
theorem Number.equals_iff {a b : Number} : a.equals b = true ↔
    a = b ∨ a.isNaN = true ∧ b.isNaN = true ∨ a.isZero = true ∧ b.isZero = true := by
  unfold equals same
  by_cases hab : a = b
  · rw [hab]
    cases b.isNaN <;> simp
  · by_cases hzero : a.isZero = true ∧ b.isZero = true
    · simp [hzero, not_isNaN_of_isZero hzero.1, not_isNaN_of_isZero hzero.2]
    · have hneither : (a.isZero && b.isZero) = false := by
        rw [← Bool.not_eq_true, Bool.and_eq_true]
        exact hzero
      simp [hab, hneither, hzero]

theorem Number.equals_symm {a b : Number} (h : a.equals b = true) : b.equals a = true := by
  rw [equals_iff] at *
  exact h.imp Eq.symm (Or.imp And.symm And.symm)

theorem Number.equals_trans {a b c : Number} (h : a.equals b = true) (h' : b.equals c = true) :
    a.equals c = true := by
  rw [equals_iff] at *
  rcases h with rfl | ⟨ha, hb⟩ | ⟨ha, hb⟩
  · exact h'
  · rcases h' with rfl | ⟨-, hc⟩ | ⟨hzero, -⟩
    · exact .inr (.inl ⟨ha, hb⟩)
    · exact .inr (.inl ⟨ha, hc⟩)
    · exact absurd (not_isNaN_of_isZero hzero) (by simp [hb])
  · rcases h' with rfl | ⟨hnan, -⟩ | ⟨-, hc⟩
    · exact .inr (.inr ⟨ha, hb⟩)
    · exact absurd (not_isNaN_of_isZero hb) (by simp [hnan])
    · exact .inr (.inr ⟨ha, hc⟩)

/-- The types of values. -/
inductive ValueType where
  | nil
  | bool
  | number
  | string
  | function
  | native
deriving DecidableEq

namespace Value

/-- The type of a value. -/
def type : Value → ValueType
  | nil => .nil
  | bool _ => .bool
  | number _ => .number
  | string _ => .string
  | function _ => .function
  | native _ => .native

/-- When values are equal, type by type. -/
inductive Equal : Value → Value → Prop where
  | nil : Equal .nil .nil
  | bool (b : Bool) : Equal (.bool b) (.bool b)
  | number {a b : Number} (h : a.equals b = true) : Equal (.number a) (.number b)
  | string (s : String) : Equal (.string s) (.string s)
  | function {f g : Closure} (h : f.id = g.id) : Equal (.function f) (.function g)
  | native (f : Native) : Equal (.native f) (.native f)

variable {v w x : Value}

theorem equals_iff : v.equals w = true ↔ v.Equal w := by
  constructor
  · intro h
    cases v <;> cases w <;> simp only [equals, decide_eq_true_eq, Bool.false_eq_true] at h
    case nil.nil => exact .nil
    case bool.bool => exact h ▸ .bool _
    case number.number => exact .number h
    case string.string => exact h ▸ .string _
    case function.function => exact .function h
    case native.native f g =>
      cases f
      cases g
      exact .native _
  · intro h
    cases h with
    | nil => rfl
    | number h => exact h
    | function h => exact decide_eq_true h
    | bool b => exact decide_eq_true (Eq.refl b)
    | string s => exact decide_eq_true (Eq.refl s)
    | native f => exact decide_eq_true (Eq.refl f)

/-- Equality is an equivalence on all values. -/
theorem equals_equivalence : Equivalence fun v w : Value => v.equals w = true := by
  simp only [equals_iff]
  refine ⟨fun v => ?_, fun h => ?_, fun h h' => ?_⟩
  · cases v with
    | nil => exact .nil
    | bool b => exact .bool b
    | number a => exact .number (Number.equals_iff.mpr (.inl rfl))
    | string s => exact .string s
    | function f => exact .function rfl
    | native f => exact .native f
  · cases h with
    | nil => exact .nil
    | bool b => exact .bool b
    | number h => exact .number (Number.equals_symm h)
    | string s => exact .string s
    | function h => exact .function h.symm
    | native f => exact .native f
  · cases h with
    | nil | bool | string | native => exact h'
    | number h =>
        cases h' with
        | number h' => exact .number (Number.equals_trans h h')
    | function h =>
        cases h' with
        | function h' => exact .function (h.trans h')

theorem type_eq_of_equals (h : v.equals w = true) : v.type = w.type := by
  cases equals_iff.mp h <;> rfl

end Value

/-! ### The functions made so far

The count on a machine says how many functions were made and not which.  The moments of
a session tell that.  If at one moment the functions made so far are numbered by their
places and all that is around is among them, then so it is after the next move.
-/

/-- The functions that were made at these moments, in order, one for each execution of a
declaration. -/
def functionsMade (moments : List Moment) : List Closure := moments.filterMap Moment.made

/-- At this moment these are the functions made so far. -/
structure Moment.Knows (made : List Closure) (moment : Moment) : Prop where
  /-- They are numbered in the order in which they were made, and each number is given once. -/
  ids : made.map Closure.id = List.range moment.machine.functions
  /-- Whatever function is bound or held is one of them. -/
  around : ∀ f, moment.Around f → f ∈ made

theorem functionsMade_nil : functionsMade [] = [] := rfl

theorem functionsMade_cons (moment : Moment) (moments : List Moment) :
    functionsMade (moment :: moments) = moment.made.toList ++ functionsMade moments := by
  unfold functionsMade
  cases hmade : moment.made with
  | none => rw [List.filterMap_cons_none hmade]; rfl
  | some f => rw [List.filterMap_cons_some hmade]; rfl

/-- The number of a function is its place among those made. -/
theorem Moment.Knows.id_eq {made : List Closure} {moment : Moment} (h : moment.Knows made) {i : Nat}
    {f : Closure} (hf : made[i]? = some f) : f.id = i := by
  have hid : (made.map Closure.id)[i]? = some f.id := by
    rw [List.getElem?_map, hf]
    rfl
  rw [h.ids] at hid
  obtain ⟨hlt, hplace⟩ := List.getElem?_eq_some_iff.mp hid
  rw [List.getElem_range] at hplace
  exact hplace.symm

namespace Moment

variable {a b moment : Moment} {made : List Closure} {moments : List Moment}

/-- What a change does to the count of functions. -/
theorem Change.functions {m : Machine} (h : a.Change m none) :
    m.functions = a.machine.functions := by
  cases h <;> rfl

private theorem Change.functions_made {m : Machine} {f : Closure} (h : a.Change m (some f)) :
    f.id = a.machine.functions ∧ m.functions = a.machine.functions + 1 := by
  cases h with
  | make name params body => exact ⟨rfl, rfl⟩

/-- **A move makes at most one function, and it takes the next number.** -/
theorem Move.knows (h : a.Move b) (ha : a.Knows made) : b.Knows (made ++ b.made.toList) := by
  have hchange := h.change
  cases hmade : b.made with
  | none =>
      rw [hmade] at hchange
      rw [Option.toList_none, List.append_nil]
      constructor
      · rw [hchange.functions, ha.ids]
      · intro f hf
        rcases h.around hf with hbefore | hnew
        · exact ha.around f hbefore
        · rw [hmade] at hnew
          exact absurd hnew.symm (Option.some_ne_none f)
  | some g =>
      rw [hmade] at hchange
      obtain ⟨hid, hfunctions⟩ := hchange.functions_made
      rw [Option.toList_some]
      constructor
      · rw [List.map_append, ha.ids, List.map_singleton, hid, hfunctions, List.range_succ]
      · intro f hf
        rcases h.around hf with hbefore | hnew
        · exact List.mem_append_left _ (ha.around f hbefore)
        · rw [hmade] at hnew
          cases hnew
          exact List.mem_append_right _ List.mem_cons_self

/-- At each moment of a path, the functions made so far are those that the moments up to it made,
after those made before the path. -/
theorem Path.knows (h : Path a moments b) : ∀ {made : List Closure},
    a.Knows (made ++ a.made.toList) → ∀ {i : Nat}, moments[i]? = some moment →
      moment.Knows (made ++ functionsMade (moments.take (i + 1))) := by
  -- The first moment's own function is counted already.
  have hfirst : ∀ {a : Moment} {made moments}, a.Knows (made ++ a.made.toList) →
      a.Knows (made ++ functionsMade ((a :: moments).take 1)) := by
    intro a made moments ha
    rw [List.take_succ_cons, List.take_zero, functionsMade_cons]
    rwa [functionsMade_nil, List.append_nil]
  induction h with
  | single a =>
      intro made ha i hi
      cases i with
      | zero =>
          rw [List.getElem?_cons_zero, Option.some.injEq] at hi
          exact hi ▸ hfirst ha
      | succ i =>
          rw [List.getElem?_cons_succ, List.getElem?_nil] at hi
          exact absurd hi.symm (Option.some_ne_none moment)
  | @cons a b c moments hmove hmore ih =>
      intro made ha i hi
      cases i with
      | zero =>
          rw [List.getElem?_cons_zero, Option.some.injEq] at hi
          exact hi ▸ hfirst ha
      | succ i =>
          rw [List.getElem?_cons_succ] at hi
          have hknows := ih (hmove.knows ha) hi
          rwa [List.take_succ_cons, functionsMade_cons, ← List.append_assoc]

end Moment

/-- What has been made on a new machine is nothing. -/
theorem Moment.knows_start (clock : Nat → Number) (room : Option Nat) :
    (Moment.holding (Machine.start clock room) []).Knows [] where
  ids := rfl
  around f hf := by
    rcases hf with ⟨i, name, hbound⟩ | hheld
    · have hmade := (Machine.start_wellFormed clock room).made i name f hbound
      exact absurd hmade.id (Nat.not_lt_zero _)
    · exact absurd hheld List.not_mem_nil

namespace Machine

variable {clock : Nat → Number} {room : Option Nat} {inputs : List (Nat × Input)}

/-- At every moment of a session, the functions made so far are those that its moments up to this
one made. -/
theorem history_knows {t : Nat} {moment : Moment}
    (h : ((start clock room).history inputs)[t]? = some moment) :
    moment.Knows (functionsMade (((start clock room).history inputs).take (t + 1))) := by
  obtain ⟨last, hpath⟩ := (start clock room).history_path inputs
  have hstart : (Moment.holding (start clock room) []).Knows ([] ++ []) :=
    Moment.knows_start clock room
  have hknows := hpath.knows hstart h
  rwa [List.nil_append] at hknows

/-- The functions that a session makes are numbered in the order in which they are made. -/
theorem id_of_functionsMade {i : Nat} {f : Closure}
    (h : (functionsMade ((start clock room).history inputs))[i]? = some f) : f.id = i := by
  obtain ⟨last, hpath⟩ := (start clock room).history_path inputs
  have hlast := hpath.getLast?_eq
  rw [List.getLast?_eq_getElem?] at hlast
  have hknows := history_knows hlast
  rw [List.take_of_length_le (by omega)] at hknows
  exact hknows.id_eq h

end Machine

/-- **Functions are equal if and only if one execution of a declaration made both.**  Equality is an
equivalence that never holds across types.  Whatever function is around at a moment of a session is
one of those made until then, and two of these are equal only if they are the same in the list of
all, which has one for each execution of a declaration. -/
theorem functions_equal_iff_made_once (clock : Nat → Number) (room : Option Nat)
    (inputs : List (Nat × Input)) :
    let history := (Machine.start clock room).history inputs
    Equivalence (fun v w : Value => v.equals w = true) ∧
    (∀ v w : Value, v.equals w = true → v.type = w.type) ∧
    (∀ a b, (Value.number a).equals (.number b) = true ↔
      a = b ∨ a.isNaN = true ∧ b.isNaN = true ∨ a.isZero = true ∧ b.isZero = true) ∧
    (∀ (t : Nat) moment, history[t]? = some moment →
      ∀ f, moment.Around f → f ∈ functionsMade (history.take (t + 1))) ∧
    (∀ (i j : Nat) f g,
      (functionsMade history)[i]? = some f → (functionsMade history)[j]? = some g →
        ((Value.function f).equals (.function g) = true ↔ i = j)) ∧
    ∀ f ∈ functionsMade history, ∀ g ∈ functionsMade history,
      ((Value.function f).equals (.function g) = true ↔ f = g) := by
  intro history
  have hplaces : ∀ (i j : Nat) f g,
      (functionsMade history)[i]? = some f → (functionsMade history)[j]? = some g →
        ((Value.function f).equals (.function g) = true ↔ i = j) := by
    intro i j f g hf hg
    rw [Value.equals, decide_eq_true_eq, Machine.id_of_functionsMade hf,
      Machine.id_of_functionsMade hg]
  refine ⟨Value.equals_equivalence, fun v w => Value.type_eq_of_equals,
    fun a b => Number.equals_iff, fun t moment h f => (Machine.history_knows h).around f,
    hplaces, fun f hf g hg => ?_⟩
  obtain ⟨i, hi⟩ := List.getElem?_of_mem hf
  obtain ⟨j, hj⟩ := List.getElem?_of_mem hg
  rw [hplaces i j f g hi hj]
  constructor
  · intro hij
    rw [hij] at hi
    exact Option.some.inj (hi.symm.trans hj)
  · intro hfg
    rw [← Machine.id_of_functionsMade hi, ← Machine.id_of_functionsMade hj, hfg]

/-- Declared in two steps of a session, the same function in the same scope, and not equal. -/
theorem functions_equal_iff_made_once_declared_again :
    let declaration := Stmt.function ⟨.identifier, "f", 1⟩ [] []
    let made := functionsMade ((Machine.start (fun _ => default) none).history
      [(3, .program [declaration]), (3, .program [declaration])])
    ∃ f g : Closure, made[0]? = some f ∧ made[1]? = some g ∧
      (f.name, f.params.length, f.body.length, f.scope) =
        (g.name, g.params.length, g.body.length, g.scope) ∧
      (Value.function f).equals (.function g) = false := by
  intro declaration made
  refine ⟨_, _, rfl, rfl, rfl, ?_⟩
  obtain ⟨-, -, -, -, hplaces, -⟩ := functions_equal_iff_made_once (fun _ => default) none
    [(3, .program [declaration]), (3, .program [declaration])]
  rw [← Bool.not_eq_true, hplaces 0 1 _ _ rfl rfl]
  exact Nat.zero_ne_one

end Lox
