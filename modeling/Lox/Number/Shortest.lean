/-
Writing numbers: the fewest digits that read back.

A finite number is written as a decimal that `Number.ofDecimal` takes back to
exactly that number.  Candidates are sought on ever finer grids — multiples of
10^k, for k falling — and on each grid only the two neighbours of the value can
be nearest, so only those are tried, the nearer first and the upper one on a tie.
The first grid with a candidate that reads back gives the fewest digits.

No grid need ever be finer than the value itself: one whose step divides the
value exactly has the value as a candidate.  That exact decimal is therefore the
answer if none of the grids looked at has one, which keeps the search short and
the result right without counting how many digits suffice.
-/
import Lox.Number.Decimal

namespace Lox

namespace Number

/-! ### Grids -/

/-- The decimal `m · 10 ^ k`. -/
def gridPoint (k : Int) (m : Nat) : Decimal :=
  ⟨m * Nat.pow 10 k.toNat, (-k).toNat⟩

/-- The neighbours of `n` among the multiples of `10 ^ k`, the nearer first and the
upper one first on a tie. -/
def neighbours (n : Number) (k : Int) : List Decimal :=
  let a := n.units * Nat.pow 10 (-k).toNat
  let b := unitsPerOne * Nat.pow 10 k.toNat
  let below := gridPoint k (a / b)
  let above := gridPoint k (a / b + 1)
  if 2 * (a % b) < b then [below, above] else [above, below]

/-- A grid coarser than any on which a multiple reads back as `n`: `10 ^ k` is beyond `n`. -/
def coarsest (n : Number) : Int :=
  let whole := n.units / unitsPerOne
  if whole = 0 then
    let inverse := unitsPerOne / n.units
    1 - (Nat.toDigits 10 inverse).length
  else (Nat.toDigits 10 whole).length

/-- The grids looked at, coarsest first.  Seventeen digits tell all numbers apart, and the
first grids may lie above the leading digit. -/
def grids (n : Number) : List Int :=
  (List.range 20).map fun (i : Nat) => n.coarsest + 1 - i

/-! ### The decimal of a number -/

/-- The decimal that is exactly the magnitude of `n`. -/
def exact (n : Number) : Decimal := ⟨n.units * Nat.pow 5 1074, 1074⟩

/-- The decimal with the fewest digits that reads back as the positive finite number `n`,
the nearest of those, and the larger on a tie. -/
def shortest (n : Number) : Decimal :=
  (n.grids.findSome? fun k => (n.neighbours k).find? fun d => ofDecimal d = n).getD n.exact

/-! ### Text -/

/-- The text of a number's magnitude. -/
def magnitudeText (n : Number) : List Char :=
  if n.isInfinite then "Infinity".toList
  else if n.isZero then ['0']
  else (ofMagnitude n.magnitude).shortest.text

/-- The text of a number: a NaN has no sign, and minus zero keeps its own. -/
def text (n : Number) : String :=
  if n.isNaN then "NaN"
  else String.ofList (if n.isNegative then '-' :: n.magnitudeText else n.magnitudeText)

end Number

end Lox
