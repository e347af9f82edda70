/-
Decimals, and the number nearest to each.

A finite number is a whole count of the smallest unit, 2^-1074: the count is a
significand of at most 53 bits shifted left by a step that is zero for the
numbers nearest zero.  Both are recovered from the pattern by one division,
because consecutive patterns are consecutive numbers — the pattern *is*
`step · 2^52 + significand`.

Rounding runs that equation backwards.  The step is the least one under which the
value has a significand below 2^53, the significand is the nearest integer there
(a tie goes to the even one), and the pattern is their combination.  A significand
that rounds up to 2^53 carries into the next step by itself, and a pattern at or
past infinity's is infinity.
-/
import Lox.Number.Basic

namespace Lox

/-- A decimal without exponent: `coefficient / 10 ^ places`. -/
structure Decimal where
  /-- All digits read as one natural number. -/
  coefficient : Nat
  /-- How many of the digits stand after the point. -/
  places : Nat
deriving DecidableEq, Repr

namespace Decimal

/-- What the coefficient is divided by. -/
def divisor (d : Decimal) : Nat := Nat.pow 10 d.places

/-- The decimal written with these digits before and after the point. -/
def ofDigits (whole fraction : List Char) : Decimal :=
  ⟨Nat.ofDigitChars 10 (whole ++ fraction) 0, fraction.length⟩

/-- The digits of `n`, with zeros in front to make at least `width` of them. -/
def padded (width n : Nat) : List Char :=
  let digits := Nat.toDigits 10 n
  List.replicate (width - digits.length) '0' ++ digits

/-- The decimal's text: always positional, with a point only if digits follow it. -/
def text (d : Decimal) : List Char :=
  let whole := Nat.toDigits 10 (d.coefficient / d.divisor)
  if d.places = 0 then whole
  else whole ++ '.' :: padded d.places (d.coefficient % d.divisor)

end Decimal

namespace Number

/-! ### Counting in the smallest unit -/

/-- The smallest unit is one part in this many. -/
def unitsPerOne : Nat := 1 <<< 1074

/-- How many patterns share a step: 2^52. -/
def patternsPerStep : Nat := 1 <<< 52

/-- How far the significand of a finite number is shifted. -/
def step (n : Number) : Nat := n.magnitude / patternsPerStep - 1

/-- The significand of a finite number, its leading bit included. -/
def significand (n : Number) : Nat := n.magnitude - n.step * patternsPerStep

/-- How many of the smallest unit a finite number measures, its sign apart. -/
def units (n : Number) : Nat := n.significand <<< n.step

/-! ### Rounding

A number of units is given as a fraction, so that decimals need no rounding before this
one.  Rounding up may carry into the leading bit.  As the patterns of one step follow
those of the step below, the sum is right then as well, and infinity is the pattern
behind the last.
-/

/-- The integer nearest to `a / b`; a tie goes to the even one. -/
def nearestEven (a b : Nat) : Nat :=
  let q := a / b
  let r := 2 * (a % b)
  if b < r || (r = b && q % 2 = 1) then q + 1 else q

/-- The least step under which `a / b` units have a significand below 2^53. -/
def stepFor (a b : Nat) : Nat := (a / b).log2 - 52

/-- The number nearest to `a / b` units; infinity if that is out of range. -/
def ofUnits (a b : Nat) : Number :=
  let step := stepFor a b
  ofMagnitude (min infinityBits (step * patternsPerStep + nearestEven a (b <<< step)))

/-- The number nearest to a decimal; infinity if the decimal is out of range. -/
def ofDecimal (d : Decimal) : Number :=
  ofUnits (d.coefficient * unitsPerOne) d.divisor

end Number

end Lox
