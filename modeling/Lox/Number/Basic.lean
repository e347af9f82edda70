/-
The numbers of the language: 64-bit binary floating point, held as a bit pattern.

Whatever distinguishes one number from another — its sign, whether it is a NaN,
whether two of them are equal — is read off the pattern, so it can be reasoned
about as arithmetic on naturals.  Only addition, subtraction, multiplication,
division and the orderings go through the machine's floats.

Two equalities live here.  Structural equality of patterns tells `0` from `-0`
and any NaN from any other; `Number.same` is the floating-point comparison, under
which the two zeros agree and a NaN differs even from itself.
-/

namespace Lox

/-- A 64-bit binary floating-point number, as its bit pattern. -/
structure Number where
  /-- The pattern: sign, eleven exponent bits, fifty-two fraction bits. -/
  bits : UInt64
deriving DecidableEq, Inhabited, Repr

namespace Number

/-! ### Reading the pattern -/

/-- The sign bit alone. -/
def signBit : Nat := 0x8000000000000000

/-- The pattern of positive infinity; the patterns of finite magnitudes are those below it. -/
def infinityBits : Nat := 0x7ff0000000000000

/-- The pattern with the sign bit cleared. -/
def magnitude (n : Number) : Nat := n.bits.toNat % signBit

/-- Is the sign bit set? -/
def isNegative (n : Number) : Bool := signBit ≤ n.bits.toNat

/-- A NaN has a magnitude beyond infinity's. -/
def isNaN (n : Number) : Bool := infinityBits < n.magnitude

/-- One of the two infinities. -/
def isInfinite (n : Number) : Bool := n.magnitude = infinityBits

/-- Neither a NaN nor an infinity. -/
def isFinite (n : Number) : Bool := n.magnitude < infinityBits

/-- One of the two zeros. -/
def isZero (n : Number) : Bool := n.magnitude = 0

/-- The number whose sign bit is clear and whose magnitude is given. -/
def ofMagnitude (m : Nat) : Number := ⟨UInt64.ofNat m⟩

/-! ### Equality -/

/-- The floating-point comparison: a NaN equals nothing, and the zeros equal each other. -/
def same (a b : Number) : Bool :=
  !a.isNaN && !b.isNaN && (a = b || (a.isZero && b.isZero))

/-- Equality of values in the language: as `same`, but every NaN equals every NaN. -/
def equals (a b : Number) : Bool :=
  (a.isNaN && b.isNaN) || a.same b

/-! ### Arithmetic -/

/-- The machine float with this pattern. -/
def toFloat (n : Number) : Float := Float.ofBits n.bits

/-- The number with a machine float's pattern. -/
def ofFloat (x : Float) : Number := ⟨x.toBits⟩

instance : Add Number := ⟨fun a b => ofFloat (a.toFloat + b.toFloat)⟩
instance : Sub Number := ⟨fun a b => ofFloat (a.toFloat - b.toFloat)⟩
instance : Mul Number := ⟨fun a b => ofFloat (a.toFloat * b.toFloat)⟩
instance : Div Number := ⟨fun a b => ofFloat (a.toFloat / b.toFloat)⟩

/-- Negation flips the sign bit and touches nothing else. -/
instance : Neg Number := ⟨fun n => ⟨n.bits ^^^ UInt64.ofNat signBit⟩⟩

/-- Is `a` below `b`?  No comparison with a NaN holds. -/
def less (a b : Number) : Bool := a.toFloat < b.toFloat

/-- Is `a` at most `b`?  No comparison with a NaN holds. -/
def atMost (a b : Number) : Bool := a.toFloat ≤ b.toFloat

end Number

end Lox
