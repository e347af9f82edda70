/-
Numbers read back from what is written for them.

A finite number is a count of units, and this count is what rounding starts from: the
step comes back as the position of the leading bit, and the division is exact.  So the
exact decimal of a number is rounded to the number.  The other decimals among which the
shortest is chosen were tried before.

The text of a decimal is digits around a point, as many behind it as there are places,
so it is a numeral of this decimal and of no other.
-/
import Lox.Number.Shortest
import Lox.Proofs.Token.Scanning

namespace Lox

private theorem Decimal.divisor_pos (d : Decimal) : 0 < d.divisor := Nat.pow_pos (by decide)

namespace Number

variable {n : Number} {m : Nat}

/-! ### Signs and magnitudes -/

theorem toNat_ofMagnitude (h : m < signBit) : (ofMagnitude m).bits.toNat = m := by
  have hbits : (UInt64.ofNat m).toNat = m % 2 ^ 64 := UInt64.toNat_ofNat'
  have hlow : signBit = 2 ^ 63 := rfl
  rw [ofMagnitude, hbits]
  omega

private theorem magnitude_ofMagnitude (h : m < signBit) : (ofMagnitude m).magnitude = m := by
  rw [magnitude, toNat_ofMagnitude h, Nat.mod_eq_of_lt h]

private theorem isNegative_ofMagnitude (h : m < signBit) : (ofMagnitude m).isNegative = false := by
  rw [isNegative, toNat_ofMagnitude h]
  exact decide_eq_false h.not_ge

/-- Decimals are read without a sign. -/
theorem isNegative_ofDecimal (d : Decimal) : (ofDecimal d).isNegative = false :=
  isNegative_ofMagnitude (Nat.lt_of_le_of_lt (Nat.min_le_left _ _) (by decide))

private theorem magnitude_lt (n : Number) : n.magnitude < signBit :=
  Nat.mod_lt _ (by decide)

/-- Without a sign a number is its magnitude. -/
theorem ofMagnitude_magnitude (h : n.isNegative = false) : ofMagnitude n.magnitude = n := by
  have hlow : n.bits.toNat < signBit := Nat.not_le.mp (of_decide_eq_false h)
  rw [magnitude, Nat.mod_eq_of_lt hlow, ofMagnitude, UInt64.ofNat_toNat]

/-- The sign bit is added to a magnitude. -/
theorem xor_signBit (h : m < signBit) : m ^^^ signBit = signBit + m := by
  have hsign : signBit = 2 ^ 63 := rfl
  rw [hsign] at h ⊢
  have hdiv : (m ^^^ 2 ^ 63) / 2 ^ 63 = 1 := by
    rw [Nat.xor_div_two_pow, Nat.div_eq_of_lt h, Nat.div_self (by decide), Nat.zero_xor]
  have hmod : (m ^^^ 2 ^ 63) % 2 ^ 63 = m := by
    rw [Nat.xor_mod_two_pow, Nat.mod_eq_of_lt h, Nat.mod_self, Nat.xor_zero]
  omega

/-- A number with a sign is the negation of its magnitude. -/
theorem neg_ofMagnitude_magnitude (h : n.isNegative = true) : -ofMagnitude n.magnitude = n := by
  have hhigh : signBit ≤ n.bits.toNat := of_decide_eq_true h
  have hbits : n.bits.toNat < 2 ^ 64 := n.bits.toNat_lt
  have hflip : (-ofMagnitude n.magnitude).bits.toNat = n.magnitude ^^^ signBit := by
    show (UInt64.ofNat n.magnitude ^^^ UInt64.ofNat signBit).toNat = _
    rw [UInt64.toNat_xor]
    exact congrArg (· ^^^ signBit) (toNat_ofMagnitude n.magnitude_lt)
  have hsame : (-ofMagnitude n.magnitude).bits = n.bits := by
    have hsign : signBit = 2 ^ 63 := rfl
    rw [← UInt64.toNat_inj, hflip, xor_signBit n.magnitude_lt, magnitude, hsign]
    omega
  exact congrArg Number.mk hsame

/-! ### The number of a count of units

Rounding looks for the step at which a count of units has a significand that fits.  For
a count that comes from a number, that step is the number's own, and dividing by it
leaves nothing over, so there is nothing to round.
-/

private theorem step_mul_add_significand (n : Number) :
    n.step * patternsPerStep + n.significand = n.magnitude := by
  have hle : n.step * patternsPerStep ≤ n.magnitude :=
    Nat.le_trans (Nat.mul_le_mul_right _ (Nat.sub_le _ 1)) (Nat.div_mul_le_self _ _)
  rw [significand]
  omega

/-- The leading bit of the units tells the step.  The numbers nearest zero lack it, and they are at
the first step. -/
theorem log2_units (n : Number) : n.units.log2 - 52 = n.step := by
  have hper : patternsPerStep = 2 ^ 52 := rfl
  have hdiv := Nat.div_add_mod n.magnitude (2 ^ 52)
  have hmod := Nat.mod_lt n.magnitude (show 2 ^ 52 > 0 by decide)
  have hstep : n.step = n.magnitude / 2 ^ 52 - 1 := by rw [step, hper]
  have hsum := n.step_mul_add_significand
  have hunits : n.units = n.significand * 2 ^ n.step := Nat.shiftLeft_eq _ _
  rw [hper] at hsum
  by_cases hlow : n.magnitude < 2 ^ 52
  · have hzero : n.step = 0 := by omega
    have hsame : n.units = n.magnitude := by
      rw [hunits, hzero, Nat.pow_zero, Nat.mul_one]
      omega
    by_cases hnone : n.magnitude = 0
    · rw [hsame, hzero, hnone]
      rfl
    · have hlog : n.magnitude.log2 < 52 := (Nat.log2_lt hnone).mpr hlow
      rw [hsame, hzero]
      omega
  · have hleast : 2 ^ 52 ≤ n.significand := by omega
    have hmost : n.significand < 2 ^ 53 := by omega
    have hpos : n.units ≠ 0 := by
      rw [hunits]
      exact (Nat.mul_pos (by omega) (Nat.two_pow_pos n.step)).ne'
    have hlog : n.units.log2 = 52 + n.step := by
      rw [Nat.log2_eq_iff hpos, hunits, Nat.pow_add, Nat.add_right_comm, Nat.pow_add]
      exact ⟨Nat.mul_le_mul_right _ hleast, Nat.mul_lt_mul_of_pos_right hmost (Nat.two_pow_pos _)⟩
    omega

theorem nearestEven_mul (a : Nat) {b : Nat} (hb : 0 < b) : nearestEven (a * b) b = a := by
  have hdiv : a * b / b = a := Nat.mul_div_cancel a hb
  have hmod : a * b % b = 0 := Nat.mul_mod_left a b
  simp [nearestEven, hdiv, hmod, hb.ne]

/-- Units are rounded to the number that measures so many. -/
theorem ofUnits_units (h : n.isFinite = true) {c : Nat} (hc : 0 < c) :
    ofUnits (n.units * c) c = ofMagnitude n.magnitude := by
  have hfinite : n.magnitude < infinityBits := of_decide_eq_true h
  have hstep : stepFor (n.units * c) c = n.step := by
    rw [stepFor, Nat.mul_div_cancel _ hc, log2_units]
  have hexact : n.units * c = n.significand * c <<< n.step := by
    rw [units, Nat.shiftLeft_eq, Nat.shiftLeft_eq, Nat.mul_right_comm, Nat.mul_assoc]
  have hpos : 0 < c <<< n.step := by
    rw [Nat.shiftLeft_eq]
    exact Nat.mul_pos hc (Nat.two_pow_pos _)
  simp only [ofUnits, hstep]
  rw [hexact, nearestEven_mul _ hpos, step_mul_add_significand, Nat.min_eq_right hfinite.le]

/-- A whole count of units is a decimal, since a power of two divides one of ten. -/
theorem ofDecimal_mul_pow {k : Nat} (hk : unitsPerOne = 1 <<< k) (count : Nat) :
    ∃ c > 0, ofDecimal ⟨count * Nat.pow 5 k, k⟩ = ofUnits (count * c) c := by
  have hten : Nat.pow 5 k * 1 <<< k = Nat.pow 10 k := by
    rw [Nat.shiftLeft_eq, Nat.one_mul]
    exact (Nat.mul_pow 5 2 k).symm
  refine ⟨Nat.pow 10 k, Nat.pow_pos (by decide), ?_⟩
  rw [ofDecimal, hk, Nat.mul_assoc, hten]
  rfl

/-- The exact decimal of a number reads back. -/
theorem ofDecimal_exact (h : n.isFinite = true) : ofDecimal n.exact = ofMagnitude n.magnitude := by
  -- The exponent is a name from here on: nothing is to compute a power this large.
  unfold exact
  generalize hk : 1074 = k
  obtain ⟨c, hc, hexact⟩ := ofDecimal_mul_pow (k := k) (by rw [← hk]; rfl) n.units
  rw [hexact, ofUnits_units h hc]

/-- **The shortest decimal of a number reads back.** -/
theorem ofDecimal_shortest (h : n.isFinite = true) (hsign : n.isNegative = false) :
    ofDecimal n.shortest = n := by
  rw [shortest]
  cases hfound : n.grids.findSome? fun k => (n.neighbours k).find? fun d => ofDecimal d = n with
  | none => rw [Option.getD_none, ofDecimal_exact h, ofMagnitude_magnitude hsign]
  | some d =>
      obtain ⟨k, -, hk⟩ := List.exists_of_findSome?_eq_some hfound
      simpa using List.find?_some hk

end Number

/-! ### Decimals written with digits -/

namespace Decimal

private theorem isDigit_of_mem_toDigits {k : Nat} : ∀ c ∈ Nat.toDigits 10 k, IsDigit c :=
  fun _ hc => isDigit_iff.mp (Nat.isDigit_of_mem_toDigits (by decide) (by decide) hc)

private theorem isDigit_of_mem_padded {width k : Nat} : ∀ c ∈ padded width k, IsDigit c := by
  intro c hc
  rcases List.mem_append.mp hc with hzero | hdigit
  · rw [List.eq_of_mem_replicate hzero]
    decide
  · exact isDigit_of_mem_toDigits c hdigit

/-- Zeros in front fill up the width that is missing. -/
theorem length_padded {width k : Nat} (hwidth : 0 < width) (h : k < Nat.pow 10 width) :
    (padded width k).length = width := by
  have hlength := (Nat.length_toDigits_le_iff (b := 10) (by decide) hwidth).mpr h
  rw [padded, List.length_append, List.length_replicate]
  omega

private theorem ofDigitChars_padded (width k : Nat) :
    Nat.ofDigitChars 10 (padded width k) 0 = k := by
  rw [padded, Nat.ofDigitChars_append, Nat.ofDigitChars_replicate_zero, Nat.mul_zero,
    Nat.ofDigitChars_ten_toDigits]

/-- The digits around the point are those of the decimal. -/
theorem ofDigits_toDigits_padded {d : Decimal} (h : 0 < d.places) :
    ofDigits (Nat.toDigits 10 (d.coefficient / d.divisor))
      (padded d.places (d.coefficient % d.divisor)) = d := by
  have hdivisor : d.divisor = 10 ^ d.places := rfl
  have hfits : d.coefficient % d.divisor < Nat.pow 10 d.places := Nat.mod_lt _ d.divisor_pos
  have hlength := length_padded h hfits
  have hcoefficient : Nat.ofDigitChars 10 (Nat.toDigits 10 (d.coefficient / d.divisor) ++
      padded d.places (d.coefficient % d.divisor)) 0 = d.coefficient := by
    rw [Nat.ofDigitChars_append, Nat.ofDigitChars_ten_toDigits,
      Nat.ofDigitChars_eq_ofDigitChars_zero, ofDigitChars_padded, hlength, ← hdivisor,
      Nat.div_add_mod]
  rw [ofDigits, hcoefficient, hlength]

/-- Without places the digits are those of the coefficient. -/
theorem ofDigits_toDigits {d : Decimal} (h : d.places = 0) :
    ofDigits (Nat.toDigits 10 (d.coefficient / d.divisor)) [] = d := by
  obtain ⟨coefficient, places⟩ := d
  cases h
  have hone : divisor ⟨coefficient, 0⟩ = 1 := rfl
  rw [ofDigits, List.append_nil, Nat.ofDigitChars_ten_toDigits, hone, Nat.div_one]
  rfl

/-- The text of a decimal is a numeral for it. -/
theorem numeral_text (d : Decimal) : Numeral d.text d := by
  have hwhole : Nat.toDigits 10 (d.coefficient / d.divisor) ≠ [] := Nat.toDigits_ne_nil
  by_cases hplaces : d.places = 0
  · have hnumeral := Numeral.whole hwhole isDigit_of_mem_toDigits
    rw [ofDigits_toDigits hplaces] at hnumeral
    rwa [text, if_pos hplaces]
  · have hfraction : padded d.places (d.coefficient % d.divisor) ≠ [] :=
      List.append_ne_nil_of_right_ne_nil _ Nat.toDigits_ne_nil
    have hnumeral := Numeral.fraction hwhole isDigit_of_mem_toDigits hfraction isDigit_of_mem_padded
    rw [ofDigits_toDigits_padded (Nat.pos_of_ne_zero hplaces)] at hnumeral
    rwa [text, if_neg hplaces]

end Decimal

/-! ### Numbers written with digits

That finite numbers are told apart by their texts follows from reading back: the sign is
seen at the front, and the digits behind it are a numeral for one magnitude only.
-/

/-- A text is a numeral for one number at most. -/
theorem Numeral.ofDecimal_eq {w : List Char} {d d' : Decimal} (h : Numeral w d)
    (h' : Numeral w d') : Number.ofDecimal d = .ofDecimal d' := by
  rw [← Segment.numberValue_of_numeral h, Segment.numberValue_of_numeral h']

namespace Number

variable {n : Number}

/-- What is written for a finite number apart from its sign is a numeral for its magnitude. -/
theorem exists_numeral (h : n.isFinite = true) :
    ∃ d, Numeral n.magnitudeText d ∧ ofDecimal d = ofMagnitude n.magnitude := by
  have hfinite : n.magnitude < infinityBits := of_decide_eq_true h
  have hinfinite : n.isInfinite = false := decide_eq_false hfinite.ne
  by_cases hzero : n.isZero = true
  · have hmagnitude : n.magnitude = 0 := of_decide_eq_true hzero
    have hnone : ofDecimal (.ofDigits ['0'] []) = ofMagnitude 0 := by decide +kernel
    have hnumeral : Numeral ['0'] (.ofDigits ['0'] []) :=
      .whole (by decide) (List.forall_mem_singleton.mpr (by decide))
    have htext : n.magnitudeText = ['0'] := by simp [magnitudeText, hinfinite, hzero]
    rw [htext, hmagnitude]
    exact ⟨_, hnumeral, hnone⟩
  · have hsame : (ofMagnitude n.magnitude).magnitude = n.magnitude :=
      magnitude_ofMagnitude n.magnitude_lt
    have hfinite' : (ofMagnitude n.magnitude).isFinite = true := by
      rw [isFinite, hsame]
      exact h
    have hsign : (ofMagnitude n.magnitude).isNegative = false :=
      isNegative_ofMagnitude n.magnitude_lt
    have htext : n.magnitudeText = (ofMagnitude n.magnitude).shortest.text := by
      simp [magnitudeText, hinfinite, hzero]
    rw [htext]
    exact ⟨_, Decimal.numeral_text _, ofDecimal_shortest hfinite' hsign⟩

private theorem isNaN_of_isFinite (h : n.isFinite = true) : n.isNaN = false := by
  have hfinite : n.magnitude < infinityBits := of_decide_eq_true h
  exact decide_eq_false hfinite.not_gt

/-- A finite number is written as its magnitude, with a minus sign in front if it has a sign. -/
theorem toList_text (h : n.isFinite = true) :
    n.text.toList = if n.isNegative then '-' :: n.magnitudeText else n.magnitudeText := by
  rw [text, isNaN_of_isFinite h]
  exact String.toList_ofList

private theorem magnitudeText_head (h : n.isFinite = true) : ∃ c more,
    n.magnitudeText = c :: more ∧ IsDigit c := by
  obtain ⟨d, hnumeral, -⟩ := exists_numeral h
  exact Segment.numberText_head ⟨d, hnumeral⟩

theorem ofMagnitude_eq_of_magnitudeText {a b : Number} (ha : a.isFinite = true)
    (hb : b.isFinite = true) (h : a.magnitudeText = b.magnitudeText) :
    ofMagnitude a.magnitude = ofMagnitude b.magnitude := by
  obtain ⟨d, hd, hread⟩ := exists_numeral ha
  obtain ⟨d', hd', hread'⟩ := exists_numeral hb
  rw [← hread, ← hread', hd.ofDecimal_eq (h ▸ hd')]

/-- The text tells whether there is a sign. -/
theorem isNegative_iff (h : n.isFinite = true) :
    n.isNegative = true ↔ n.text.toList.head? = some '-' := by
  obtain ⟨c, more, htext, hc⟩ := magnitudeText_head h
  have hdigit : c ≠ '-' := fun heq => absurd (heq ▸ hc) (by decide)
  rw [toList_text h]
  cases n.isNegative <;> simp [htext, hdigit]

/-- **Finite numbers that are written alike are one number.** -/
theorem text_inj {a b : Number} (ha : a.isFinite = true) (hb : b.isFinite = true)
    (h : a.text = b.text) : a = b := by
  have hsign : a.isNegative = b.isNegative := by
    rw [Bool.eq_iff_iff, isNegative_iff ha, isNegative_iff hb, h]
  have htext : a.text.toList = b.text.toList := by rw [h]
  rw [toList_text ha, toList_text hb, hsign] at htext
  cases hnegative : b.isNegative with
  | false =>
      simp only [hnegative, Bool.false_eq_true, if_false] at htext
      rw [← ofMagnitude_magnitude hnegative, ← ofMagnitude_magnitude (hsign.trans hnegative),
        ofMagnitude_eq_of_magnitudeText ha hb htext]
  | true =>
      simp only [hnegative, if_true, List.cons.injEq, true_and] at htext
      rw [← neg_ofMagnitude_magnitude hnegative,
        ← neg_ofMagnitude_magnitude (hsign.trans hnegative), ofMagnitude_eq_of_magnitudeText ha hb htext]

end Number

end Lox
