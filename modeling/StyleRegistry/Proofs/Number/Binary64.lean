import Mathlib.Data.Nat.Log
import Mathlib.Tactic.Ring
import Mathlib.Tactic.Linarith
import StyleRegistry.Number.Binary64

/-! # The scale of binary numbers

Finite magnitudes are the products of a significand of at most 53 bits and a
step, a power of two, where the significand uses all its bits unless the step
is the least one. Such a product has one significand and one step, so a number
can be put together from its sign and its magnitude. -/
namespace StyleRegistry.Binary64

variable {x y : Binary64}

def isFinite (x : Binary64) : Bool := x.exponent != 2047

theorem exponent_of_isFinite (h : x.isFinite = true) : x.exponent ≠ 2047 := by
  simpa [isFinite] using h

theorem isFinite_iff : x.isFinite = true ↔ x.isNaN = false ∧ x.isInfinite = false := by
  by_cases he : x.exponent = 2047 <;> simp [isFinite, isNaN, isInfinite, he]

/-! ## The fields -/

theorem exponent_lt (x : Binary64) : x.exponent < 2048 := Nat.mod_lt _ (by decide)

theorem fraction_lt (x : Binary64) : x.fraction < 2 ^ 52 := Nat.mod_lt _ (by decide)

theorem toNat_bits (x : Binary64) :
    x.bits.toNat = (if x.negative then 2 ^ 63 else 0) + x.exponent * 2 ^ 52 + x.fraction := by
  have hlt := x.bits.toNat_lt
  simp only [negative, exponent, fraction, Nat.pow_eq, decide_eq_true_eq]
  split <;> omega

theorem eq_of_fields (hn : x.negative = y.negative) (he : x.exponent = y.exponent)
    (hf : x.fraction = y.fraction) : x = y := by
  have hbits : x.bits.toNat = y.bits.toNat := by rw [toNat_bits, toNat_bits, hn, he, hf]
  cases x
  cases y
  exact congrArg mk (UInt64.toNat_inj.mp hbits)

/-! ## Significands and steps -/

/-- A significand and the exponent of its step. -/
structure Scaled (k j : Nat) : Prop where
  short : k < 2 ^ 53
  full : j = 0 ∨ 2 ^ 52 ≤ k

theorem scaled (x : Binary64) : Scaled x.significand (x.exponent - 1) := by
  have hf := x.fraction_lt
  constructor
  · simp only [significand, Nat.pow_eq]
    split <;> omega
  · by_cases he : x.exponent = 0
    · exact .inl (by omega)
    · refine .inr ?_
      rw [significand, if_neg he]
      exact Nat.le_add_right _ _

theorem ulp_pos (x : Binary64) : 0 < x.ulp := Nat.two_pow_pos _

theorem magnitude_eq (x : Binary64) : x.magnitude = x.significand * 2 ^ (x.exponent - 1) := rfl

/-- The exponent of the step between numbers of about `n` units. -/
def stepOf (n : Nat) : Nat := n.log2 - 52

theorem stepOf_spec (n : Nat) :
    stepOf n = 0 ∧ n < 2 ^ 53 ∨ 2 ^ 52 * 2 ^ stepOf n ≤ n ∧ n < 2 ^ 53 * 2 ^ stepOf n := by
  have hlt : n < 2 ^ (n.log2 + 1) := Nat.lt_log2_self
  by_cases h : n.log2 ≤ 52
  · exact .inl ⟨Nat.sub_eq_zero_of_le h,
      Nat.lt_of_lt_of_le hlt (Nat.pow_le_pow_right (by decide) (by omega))⟩
  · have hne : n ≠ 0 := by
      rintro rfl
      exact h (by decide)
    refine .inr ⟨?_, ?_⟩
    · rw [← Nat.pow_add, show 52 + stepOf n = n.log2 from Nat.add_sub_cancel' (by omega)]
      exact Nat.log2_self_le hne
    · rw [← Nat.pow_add, show 53 + stepOf n = n.log2 + 1 by unfold stepOf; omega]
      exact hlt

theorem stepOf_eq {n j : Nat} (h : j = 0 ∧ n < 2 ^ 53 ∨ 2 ^ 52 * 2 ^ j ≤ n ∧ n < 2 ^ 53 * 2 ^ j) :
    stepOf n = j := by
  rcases h with ⟨rfl, hlt⟩ | ⟨hle, hlt⟩
  · by_cases hn : n = 0
    · rw [hn]
      rfl
    · exact Nat.sub_eq_zero_of_le (Nat.lt_succ_iff.mp ((Nat.log2_lt hn).mpr hlt))
  · have hn : n ≠ 0 := Nat.ne_of_gt (Nat.lt_of_lt_of_le (by positivity) hle)
    rw [← Nat.pow_add] at hle hlt
    have hlow := (Nat.le_log2 hn).mpr hle
    have hhigh := (Nat.log2_lt hn).mpr hlt
    unfold stepOf
    omega

theorem Scaled.stepOf_eq {k j : Nat} (h : Scaled k j) : stepOf (k * 2 ^ j) = j := by
  refine Binary64.stepOf_eq ?_
  have hpos := Nat.two_pow_pos j
  rcases h.full with rfl | hle
  · exact .inl ⟨rfl, by simpa using h.short⟩
  · exact .inr ⟨Nat.mul_le_mul_right _ hle, Nat.mul_lt_mul_of_pos_right h.short hpos⟩

/-- A magnitude has one significand and one step. -/
theorem Scaled.unique {k j k' j' : Nat} (h : Scaled k j) (h' : Scaled k' j')
    (he : k * 2 ^ j = k' * 2 ^ j') : k = k' ∧ j = j' := by
  obtain rfl : j = j' := by rw [← h.stepOf_eq, he, h'.stepOf_eq]
  exact ⟨Nat.eq_of_mul_eq_mul_right (Nat.two_pow_pos j) he, rfl⟩

/-! ## From a magnitude -/

/-- The number with a sign and with the two other fields taken from `code`. -/
def pack (negative : Bool) (code : Nat) : Binary64 :=
  ⟨UInt64.ofNat ((if negative then 2 ^ 63 else 0) + code)⟩

section Pack

variable {code : Nat} (h : code < 2 ^ 63) (negative : Bool)
include h

theorem toNat_bits_pack :
    (pack negative code).bits.toNat = (if negative then 2 ^ 63 else 0) + code := by
  refine UInt64.toNat_ofNat_of_lt' ?_
  cases negative <;> simp only [Bool.false_eq_true, if_true, if_false, UInt64.size] <;> omega

theorem negative_pack : (pack negative code).negative = negative := by
  rw [Binary64.negative, toNat_bits_pack h, Nat.pow_eq]
  cases negative
  · simpa using h
  · simp

theorem exponent_pack : (pack negative code).exponent = code / 2 ^ 52 := by
  rw [exponent, toNat_bits_pack h]
  simp only [Nat.pow_eq]
  cases negative <;> simp only [Bool.false_eq_true, if_true, if_false] <;> omega

theorem fraction_pack : (pack negative code).fraction = code % 2 ^ 52 := by
  rw [fraction, toNat_bits_pack h]
  simp only [Nat.pow_eq]
  cases negative <;> simp only [Bool.false_eq_true, if_true, if_false] <;> omega

end Pack

/-- The exponent and the fraction of a magnitude, infinite above all finite ones. -/
def codeOf (n : Nat) : Nat := min (stepOf n * 2 ^ 52 + n / 2 ^ stepOf n) (2047 * 2 ^ 52)

/-- The number with a sign and a magnitude. -/
def ofMagnitude (negative : Bool) (n : Nat) : Binary64 := pack negative (codeOf n)

theorem codeOf_lt (n : Nat) : codeOf n < 2 ^ 63 :=
  Nat.lt_of_le_of_lt (Nat.min_le_right _ _) (by decide)

theorem Scaled.codeOf_eq {k j : Nat} (h : Scaled k j) (hj : j ≤ 2045) :
    codeOf (k * 2 ^ j) = j * 2 ^ 52 + k := by
  have hshort := h.short
  rw [codeOf, h.stepOf_eq, Nat.mul_div_cancel _ (Nat.two_pow_pos j)]
  exact Nat.min_eq_left (by omega)

@[simp] theorem negative_ofMagnitude (negative : Bool) (n : Nat) :
    (ofMagnitude negative n).negative = negative := negative_pack (codeOf_lt n) negative

theorem ofMagnitude_self (h : x.isFinite = true) : ofMagnitude x.negative x.magnitude = x := by
  have hexp := x.exponent_lt
  have hne := exponent_of_isFinite h
  have hf := x.fraction_lt
  have hcode : codeOf x.magnitude = x.exponent * 2 ^ 52 + x.fraction := by
    rw [magnitude_eq, x.scaled.codeOf_eq (by omega), significand, Nat.pow_eq]
    split <;> omega
  refine eq_of_fields (negative_ofMagnitude _ _) ?_ ?_
  · rw [ofMagnitude, exponent_pack (codeOf_lt _), hcode]
    omega
  · rw [ofMagnitude, fraction_pack (codeOf_lt _), hcode]
    omega

/-- Finite numbers of one sign are told apart by their magnitudes. -/
theorem eq_of_magnitude (hx : x.isFinite = true) (hy : y.isFinite = true)
    (hn : x.negative = y.negative) (hm : x.magnitude = y.magnitude) : x = y := by
  rw [← ofMagnitude_self hx, ← ofMagnitude_self hy, hn, hm]

/-- Steps beyond the last finite one give an infinity. -/
theorem Scaled.le_of_isFinite {k j : Nat} (h : Scaled k j) {negative : Bool}
    (hfin : (ofMagnitude negative (k * 2 ^ j)).isFinite = true) : j ≤ 2045 := by
  refine Nat.le_of_not_lt fun hj => exponent_of_isFinite hfin ?_
  have hfull := h.full.resolve_left (by omega)
  have hcode : codeOf (k * 2 ^ j) = 2047 * 2 ^ 52 := by
    rw [codeOf, h.stepOf_eq, Nat.mul_div_cancel _ (Nat.two_pow_pos j)]
    exact Nat.min_eq_right (by omega)
  rw [ofMagnitude, exponent_pack (codeOf_lt _), hcode]
  decide

theorem magnitude_ofMagnitude {k j : Nat} (h : Scaled k j) {negative : Bool}
    (hfin : (ofMagnitude negative (k * 2 ^ j)).isFinite = true) :
    (ofMagnitude negative (k * 2 ^ j)).magnitude = k * 2 ^ j := by
  have hshort := h.short
  have hj := h.le_of_isFinite hfin
  have he : (ofMagnitude negative (k * 2 ^ j)).exponent = (j * 2 ^ 52 + k) / 2 ^ 52 := by
    rw [ofMagnitude, exponent_pack (codeOf_lt _), h.codeOf_eq hj]
  have hf : (ofMagnitude negative (k * 2 ^ j)).fraction = (j * 2 ^ 52 + k) % 2 ^ 52 := by
    rw [ofMagnitude, fraction_pack (codeOf_lt _), h.codeOf_eq hj]
  rw [magnitude_eq, significand, he, hf, Nat.pow_eq]
  by_cases hk : k < 2 ^ 52
  · obtain rfl : j = 0 := h.full.resolve_right (by omega)
    rw [Nat.zero_mul, Nat.zero_add, Nat.div_eq_of_lt hk, Nat.mod_eq_of_lt hk]
    rfl
  · rw [show (j * 2 ^ 52 + k) / 2 ^ 52 = j + 1 by omega,
      show (j * 2 ^ 52 + k) % 2 ^ 52 = k - 2 ^ 52 by omega, if_neg (Nat.succ_ne_zero j),
      Nat.add_sub_cancel, Nat.add_sub_cancel' (by omega)]

/-! ## Numerical equality -/

/-- A magnitude of a finite number is no infinity's. -/
theorem isFinite_of_magnitude_eq (hy : y.isFinite = true) (h : x.magnitude = y.magnitude) :
    x.isFinite = true := by
  have hstep := (x.scaled.unique y.scaled h).2
  have hne := exponent_of_isFinite hy
  rw [isFinite, bne_iff_ne]
  omega

/-- A number equal to a finite one is the same, unless both are zeros. -/
theorem numEq_iff (hy : y.isFinite = true) :
    x.numEq y = true ↔ x.isNaN = false ∧ (x = y ∨ x.magnitude = 0 ∧ y.magnitude = 0) := by
  have hunits : x.units = y.units ↔ x.magnitude = y.magnitude ∧ x.negative = y.negative ∨
      x.magnitude = 0 ∧ y.magnitude = 0 := by
    unfold units
    cases x.negative <;> cases y.negative <;> simp <;> omega
  rw [numEq, Bool.and_eq_true, Bool.and_eq_true, beq_iff_eq, hunits, (isFinite_iff.mp hy).1]
  simp only [Bool.not_eq_true', Bool.not_false, and_true]
  refine and_congr_right fun _ => or_congr_left ⟨fun ⟨hm, hn⟩ => ?_, fun h => by rw [h]; simp⟩
  exact eq_of_magnitude (isFinite_of_magnitude_eq hy hm) hy hn hm

end StyleRegistry.Binary64
