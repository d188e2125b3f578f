import Mathlib.Data.Nat.Cast.Order.Field
import StyleRegistry.Proofs.Number.Digits

/-! # How many digits a number needs

Rounding a number to so many significant digits takes the nearest point on a
grid of decimals, and with each further digit the grid gets ten times finer.
At 17 digits half its spacing is less than the shorter half of any number's
interval, so the search for digits that read back ends at the latest there, and
with the first count of digits whose rounding reads back. -/
namespace StyleRegistry

variable {x : Binary64} {d : Decimal}

/-! ## Absolute values -/

namespace Binary64

theorem one_pos : 0 < one := by decide +kernel

theorem cast_one_pos : (0 : ℚ) < one := by exact_mod_cast one_pos

/-- The absolute value. -/
def size (x : Binary64) : ℚ := x.magnitude / one

theorem size_mul_one (x : Binary64) : x.size * one = x.magnitude :=
  div_mul_cancel₀ _ (by exact_mod_cast one_pos.ne')

end Binary64

namespace Decimal

open Binary64 (one)

theorem units_sub_magnitude (d : Decimal) (x : Binary64) :
    |d.units - x.magnitude| = |d.value - x.size| * one := by
  have hone := Binary64.cast_one_pos
  rw [units, ← x.size_mul_one, ← sub_mul, abs_mul, abs_of_pos hone]

/-! ## The leading place -/

theorem placeBelowOne_spec {den : ℕ} (steps : ℕ) {num : ℕ} (hlt : num < den)
    (hle : den ≤ 10 ^ (steps + 1) * num) :
    (10 : ℚ) ^ placeBelowOne den steps num * den ≤ num ∧
      (num : ℚ) < 10 ^ (placeBelowOne den steps num + 1) * den := by
  have hlast : ∀ num : ℕ, num < den → den ≤ 10 * num →
      (10 : ℚ) ^ (-1 : ℤ) * den ≤ num ∧ (num : ℚ) < 10 ^ (-1 + 1 : ℤ) * den := by
    intro num hlt hle
    have hlt' : (num : ℚ) < den := by exact_mod_cast hlt
    have hle' : (den : ℚ) ≤ 10 * num := by exact_mod_cast hle
    constructor
    · rw [zpow_neg_one]
      linarith
    · rw [neg_add_cancel, zpow_zero]
      linarith
  induction steps generalizing num with
  | zero => exact hlast num hlt (by simpa using hle)
  | succ steps ih =>
    unfold placeBelowOne
    split
    · rename_i h
      exact hlast num hlt h
    · rename_i h
      have hstep := ih (Nat.lt_of_not_le h) (by
        rw [← mul_assoc, ← pow_succ]
        exact hle)
      rw [sub_add_cancel]
      push_cast at hstep
      generalize placeBelowOne den steps (10 * num) = p at hstep ⊢
      rw [zpow_add_one₀ (by norm_num)] at hstep
      rw [zpow_sub_one₀ (by norm_num)]
      constructor <;> linarith [hstep.1, hstep.2]

/-- The leading place of a number is that of its absolute value. -/
theorem leadingPlace_spec (h : x.magnitude ≠ 0) :
    (10 : ℚ) ^ leadingPlace x ≤ x.size ∧ x.size < 10 ^ (leadingPlace x + 1) := by
  have hone := Binary64.cast_one_pos
  unfold leadingPlace
  split
  · rename_i hle
    have hne : x.magnitude / one ≠ 0 := Nat.ne_of_gt (Nat.div_pos hle Binary64.one_pos)
    have hplace := place_spec (d := ⟨x.magnitude / one, 0⟩) hne
    have hvalue : (⟨x.magnitude / one, 0⟩ : Decimal).value = (x.magnitude / one : ℕ) := by
      rw [value, zpow_zero, mul_one]
    rw [hvalue] at hplace
    refine ⟨hplace.1.trans Nat.cast_div_le, ?_⟩
    -- The place is that of the whole part, and the next power of ten is whole.
    have hwhole : 0 ≤ place ⟨x.magnitude / one, 0⟩ := by
      have hlen := length_digits (d := ⟨x.magnitude / one, 0⟩) hne
      rw [place]
      simp only [zero_add]
      omega
    obtain ⟨n, hn⟩ := Int.eq_ofNat_of_zero_le hwhole
    rw [hn] at hplace ⊢
    have hpow : (10 : ℚ) ^ ((n : ℤ) + 1) = ((10 ^ (n + 1) : ℕ) : ℚ) := by
      push_cast
      rw [← zpow_natCast]
      push_cast
      rfl
    rw [hpow, Nat.cast_lt, Nat.div_lt_iff_lt_mul Binary64.one_pos] at hplace
    rw [hpow, Binary64.size, div_lt_iff₀ hone]
    exact_mod_cast hplace.2
  · rename_i hlt
    have hfine : one ≤ 10 ^ (323 + 1) * x.magnitude :=
      calc one ≤ 10 ^ (323 + 1) := by decide +kernel
        _ ≤ 10 ^ (323 + 1) * x.magnitude := Nat.le_mul_of_pos_right _ (Nat.pos_of_ne_zero h)
    obtain ⟨hlow, hhigh⟩ := placeBelowOne_spec 323 (Nat.lt_of_not_le hlt) hfine
    rw [Binary64.size]
    exact ⟨(le_div_iff₀ hone).mpr hlow, (div_lt_iff₀ hone).mpr hhigh⟩

section Bounds

variable {n : ℕ} (h : x.magnitude ≠ 0)
include h

theorem leadingPlace_lt (hn : x.magnitude < 10 ^ n * one) : leadingPlace x < n := by
  have hone := Binary64.cast_one_pos
  have hlt : x.size < 10 ^ (n : ℤ) := by
    rw [Binary64.size, div_lt_iff₀ hone, zpow_natCast]
    exact_mod_cast hn
  exact (zpow_lt_zpow_iff_right₀ (by norm_num)).mp ((leadingPlace_spec h).1.trans_lt hlt)

theorem le_leadingPlace (hn : 10 ^ n * one ≤ x.magnitude) : n ≤ leadingPlace x := by
  have hone := Binary64.cast_one_pos
  have hle : 10 ^ (n : ℤ) ≤ x.size := by
    rw [Binary64.size, le_div_iff₀ hone, zpow_natCast]
    exact_mod_cast hn
  exact Int.le_of_lt_add_one ((zpow_lt_zpow_iff_right₀ (by norm_num)).mp
    (hle.trans_lt (leadingPlace_spec h).2))

theorem neg_le_leadingPlace (hn : one ≤ 10 ^ n * x.magnitude) : -n ≤ leadingPlace x := by
  have hone := Binary64.cast_one_pos
  have hle : 10 ^ (-n : ℤ) ≤ x.size := by
    rw [Binary64.size, le_div_iff₀ hone, zpow_neg, zpow_natCast, inv_mul_le_iff₀ (by positivity)]
    exact_mod_cast hn
  exact Int.le_of_lt_add_one ((zpow_lt_zpow_iff_right₀ (by norm_num)).mp
    (hle.trans_lt (leadingPlace_spec h).2))

end Bounds

/-! ## The nearest decimal -/

/-- A number is rounded to the nearest point of a decimal grid. -/
theorem nearest_spec (x : Binary64) (scale : ℤ) :
    NearestInt (x.size / 10 ^ scale) (nearest x scale).coefficient := by
  unfold nearest
  split
  · rename_i h
    have hnear := roundDiv_nearest x.magnitude
      (Nat.mul_pos Binary64.one_pos (by positivity : 0 < 10 ^ scale.toNat))
    have hscale : (10 : ℚ) ^ scale = 10 ^ scale.toNat := by
      rw [← zpow_natCast, Int.toNat_of_nonneg h]
    rw [Nat.pow_eq, hscale, Binary64.size, div_div]
    push_cast at hnear
    dsimp only
    exact hnear
  · rename_i h
    have hnear := roundDiv_nearest (x.magnitude * 10 ^ (-scale).toNat) Binary64.one_pos
    have hscale : (10 : ℚ) ^ scale = (10 ^ (-scale).toNat)⁻¹ := by
      rw [← zpow_natCast, ← zpow_neg, Int.toNat_of_nonneg (by omega), neg_neg]
    rw [Nat.pow_eq, hscale, Binary64.size, div_inv_eq_mul, div_mul_eq_mul_div]
    push_cast at hnear
    dsimp only
    exact hnear

@[simp] theorem scale_nearest (x : Binary64) (scale : ℤ) : (nearest x scale).scale = scale := by
  unfold nearest
  split <;> rfl

section Rounded

variable (x : Binary64) (precision : ℕ)

@[simp] theorem scale_rounded :
    (rounded x precision).scale = leadingPlace x - precision + 1 := scale_nearest x _

theorem rounded_spec : NearestInt (x.size / 10 ^ (rounded x precision).scale)
    (rounded x precision).coefficient := by
  rw [scale_rounded]
  exact nearest_spec x _

/-- No point of the grid is nearer than the rounding. -/
theorem rounded_nearest (n : ℕ) :
    |(rounded x precision).value - x.size| ≤ |n * 10 ^ (rounded x precision).scale - x.size| := by
  have hpos : (0 : ℚ) < 10 ^ (rounded x precision).scale := by positivity
  have hscaled : ∀ n : ℕ, |(n : ℚ) * 10 ^ (rounded x precision).scale - x.size| =
      |x.size / 10 ^ (rounded x precision).scale - n| * 10 ^ (rounded x precision).scale :=
      fun n => by
    rw [← abs_of_pos hpos, ← abs_mul, abs_of_pos hpos, sub_mul, div_mul_cancel₀ _ hpos.ne',
      abs_sub_comm]
  rw [value, hscaled, hscaled]
  exact mul_le_mul_of_nonneg_right ((rounded_spec x precision).abs_sub_le n) hpos.le

/-- The rounding is off by at most half the spacing of the grid. -/
theorem rounded_close :
    |(rounded x precision).value - x.size| ≤ 10 ^ (rounded x precision).scale / 2 := by
  have hpos : (0 : ℚ) < 10 ^ (rounded x precision).scale := by positivity
  have hnear := (NearestInt.div_iff hpos).mp (rounded_spec x precision)
  rw [value, abs_le]
  constructor <;> linarith [hnear.1.1, hnear.1.2]

variable {x precision}

/-- The coefficient has as many digits as the precision, or is the next power of ten. -/
theorem coefficient_rounded (h : x.magnitude ≠ 0) (hp : 1 ≤ precision) :
    10 ^ (precision - 1) ≤ (rounded x precision).coefficient ∧
      (rounded x precision).coefficient ≤ 10 ^ precision := by
  have hspec := rounded_spec x precision
  have hplace := leadingPlace_spec h
  have hpos : (0 : ℚ) < 10 ^ (rounded x precision).scale := by positivity
  have hpow : ∀ n : ℕ, ((10 ^ n : ℕ) : ℚ) * 10 ^ (rounded x precision).scale =
      10 ^ (leadingPlace x - precision + 1 + n) := fun n => by
    rw [scale_rounded, zpow_add₀ (by norm_num) _ (n : ℤ), zpow_natCast]
    push_cast
    ring
  constructor
  · refine hspec.ge_of_ge ((le_div_iff₀ hpos).mpr ?_)
    rw [hpow, show leadingPlace x - precision + 1 + (precision - 1 : ℕ) = leadingPlace x by omega]
    exact hplace.1
  · refine hspec.le_of_le ((div_le_iff₀ hpos).mpr ?_)
    rw [hpow, show leadingPlace x - precision + 1 + (precision : ℕ) = leadingPlace x + 1 by omega]
    exact hplace.2.le

theorem coefficient_rounded_ne_zero (h : x.magnitude ≠ 0) (hp : 1 ≤ precision) :
    (rounded x precision).coefficient ≠ 0 :=
  Nat.ne_of_gt (Nat.lt_of_lt_of_le (by positivity) (coefficient_rounded h hp).1)

/-- Rounding takes a number at most to the next place. -/
theorem place_rounded (h : x.magnitude ≠ 0) (hp : 1 ≤ precision) :
    (rounded x precision).place = leadingPlace x ∨
      (rounded x precision).place = leadingPlace x + 1 ∧
        (rounded x precision).coefficient = 10 ^ precision := by
  obtain ⟨hlow, hhigh⟩ := coefficient_rounded h hp
  have hne := coefficient_rounded_ne_zero h hp
  have hlen : (rounded x precision).digits.length =
      (Nat.digits 10 (rounded x precision).coefficient).length := by
    rw [digits_eq, List.length_reverse]
  rw [place, hlen, scale_rounded]
  rcases Nat.lt_or_eq_of_le hhigh with hlt | he
  · left
    have hle := (Nat.digits_length_le_iff (by decide : 1 < 10) _).mpr hlt
    have hge := (Nat.lt_digits_length_iff (by decide : 1 < 10) _).mpr hlow
    omega
  · refine .inr ⟨?_, he⟩
    have hle := (Nat.digits_length_le_iff (by decide : 1 < 10) (k := precision + 1) _).mpr
      (he ▸ Nat.pow_lt_pow_right (by decide) (Nat.lt_succ_self _))
    have hge := (Nat.lt_digits_length_iff (by decide : 1 < 10) _).mpr he.ge
    omega

theorem length_significant_rounded (h : x.magnitude ≠ 0) (hp : 1 ≤ precision) :
    (rounded x precision).significant.length ≤ precision :=
  length_significant_le_of_le (coefficient_rounded_ne_zero h hp) hp (coefficient_rounded h hp).2

end Rounded
/-! ## Enough digits -/

theorem covers_of_close (h : |d.units - x.magnitude| < x.ulpBelow / 2) : x.Covers d.units := by
  have hbelow : (x.ulpBelow : ℚ) ≤ x.ulp := by exact_mod_cast x.ulpBelow_le
  obtain ⟨hlow, hhigh⟩ := abs_lt.mp h
  refine ⟨by linarith, by linarith, ?_⟩
  rintro (he | he) <;> linarith

/-- A number has at most 2^53 of the steps below it. -/
theorem magnitude_le (x : Binary64) : x.magnitude ≤ 2 ^ 53 * x.ulpBelow := by
  rcases x.ulpBelow_cases with ⟨hsig, j, -, hulp, hbelow⟩ | ⟨hbelow, -⟩
  · rw [Binary64.magnitude, hsig, hulp, hbelow, ← mul_assoc]
    exact Nat.mul_le_mul_right _ (by decide)
  · rw [hbelow]
    exact Nat.mul_le_mul_right _ x.scaled.short.le

theorem covers_rounded_17 (h : x.magnitude ≠ 0) : x.Covers (rounded x 17).units := by
  have hone := Binary64.cast_one_pos
  have hclose := mul_le_mul_of_nonneg_right (rounded_close x 17) hone.le
  rw [← units_sub_magnitude, scale_rounded] at hclose
  have hgrid : (10 : ℚ) ^ (leadingPlace x - (17 : ℕ) + 1) * 10 ^ 16 ≤ x.size := by
    rw [← zpow_natCast, ← zpow_add₀ (by norm_num)]
    refine le_of_eq_of_le (congrArg _ ?_) (leadingPlace_spec h).1
    push_cast
    ring
  have hsize := mul_le_mul_of_nonneg_right hgrid hone.le
  rw [x.size_mul_one] at hsize
  have hsteps : (x.magnitude : ℚ) ≤ 2 ^ 53 * x.ulpBelow := by exact_mod_cast magnitude_le x
  have hpos : (0 : ℚ) < x.ulpBelow := by exact_mod_cast x.ulpBelow_pos
  generalize (10 : ℚ) ^ (leadingPlace x - (17 : ℕ) + 1) = spacing at hclose hsize
  exact covers_of_close (by linarith)

/-- The search ends with the first precision whose rounding reads back, or with
the last one. -/
theorem searchFrom_spec (x : Binary64) (left precision : ℕ) :
    ∃ p, precision ≤ p ∧ p ≤ precision + left ∧ searchFrom x left precision = rounded x p ∧
      (p < precision + left → (rounded x p).readsBack x = true) ∧
      ∀ q, precision ≤ q → q < p → (rounded x q).readsBack x = false := by
  induction left generalizing precision with
  | zero =>
    exact ⟨precision, le_refl _, le_refl _, rfl, fun h => absurd h (lt_irrefl _),
      fun q hq hlt => absurd hlt (not_lt.mpr hq)⟩
  | succ left ih =>
    unfold searchFrom
    split
    · rename_i h
      exact ⟨precision, le_refl _, Nat.le_add_right _ _, rfl, fun _ => h,
        fun q hq hlt => absurd hlt (not_lt.mpr hq)⟩
    · rename_i h
      obtain ⟨p, hle, hbound, he, hback, hmin⟩ := ih (precision + 1)
      refine ⟨p, by omega, by omega, he, fun hlt => hback (by omega), fun q hq hlt => ?_⟩
      rcases Nat.eq_or_lt_of_le hq with rfl | hq
      · simpa using h
      · exact hmin q hq hlt

/-- **The fewest digits that round back.** The decimal found is the rounding to
some precision of at most 17 digits; it lies in the number's interval, and the
rounding to any smaller precision does not. -/
theorem roundTrip_spec (h : x.magnitude ≠ 0) :
    ∃ p, 1 ≤ p ∧ p ≤ 17 ∧ roundTrip x = rounded x p ∧ x.Covers (rounded x p).units ∧
      ∀ q, 1 ≤ q → q < p → ¬ x.Covers (rounded x q).units := by
  obtain ⟨p, hle, hbound, he, hback, hmin⟩ := searchFrom_spec x 16 1
  refine ⟨p, hle, hbound, he, ?_, fun q hq hlt hc => ?_⟩
  · rcases Nat.lt_or_eq_of_le hbound with hlt | rfl
    · exact (Binary64.readsBack_iff h).mp (hback hlt)
    · exact covers_rounded_17 h
  · rw [← Binary64.readsBack_iff h, hmin q hq hlt] at hc
    cases hc

end Decimal
end StyleRegistry
