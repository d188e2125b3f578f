import Mathlib.Algebra.Order.Field.Power
import Mathlib.Data.Rat.Cast.Order
import Mathlib.Tactic.FieldSimp
import Mathlib.Tactic.Positivity
import StyleRegistry.Number.Decimal
import StyleRegistry.Proofs.Number.Binary64

/-! # Rounding a decimal

A decimal rounds to the binary number nearest to it and, between two that are
equally near, to the one with the even significand. The step between numbers of
its size is known from its whole part, and rounding is to the nearest multiple
of that step. The decimals that round to one number fill an interval around it,
which is the one that reading back tests; it is shorter below a power of two,
where the step changes. -/
namespace StyleRegistry

/-! ## Nearest integers -/

/-- `k` is the integer nearest to `r`; where two are, it is the even one. -/
structure NearestInt (r : ℚ) (k : ℕ) : Prop where
  close : |r - k| ≤ 1 / 2
  even : |r - k| = 1 / 2 → k % 2 = 0

namespace NearestInt

variable {r : ℚ} {k : ℕ}

theorem le_of_le (h : NearestInt r k) {n : ℕ} (hn : r ≤ n) : k ≤ n := by
  have hlow := (abs_le.mp h.close).1
  have hlt : (k : ℚ) < n + 1 := by linarith
  exact Nat.lt_succ_iff.mp (by exact_mod_cast hlt)

theorem ge_of_ge (h : NearestInt r k) {n : ℕ} (hn : (n : ℚ) ≤ r) : n ≤ k := by
  have hhigh := (abs_le.mp h.close).2
  have hlt : (n : ℚ) < k + 1 := by linarith
  exact Nat.lt_succ_iff.mp (by exact_mod_cast hlt)

theorem abs_sub_le (h : NearestInt r k) (n : ℕ) : |r - k| ≤ |r - n| := by
  rcases Nat.lt_trichotomy n k with hlt | rfl | hlt
  · have hle : (n : ℚ) + 1 ≤ k := by exact_mod_cast hlt
    have hhalf := abs_le.mp h.close
    exact h.close.trans ((by linarith : (1 : ℚ) / 2 ≤ r - n).trans (le_abs_self _))
  · exact le_refl _
  · have hle : (k : ℚ) + 1 ≤ n := by exact_mod_cast hlt
    have hhalf := abs_le.mp h.close
    exact h.close.trans ((by linarith : (1 : ℚ) / 2 ≤ -(r - n)).trans (neg_le_abs _))

theorem unique (h : NearestInt r k) {n : ℕ} (hn : NearestInt r n) : k = n := by
  by_contra hne
  wlog hlt : k < n generalizing k n with hsymm
  · exact hsymm hn h (Ne.symm hne) (by omega)
  have hle : (k : ℚ) + 1 ≤ n := by exact_mod_cast hlt
  have hlow := abs_le.mp h.close
  have hhigh := abs_le.mp hn.close
  -- Both lie half a unit away, so they are neighbours, and both are even.
  have hk : r - k = 1 / 2 := by linarith
  have hn' : r - n = -(1 / 2) := by linarith
  have hnext : (n : ℚ) = k + 1 := by linarith
  have hnat : n = k + 1 := by exact_mod_cast hnext
  have heven := h.even (by rw [hk]; norm_num)
  have heven' := hn.even (by rw [hn']; norm_num)
  omega

/-- Nearest multiples of a step. -/
theorem div_iff {u s : ℚ} (hs : 0 < s) : NearestInt (u / s) k ↔
    (k * s - s / 2 ≤ u ∧ u ≤ k * s + s / 2) ∧
      (u = k * s - s / 2 ∨ u = k * s + s / 2 → k % 2 = 0) := by
  have hdist : u / s - k = (u - k * s) / s := by rw [sub_div, mul_div_cancel_right₀ _ hs.ne']
  have hclose : |u / s - k| ≤ 1 / 2 ↔ k * s - s / 2 ≤ u ∧ u ≤ k * s + s / 2 := by
    rw [hdist, abs_div, abs_of_pos hs, div_le_iff₀ hs, abs_le]
    constructor <;> rintro ⟨hl, hr⟩ <;> constructor <;> linarith
  have htie : |u / s - k| = 1 / 2 ↔ u = k * s - s / 2 ∨ u = k * s + s / 2 := by
    rw [hdist, abs_div, abs_of_pos hs, div_eq_iff hs.ne', abs_eq (by positivity), or_comm]
    refine or_congr ?_ ?_ <;> constructor <;> intro h <;> linarith
  exact ⟨fun h => ⟨hclose.mp h.close, fun he => h.even (htie.mpr he)⟩,
    fun h => ⟨hclose.mpr h.1, fun he => h.2 (htie.mp he)⟩⟩

end NearestInt

variable {d : Decimal} {x y : Binary64} {u : ℚ}

namespace Decimal

theorem roundDiv_eq (num den : ℕ) : roundDiv num den =
    if 2 * (num % den) < den ∨ 2 * (num % den) = den ∧ num / den % 2 = 0 then num / den
    else num / den + 1 := rfl

theorem roundDiv_nearest (num : ℕ) {den : ℕ} (hden : 0 < den) :
    NearestInt (num / den) (roundDiv num den) := by
  have hpos : (0 : ℚ) < den := by exact_mod_cast hden
  have hdiv : (num : ℚ) / den = (num / den : ℕ) + (num % den : ℕ) / den := by
    have hsum : ((den * (num / den) + num % den : ℕ) : ℚ) = num := by rw [Nat.div_add_mod]
    push_cast at hsum
    rw [eq_comm, ← hsum, add_div, mul_comm, mul_div_assoc, div_self hpos.ne', mul_one]
  have hrest : (0 : ℚ) ≤ (num % den : ℕ) / den := by positivity
  have hbelow : ((num % den : ℕ) : ℚ) / den < 1 := by
    rw [div_lt_one hpos]
    exact_mod_cast Nat.mod_lt num hden
  have hhalf : ((num % den : ℕ) : ℚ) / den = 1 / 2 ↔ 2 * (num % den) = den := by
    rw [div_eq_div_iff hpos.ne' two_ne_zero, one_mul, mul_comm]
    exact_mod_cast Iff.rfl
  have hless : ((num % den : ℕ) : ℚ) / den < 1 / 2 ↔ 2 * (num % den) < den := by
    rw [div_lt_div_iff₀ hpos two_pos, one_mul, mul_comm]
    exact_mod_cast Iff.rfl
  rw [roundDiv_eq, hdiv]
  split
  · rename_i h
    constructor
    · rw [add_sub_cancel_left, abs_of_nonneg hrest]
      rcases h with h | h
      · exact (hless.mpr h).le
      · exact (hhalf.mpr h.1).le
    · rw [add_sub_cancel_left, abs_of_nonneg hrest, hhalf]
      rcases h with h | h
      · exact fun heq => absurd heq (Nat.ne_of_lt h)
      · exact fun _ => h.2
  · rename_i h
    have habs : |((num / den : ℕ) : ℚ) + (num % den : ℕ) / den - ((num / den + 1 : ℕ) : ℚ)| =
        1 - (num % den : ℕ) / den := by
      rw [show ((num / den : ℕ) : ℚ) + (num % den : ℕ) / den - ((num / den + 1 : ℕ) : ℚ) =
        -(1 - (num % den : ℕ) / den) by push_cast; ring, abs_neg, abs_of_pos (by linarith)]
    constructor
    · have hge := not_lt.mp (mt hless.mp fun hlt => h (.inl hlt))
      rw [habs]
      linarith
    · rw [habs]
      intro heq
      have htie := hhalf.mp (by linarith)
      omega

/-! ## Exact values -/

def value (d : Decimal) : ℚ := d.coefficient * 10 ^ d.scale

/-- The value in units of the least positive binary number. -/
def units (d : Decimal) : ℚ := d.value * Binary64.one

def numerator (d : Decimal) : ℕ := d.coefficient * 10 ^ d.scale.toNat * Binary64.one

def denominator (d : Decimal) : ℕ := 10 ^ (-d.scale).toNat

theorem denominator_pos (d : Decimal) : 0 < d.denominator := by
  unfold denominator
  positivity

theorem units_eq (d : Decimal) : d.units = d.numerator / d.denominator := by
  have hscale : (10 : ℚ) ^ d.scale = 10 ^ d.scale.toNat / 10 ^ (-d.scale).toNat := by
    rw [← zpow_natCast, ← zpow_natCast, ← zpow_sub₀ (by norm_num)]
    congr 1
    omega
  rw [units, value, numerator, denominator, hscale]
  push_cast
  ring

theorem compareQuarters_eq (d : Decimal) (quarters : ℕ) :
    d.compareQuarters quarters = compare (4 * d.numerator) (quarters * d.denominator) := by
  unfold compareQuarters numerator denominator
  generalize Binary64.one = unit
  split
  · rw [show (-d.scale).toNat = 0 by omega, pow_zero, mul_one, Nat.pow_eq, mul_left_comm]
  · rw [show d.scale.toNat = 0 by omega, pow_zero, mul_one, Nat.pow_eq, mul_left_comm]

theorem compareQuarters_eq_lt_iff {quarters : ℕ} :
    d.compareQuarters quarters = .lt ↔ 4 * d.units < quarters := by
  have hpos : (0 : ℚ) < d.denominator := by exact_mod_cast d.denominator_pos
  rw [compareQuarters_eq, Nat.compare_eq_lt, units_eq, ← mul_div_assoc, div_lt_iff₀ hpos]
  exact_mod_cast Iff.rfl

theorem compareQuarters_eq_gt_iff {quarters : ℕ} :
    d.compareQuarters quarters = .gt ↔ (quarters : ℚ) < 4 * d.units := by
  have hpos : (0 : ℚ) < d.denominator := by exact_mod_cast d.denominator_pos
  rw [compareQuarters_eq, Nat.compare_eq_gt, units_eq, ← mul_div_assoc, lt_div_iff₀ hpos]
  exact_mod_cast Iff.rfl

end Decimal

/-! ## The interval around a number -/

namespace Binary64

/-- The values that lie nearer to a number's magnitude than to any other: up
to half the way to its neighbours, and halfway only for an even significand. -/
structure Covers (x : Binary64) (u : ℚ) : Prop where
  low : (x.magnitude : ℚ) - x.ulpBelow / 2 ≤ u
  high : u ≤ x.magnitude + x.ulp / 2
  even : u = x.magnitude - x.ulpBelow / 2 ∨ u = x.magnitude + x.ulp / 2 → x.significand % 2 = 0

/-- Halfway below a power of two is half as far away, unless the step cannot
get smaller. -/
theorem ulpBelow_cases (x : Binary64) :
    (x.significand = 2 ^ 52 ∧
        ∃ j, x.exponent - 1 = j + 1 ∧ x.ulp = 2 * 2 ^ j ∧ x.ulpBelow = 2 ^ j) ∨
      x.ulpBelow = x.ulp ∧ (x.exponent - 1 = 0 ∨ 2 ^ 52 < x.significand) := by
  by_cases h : x.fraction = 0 ∧ 1 < x.exponent
  · obtain ⟨j, hj⟩ : ∃ j, x.exponent - 1 = j + 1 := ⟨x.exponent - 2, by omega⟩
    have hulp : x.ulp = 2 * 2 ^ j := by rw [ulp, hj, Nat.pow_eq, pow_succ, mul_comm]
    refine .inl ⟨?_, j, hj, hulp, ?_⟩
    · rw [significand, if_neg (by omega), h.1, Nat.add_zero, Nat.pow_eq]
    · rw [ulpBelow, if_pos h, hulp, Nat.mul_div_cancel_left _ two_pos]
  · refine .inr ⟨if_neg h, ?_⟩
    by_cases he : x.exponent ≤ 1
    · exact .inl (Nat.sub_eq_zero_of_le he)
    · right
      rw [significand, if_neg (by omega), Nat.pow_eq]
      omega

theorem ulpBelow_le (x : Binary64) : x.ulpBelow ≤ x.ulp := by
  rcases x.ulpBelow_cases with ⟨-, j, -, hulp, hbelow⟩ | ⟨hbelow, -⟩ <;> omega

theorem ulpBelow_pos (x : Binary64) : 0 < x.ulpBelow := by
  rcases x.ulpBelow_cases with ⟨-, j, -, -, hbelow⟩ | ⟨hbelow, -⟩
  · rw [hbelow]
    exact Nat.two_pow_pos j
  · rw [hbelow]
    exact x.ulp_pos

theorem ulp_le_magnitude (h : x.magnitude ≠ 0) : x.ulp ≤ x.magnitude :=
  Nat.le_mul_of_pos_left _ (Nat.pos_of_ne_zero fun hz => h (by rw [magnitude, hz, Nat.zero_mul]))

/-- Reading back is a test for the interval. -/
theorem readsBack_iff (h : x.magnitude ≠ 0) : d.readsBack x = true ↔ x.Covers d.units := by
  have hbelow : 2 * x.ulpBelow ≤ 4 * x.magnitude := by
    have hle := x.ulpBelow_le
    have hulp := ulp_le_magnitude h
    omega
  have hlow : ((4 * x.magnitude - 2 * x.ulpBelow : ℕ) : ℚ) =
      4 * (x.magnitude - x.ulpBelow / 2) := by
    rw [Nat.cast_sub hbelow]
    push_cast
    ring
  have hhigh : ((4 * x.magnitude + 2 * x.ulp : ℕ) : ℚ) = 4 * (x.magnitude + x.ulp / 2) := by
    push_cast
    ring
  unfold Decimal.readsBack
  by_cases heven : x.significand % 2 = 0
  · simp only [heven, if_true, Bool.and_eq_true, bne_iff_ne, ne_eq,
      Decimal.compareQuarters_eq_lt_iff, Decimal.compareQuarters_eq_gt_iff, hlow, hhigh, not_lt]
    exact ⟨fun ⟨hl, hr⟩ => ⟨by linarith, by linarith, fun _ => heven⟩,
      fun hc => ⟨by linarith [hc.low], by linarith [hc.high]⟩⟩
  · simp only [heven, if_false, Bool.and_eq_true, beq_iff_eq,
      Decimal.compareQuarters_eq_lt_iff, Decimal.compareQuarters_eq_gt_iff, hlow, hhigh]
    constructor
    · rintro ⟨hl, hr⟩
      refine ⟨by linarith, by linarith, ?_⟩
      rintro (he | he) <;> linarith
    · intro hc
      have hne := not_or.mp (mt hc.even heven)
      have hl := lt_of_le_of_ne hc.low (Ne.symm hne.1)
      have hr := lt_of_le_of_ne hc.high hne.2
      exact ⟨by linarith, by linarith⟩

end Binary64

/-! ## The nearest number -/

namespace Decimal

/-- The magnitude that a decimal rounds to: the nearest multiple of the step
between numbers of its size. -/
def roundedUnits (d : Decimal) : ℕ :=
  let j := Binary64.stepOf (d.numerator / d.denominator)
  roundDiv d.numerator (d.denominator * 2 ^ j) * 2 ^ j

/-- The binary number that a signed decimal rounds to. -/
def toBinary64 (negative : Bool) (d : Decimal) : Binary64 :=
  Binary64.ofMagnitude negative d.roundedUnits

/-- Numbers of the size of `u` are a step of 2^`j` apart. -/
def AtStep (u : ℚ) (j : ℕ) : Prop := j = 0 ∧ u < 2 ^ 53 ∨ 2 ^ 52 * 2 ^ j ≤ u ∧ u < 2 ^ 53 * 2 ^ j

theorem atStep_iff {j : ℕ} :
    AtStep d.units j ↔ Binary64.stepOf (d.numerator / d.denominator) = j := by
  have hpos : (0 : ℚ) < d.denominator := by exact_mod_cast d.denominator_pos
  have hlt : ∀ n : ℕ, d.units < n ↔ d.numerator / d.denominator < n := fun n => by
    rw [units_eq, div_lt_iff₀ hpos, Nat.div_lt_iff_lt_mul d.denominator_pos]
    exact_mod_cast Iff.rfl
  have hle : ∀ n : ℕ, (n : ℚ) ≤ d.units ↔ n ≤ d.numerator / d.denominator := fun n => by
    rw [← not_lt, hlt, not_lt]
  have hstep : ∀ j, AtStep d.units j ↔ j = 0 ∧ d.numerator / d.denominator < 2 ^ 53 ∨
      2 ^ 52 * 2 ^ j ≤ d.numerator / d.denominator ∧
        d.numerator / d.denominator < 2 ^ 53 * 2 ^ j := fun j => by
    rw [← hlt, ← hlt, ← hle, AtStep]
    push_cast
    exact Iff.rfl
  rw [hstep]
  refine ⟨Binary64.stepOf_eq, ?_⟩
  rintro rfl
  rcases Binary64.stepOf_spec (d.numerator / d.denominator) with h | h
  · exact .inl h
  · exact .inr h

/-- The step and the multiple of it that a decimal rounds to. -/
theorem exists_roundedUnits (d : Decimal) : ∃ k j, AtStep d.units j ∧
    NearestInt (d.units / 2 ^ j) k ∧ d.roundedUnits = k * 2 ^ j := by
  refine ⟨_, _, atStep_iff.mpr rfl, ?_, rfl⟩
  have hpos := Nat.mul_pos d.denominator_pos
    (Nat.two_pow_pos (Binary64.stepOf (d.numerator / d.denominator)))
  have hnear := roundDiv_nearest d.numerator hpos
  rw [units_eq, div_div]
  exact_mod_cast hnear

theorem roundedUnits_eq {k j : ℕ} (hj : AtStep d.units j) (hk : NearestInt (d.units / 2 ^ j) k) :
    d.roundedUnits = k * 2 ^ j := by
  obtain ⟨k', j', hj', hk', he⟩ := d.exists_roundedUnits
  obtain rfl : j = j' := (atStep_iff.mp hj).symm.trans (atStep_iff.mp hj')
  rw [he, hk.unique hk']

end Decimal

namespace Binary64

theorem cast_magnitude (x : Binary64) : (x.magnitude : ℚ) = x.significand * x.ulp := by
  rw [magnitude, Nat.cast_mul]

theorem cast_ulp (x : Binary64) : (x.ulp : ℚ) = 2 ^ (x.exponent - 1) := by
  rw [ulp, Nat.pow_eq, Nat.cast_pow, Nat.cast_ofNat]

/-- The number of steps fits a significand or is the first that does not. -/
theorem steps_le {k j : ℕ} (hj : Decimal.AtStep u j) (hk : NearestInt (u / 2 ^ j) k) :
    Scaled k j ∨ k = 2 ^ 53 := by
  have hs : (0 : ℚ) < 2 ^ j := by positivity
  have hle : k ≤ 2 ^ 53 := hk.le_of_le (by
    rw [div_le_iff₀ hs]
    push_cast
    rcases hj with ⟨rfl, hlt⟩ | ⟨-, hlt⟩ <;> linarith)
  refine (Nat.lt_or_eq_of_le hle).imp
    (fun hlt => ⟨hlt, hj.imp And.left fun hj => hk.ge_of_ge ?_⟩) id
  rw [le_div_iff₀ hs]
  push_cast
  exact hj.1

theorem scaled_roundedUnits (d : Decimal) : ∃ k j, Scaled k j ∧ d.roundedUnits = k * 2 ^ j := by
  obtain ⟨k, j, hj, hk, he⟩ := d.exists_roundedUnits
  rcases steps_le hj hk with hscaled | rfl
  · exact ⟨k, j, hscaled, he⟩
  · exact ⟨2 ^ 52, j + 1, ⟨by decide, .inr (Nat.le_refl _)⟩, by rw [he]; ring⟩

section Interval

variable {j : ℕ}

/-- A value nearest to a number's own multiple of its own step lies in its interval. -/
theorem covers_of_atStep (hj : Decimal.AtStep u (x.exponent - 1))
    (hk : NearestInt (u / 2 ^ (x.exponent - 1)) x.significand) : x.Covers u := by
  have hs : (0 : ℚ) < x.ulp := by exact_mod_cast x.ulp_pos
  rw [← cast_ulp] at hk
  obtain ⟨⟨hlow, hhigh⟩, htie⟩ := (NearestInt.div_iff hs).mp hk
  rw [← cast_magnitude] at hlow hhigh htie
  rcases x.ulpBelow_cases with ⟨heven, i, hi, -, -⟩ | ⟨hbelow, -⟩
  · -- At a power of two the step shows that the value is not below it.
    have habove : (x.magnitude : ℚ) ≤ u := by
      have hj := (hj.resolve_left fun hj => by omega).1
      rw [cast_magnitude, heven, cast_ulp]
      push_cast
      exact hj
    have hpos : (0 : ℚ) < x.ulpBelow := by exact_mod_cast x.ulpBelow_pos
    exact ⟨by linarith, hhigh, fun _ => by rw [heven]; decide⟩
  · rw [← hbelow] at hlow
    exact ⟨hlow, hhigh, fun hor => htie (by rwa [hbelow] at hor)⟩

/-- So does a value nearest to a power of two on the step below it. -/
theorem covers_of_atStep_below (hsig : x.significand = 2 ^ 52) (hstep : x.exponent - 1 = j + 1)
    (hj : Decimal.AtStep u j) (hk : NearestInt (u / 2 ^ j) (2 ^ 53)) : x.Covers u := by
  have hs : (0 : ℚ) < 2 ^ j := by positivity
  obtain ⟨⟨hlow, -⟩, -⟩ := (NearestInt.div_iff hs).mp hk
  have hmag : (x.magnitude : ℚ) = 2 ^ 53 * 2 ^ j := by
    rw [cast_magnitude, hsig, cast_ulp, hstep]
    push_cast
    ring
  rcases x.ulpBelow_cases with ⟨-, i, hi, -, hbelow⟩ | ⟨-, hzero | hlarge⟩
  · obtain rfl : i = j := by omega
    have hbelow : (x.ulpBelow : ℚ) = 2 ^ i := by rw [hbelow]; push_cast; rfl
    have hulp : (0 : ℚ) < x.ulp := by exact_mod_cast x.ulp_pos
    have hlt : u < 2 ^ 53 * 2 ^ i := by
      rcases hj with ⟨rfl, hlt⟩ | ⟨-, hlt⟩
      · linarith
      · exact hlt
    push_cast at hlow
    exact ⟨by linarith, by linarith, fun _ => by rw [hsig]; decide⟩
  · omega
  · omega

/-- What rounds to a number lies in its interval. -/
theorem covers_of_roundedUnits (h : d.roundedUnits = x.magnitude) : x.Covers d.units := by
  obtain ⟨k, j, hj, hk, he⟩ := d.exists_roundedUnits
  have hmag : x.significand * 2 ^ (x.exponent - 1) = k * 2 ^ j := by
    rw [← magnitude_eq, ← h, he]
  rcases steps_le hj hk with hscaled | rfl
  · obtain ⟨rfl, rfl⟩ := x.scaled.unique hscaled hmag
    exact covers_of_atStep hj hk
  · obtain ⟨hsig, hstep⟩ := x.scaled.unique
      (⟨by decide, .inr (Nat.le_refl _)⟩ : Scaled (2 ^ 52) (j + 1)) (by rw [hmag]; ring)
    exact covers_of_atStep_below hsig hstep hj hk

/-- In the interval of a number with one step on both sides a value is at that step. -/
theorem Covers.atStep (h : x.Covers u) (hbelow : x.ulpBelow = x.ulp)
    (hcase : x.exponent - 1 = 0 ∨ 2 ^ 52 < x.significand) :
    Decimal.AtStep u (x.exponent - 1) := by
  have hs : (0 : ℚ) < x.ulp := by exact_mod_cast x.ulp_pos
  have hlow := h.low
  have hhigh := h.high
  have hshort : (x.significand : ℚ) * x.ulp ≤ (2 ^ 53 - 1) * x.ulp := by
    refine mul_le_mul_of_nonneg_right ?_ hs.le
    have hle : (x.significand : ℚ) + 1 ≤ 2 ^ 53 := by exact_mod_cast x.scaled.short
    linarith
  rw [cast_magnitude] at hlow hhigh
  rw [hbelow] at hlow
  rcases hcase with hzero | hlarge
  · refine .inl ⟨hzero, ?_⟩
    rw [show (x.ulp : ℚ) = 1 by rw [cast_ulp, hzero, pow_zero]] at hhigh hshort
    linarith
  · have hfull : (2 ^ 52 + 1 : ℚ) * x.ulp ≤ x.significand * x.ulp := by
      refine mul_le_mul_of_nonneg_right ?_ hs.le
      exact_mod_cast hlarge
    rw [Decimal.AtStep, ← cast_ulp]
    exact .inr ⟨by linarith, by linarith⟩

/-- Around a power of two a value is at the step above it or at the step below. -/
theorem Covers.nearest_power (h : x.Covers u) (hsig : x.significand = 2 ^ 52)
    (hj : x.exponent - 1 = j + 1) (hbelow : x.ulpBelow = 2 ^ j) :
    Decimal.AtStep u (j + 1) ∧ NearestInt (u / 2 ^ (j + 1)) (2 ^ 52) ∨
      Decimal.AtStep u j ∧ NearestInt (u / 2 ^ j) (2 ^ 53) := by
  have hpos : (0 : ℚ) < 2 ^ j := by positivity
  have hlow := h.low
  have hhigh := h.high
  have hbelow : (x.ulpBelow : ℚ) = 2 ^ j := by rw [hbelow]; push_cast; rfl
  have hulp : (x.ulp : ℚ) = 2 * 2 ^ j := by rw [cast_ulp, hj, pow_succ']
  have hmag : (x.magnitude : ℚ) = 2 ^ 52 * (2 * 2 ^ j) := by
    rw [cast_magnitude, hsig, hulp]
    push_cast
    rfl
  rw [hmag, hbelow] at hlow
  rw [hmag, hulp] at hhigh
  rcases le_or_gt (2 ^ 52 * (2 * 2 ^ j)) u with hge | hlt
  · left
    rw [Decimal.AtStep, pow_succ' (2 : ℚ) j]
    refine ⟨.inr ⟨hge, by linarith⟩, (NearestInt.div_iff (by positivity)).mpr ?_⟩
    push_cast
    exact ⟨⟨by linarith, hhigh⟩, fun _ => by decide⟩
  · right
    refine ⟨.inr ⟨by linarith, by linarith⟩, (NearestInt.div_iff hpos).mpr ?_⟩
    push_cast
    exact ⟨⟨by linarith, by linarith⟩, fun _ => by decide⟩

/-- What lies in a number's interval rounds to it. -/
theorem Covers.roundedUnits_eq (h : x.Covers d.units) : d.roundedUnits = x.magnitude := by
  rcases x.ulpBelow_cases with ⟨hsig, j, hj, -, hbelow⟩ | ⟨hbelow, hcase⟩
  · rw [magnitude_eq, hsig, hj]
    rcases h.nearest_power hsig hj hbelow with ⟨hstep, hnear⟩ | ⟨hstep, hnear⟩
    · exact Decimal.roundedUnits_eq hstep hnear
    · rw [Decimal.roundedUnits_eq hstep hnear]
      ring
  · have hs : (0 : ℚ) < x.ulp := by exact_mod_cast x.ulp_pos
    refine Decimal.roundedUnits_eq (h.atStep hbelow hcase) ?_
    rw [← cast_ulp, NearestInt.div_iff hs, ← cast_magnitude, ← hbelow]
    refine ⟨⟨h.low, ?_⟩, fun hor => h.even (by rwa [hbelow] at hor ⊢)⟩
    rw [hbelow]
    exact h.high

end Interval

/-- Rounding to a number is lying in its interval. -/
theorem roundedUnits_eq_magnitude_iff : d.roundedUnits = x.magnitude ↔ x.Covers d.units :=
  ⟨covers_of_roundedUnits, Covers.roundedUnits_eq⟩

/-! ## No number is nearer -/

/-- On the scale of a step there are only its multiples, except near zero. -/
theorem dvd_or_lt (y : Binary64) (j : ℕ) : 2 ^ j ∣ y.magnitude ∨ y.magnitude < 2 ^ 52 * 2 ^ j := by
  rcases Nat.lt_or_ge (y.exponent - 1) j with hlt | hge
  · right
    calc y.magnitude < 2 ^ 53 * 2 ^ (y.exponent - 1) :=
          Nat.mul_lt_mul_of_pos_right y.scaled.short (Nat.two_pow_pos _)
      _ = 2 ^ 52 * 2 ^ (y.exponent - 1 + 1) := by ring
      _ ≤ 2 ^ 52 * 2 ^ j := Nat.mul_le_mul_left _ (Nat.pow_le_pow_right two_pos hlt)
  · exact .inl ((Nat.pow_dvd_pow 2 hge).mul_left _)

theorem add_le_of_dvd {s m n : ℕ} (hm : s ∣ m) (hn : s ∣ n) (h : m < n) : m + s ≤ n := by
  obtain ⟨a, rfl⟩ := hm
  obtain ⟨b, rfl⟩ := hn
  have hlt : a < b := Nat.lt_of_mul_lt_mul_left h
  calc s * a + s = s * (a + 1) := by ring
    _ ≤ s * b := Nat.mul_le_mul_left s hlt

theorem ulp_dvd_magnitude (x : Binary64) : 2 ^ (x.exponent - 1) ∣ x.magnitude :=
  Nat.dvd_mul_left _ _

/-- Of the multiples of a number's step its interval has only its magnitude. -/
theorem Covers.eq_of_dvd {n : ℕ} (h : x.Covers n) (hn : x.ulp ∣ n) : n = x.magnitude := by
  have hpos : (0 : ℚ) < x.ulp := by exact_mod_cast x.ulp_pos
  have hbelow : (x.ulpBelow : ℚ) ≤ x.ulp := by exact_mod_cast x.ulpBelow_le
  have hlow := h.low
  have hhigh := h.high
  rcases Nat.lt_trichotomy n x.magnitude with hlt | he | hgt
  · have hgap : (n : ℚ) + x.ulp ≤ x.magnitude := by
      exact_mod_cast add_le_of_dvd hn x.ulp_dvd_magnitude hlt
    linarith
  · exact he
  · have hgap : (x.magnitude : ℚ) + x.ulp ≤ n := by
      exact_mod_cast add_le_of_dvd x.ulp_dvd_magnitude hn hgt
    linarith

/-- Ones are made up of a number's steps, or its steps of ones. -/
theorem one_dvd_ulp_or (x : Binary64) : one ∣ x.ulp ∨ x.ulp ∣ one := by
  unfold one ulp
  generalize 1074 = k
  exact (Nat.le_total k (x.exponent - 1)).imp (Nat.pow_dvd_pow 2) (Nat.pow_dvd_pow 2)

theorem add_ulp_le (h : x.magnitude < y.magnitude) : x.magnitude + x.ulp ≤ y.magnitude := by
  refine add_le_of_dvd x.ulp_dvd_magnitude ?_ h
  rcases y.dvd_or_lt (x.exponent - 1) with hdvd | hlt
  · exact hdvd
  · -- The first number has few bits as well, so its step is the least.
    have hsmall : x.significand < 2 ^ 52 := Nat.lt_of_mul_lt_mul_right (h.trans hlt)
    obtain hzero : x.exponent - 1 = 0 := x.scaled.full.resolve_right (by omega)
    rw [ulp, hzero]
    exact one_dvd _

theorem add_ulpBelow_le (h : y.magnitude < x.magnitude) :
    y.magnitude + x.ulpBelow ≤ x.magnitude := by
  rcases x.ulpBelow_cases with ⟨hsig, j, hj, hulp, hbelow⟩ | ⟨hbelow, hcase⟩
  · have hmag : x.magnitude = 2 ^ 53 * 2 ^ j := by
      rw [magnitude, hsig, hulp]
      ring
    rw [hbelow]
    rcases y.dvd_or_lt j with hdvd | hlt
    · exact add_le_of_dvd hdvd (hmag ▸ Nat.dvd_mul_left _ _) h
    · have hpos := Nat.two_pow_pos j
      omega
  · rw [hbelow]
    rcases y.dvd_or_lt (x.exponent - 1) with hdvd | hlt
    · exact add_le_of_dvd hdvd x.ulp_dvd_magnitude h
    · rcases hcase with hzero | hlarge
      · rw [ulp, hzero]
        exact h
      · have hle : (2 ^ 52 + 1) * x.ulp ≤ x.magnitude := Nat.mul_le_mul_right _ hlarge
        change y.magnitude < 2 ^ 52 * x.ulp at hlt
        omega

/-- The nearest number: no magnitude lies nearer to a value than that of
the number whose interval it is in, and where another lies as near, the
significand is even. -/
theorem Covers.nearest (h : x.Covers u) (y : Binary64) :
    |u - x.magnitude| ≤ |u - y.magnitude| ∧
      (|u - x.magnitude| = |u - y.magnitude| → y.magnitude ≠ x.magnitude →
        x.significand % 2 = 0) := by
  have hlow := h.low
  have hhigh := h.high
  have hbelow : (x.ulpBelow : ℚ) ≤ x.ulp := by exact_mod_cast x.ulpBelow_le
  rcases Nat.lt_trichotomy y.magnitude x.magnitude with hlt | he | hlt
  · have hgap : (y.magnitude : ℚ) + x.ulpBelow ≤ x.magnitude := by
      exact_mod_cast add_ulpBelow_le hlt
    have hpos : (0 : ℚ) < x.ulpBelow := by exact_mod_cast x.ulpBelow_pos
    rw [abs_of_nonneg (by linarith : 0 ≤ u - y.magnitude)]
    refine ⟨abs_le.mpr ⟨by linarith, by linarith⟩, fun htie _ => h.even (.inl ?_)⟩
    rcases abs_cases (u - x.magnitude) with ⟨he, -⟩ | ⟨he, -⟩ <;> linarith
  · rw [he]
    exact ⟨le_refl _, fun _ hne => absurd rfl hne⟩
  · have hgap : (x.magnitude : ℚ) + x.ulp ≤ y.magnitude := by exact_mod_cast add_ulp_le hlt
    have hpos : (0 : ℚ) < x.ulp := by exact_mod_cast x.ulp_pos
    rw [abs_of_nonpos (by linarith : u - y.magnitude ≤ 0)]
    refine ⟨abs_le.mpr ⟨by linarith, by linarith⟩, fun htie _ => h.even (.inr ?_)⟩
    rcases abs_cases (u - x.magnitude) with ⟨he, -⟩ | ⟨he, -⟩ <;> linarith

/-! ## Signed decimals -/

/-- A decimal rounds to a finite number if it has its sign and lies in its interval. -/
theorem toBinary64_eq_iff (hx : x.isFinite = true) {negative : Bool} :
    d.toBinary64 negative = x ↔ x.negative = negative ∧ x.Covers d.units := by
  rw [← roundedUnits_eq_magnitude_iff]
  constructor
  · intro h
    obtain ⟨k, j, hscaled, he⟩ := scaled_roundedUnits d
    refine ⟨by rw [← h, Decimal.toBinary64, negative_ofMagnitude], ?_⟩
    rw [Decimal.toBinary64, he] at h
    rw [he, ← h, magnitude_ofMagnitude hscaled (by rw [h]; exact hx)]
  · rintro ⟨rfl, he⟩
    rw [Decimal.toBinary64, he, ofMagnitude_self hx]

/-- **Rounding is to the nearest**, with the sign kept. -/
theorem toBinary64_nearest {negative : Bool} (h : (d.toBinary64 negative).isFinite = true) :
    (d.toBinary64 negative).negative = negative ∧ ∀ y : Binary64,
      |d.units - (d.toBinary64 negative).magnitude| ≤ |d.units - y.magnitude| ∧
        (|d.units - (d.toBinary64 negative).magnitude| = |d.units - y.magnitude| →
          y.magnitude ≠ (d.toBinary64 negative).magnitude →
            (d.toBinary64 negative).significand % 2 = 0) := by
  obtain ⟨hn, hc⟩ := (toBinary64_eq_iff h).mp rfl
  exact ⟨hn, hc.nearest⟩

end Binary64
end StyleRegistry
