import StyleRegistry.Proofs.Number.RoundTrip

/-! # The fewest digits

For each count of digits the search tries one decimal only, the nearest. Where
a number's interval reaches as far down as up, the nearest decimal is in it if
any with so many digits is. Below a power of two the interval is half as wide,
so the nearest decimal can be too far below while another, farther above, still
reads back. The grid is then finer than the step, and one more digit is enough:
a power of two may be written with one digit more than it needs, and no other
number is. -/
namespace StyleRegistry

variable {x : Binary64} {u v : ℚ}

/-! ## What lies in an interval -/

namespace Binary64

theorem covers_magnitude (x : Binary64) : x.Covers x.magnitude := by
  have hbelow : (0 : ℚ) < x.ulpBelow := by exact_mod_cast x.ulpBelow_pos
  have hulp : (0 : ℚ) < x.ulp := by exact_mod_cast x.ulp_pos
  refine ⟨by linarith, by linarith, ?_⟩
  rintro (he | he) <;> linarith

/-- What lies between two values of an interval is in it. -/
theorem Covers.convex (hu : x.Covers u) (hv : x.Covers v) {w : ℚ} (huw : u ≤ w) (hwv : w ≤ v) :
    x.Covers w := by
  refine ⟨hu.low.trans huw, hwv.trans hv.high, ?_⟩
  rintro (he | he)
  · exact hu.even (.inl (le_antisymm (huw.trans_eq he) hu.low))
  · exact hv.even (.inr (le_antisymm hv.high (he.symm.trans_le hwv)))

theorem ulp_le_two_mul_ulpBelow (x : Binary64) : x.ulp ≤ 2 * x.ulpBelow := by
  rcases x.ulpBelow_cases with ⟨-, j, -, hulp, hbelow⟩ | ⟨hbelow, -⟩ <;> omega

/-- A value no farther away than one in the interval is in it too, unless the
number is a power of two and the value lies below it. -/
theorem Covers.of_nearer (hv : x.Covers v) (hle : |u - x.magnitude| ≤ |v - x.magnitude|) :
    x.Covers u ∨ (x.fraction = 0 ∧ 1 < x.exponent) ∧ u < x.magnitude ∧ x.magnitude < v := by
  have hself := x.covers_magnitude
  have hlow := hv.low
  have hhigh := hv.high
  have hbelow : (x.ulpBelow : ℚ) ≤ x.ulp := by exact_mod_cast x.ulpBelow_le
  have hpos : (0 : ℚ) < x.ulpBelow := by exact_mod_cast x.ulpBelow_pos
  rcases le_or_gt (x.magnitude : ℚ) u with hu | hu <;>
    rcases le_or_gt v x.magnitude with hvm | hvm
  · -- Above, no farther than a value below: the interval reaches at least as far up.
    rw [abs_of_nonneg (by linarith), abs_of_nonpos (by linarith)] at hle
    refine .inl ⟨by linarith, by linarith, ?_⟩
    rintro (he | he)
    · linarith
    · exact hv.even (.inl (by linarith))
  · rw [abs_of_nonneg (by linarith), abs_of_nonneg (by linarith)] at hle
    exact .inl (hself.convex hv hu (by linarith))
  · rw [abs_of_neg (by linarith), abs_of_nonpos (by linarith)] at hle
    exact .inl (hv.convex hself (by linarith) hu.le)
  · rw [abs_of_neg (by linarith), abs_of_pos (by linarith)] at hle
    by_cases hpower : x.fraction = 0 ∧ 1 < x.exponent
    · exact .inr ⟨hpower, hu, hvm⟩
    · have hsame : (x.ulpBelow : ℚ) = x.ulp := by rw [ulpBelow, if_neg hpower]
      refine .inl ⟨by linarith, by linarith, ?_⟩
      rintro (he | he)
      · exact hv.even (.inr (by linarith))
      · linarith

end Binary64

/-! ## The grid of a count of digits -/

namespace Decimal

open Binary64 (one)
open Numeral (valueOf)

variable {d e : Decimal}

theorem length_significant_eq (hd : d.coefficient ≠ 0) (he : e.coefficient ≠ 0)
    (h : d.value = e.value) : d.significant.length = e.significant.length :=
  le_antisymm
    (length_significant_le hd (h.trans (value_eq e)) (significant_spec he).valueOf_lt)
    (length_significant_le he (h.symm.trans (value_eq d)) (significant_spec hd).valueOf_lt)

/-- What rounds to a number other than zero is not zero. -/
theorem coefficient_ne_zero_of_covers (h : x.magnitude ≠ 0) (hc : x.Covers e.units) :
    e.coefficient ≠ 0 := by
  intro hzero
  have hunits : e.units = 0 := by rw [units, value, hzero, Nat.cast_zero, zero_mul, zero_mul]
  have hulp : (x.ulp : ℚ) ≤ x.magnitude := by exact_mod_cast Binary64.ulp_le_magnitude h
  have hbelow : (x.ulpBelow : ℚ) ≤ x.ulp := by exact_mod_cast x.ulpBelow_le
  have hpos : (0 : ℚ) < x.ulpBelow := by exact_mod_cast x.ulpBelow_pos
  have hlow := hc.low
  rw [hunits] at hlow
  linarith

theorem value_mk (m : ℕ) (scale : ℤ) : (mk m scale).value = m * 10 ^ scale := rfl

theorem mk_eta (d : Decimal) : mk d.coefficient d.scale = d := rfl

/-- No point of the grid is nearer than the rounding, in units of the least number. -/
theorem units_nearest (x : Binary64) (n m : ℕ) : |(rounded x n).units - x.magnitude| ≤
    |(mk m (rounded x n).scale).units - x.magnitude| := by
  have hnear := mul_le_mul_of_nonneg_right (rounded_nearest x n m) (Nat.cast_nonneg one)
  rw [← value_mk, ← units_sub_magnitude, ← units_sub_magnitude] at hnear
  exact hnear

theorem magnitude_lt_units_iff : x.magnitude < e.units ↔ x.size < e.value := by
  have hone := Binary64.cast_one_pos
  rw [← x.size_mul_one, units, mul_lt_mul_iff_left₀ hone]

theorem units_le_of_value_le (h : d.value ≤ e.value) : d.units ≤ e.units :=
  mul_le_mul_of_nonneg_right h (Nat.cast_nonneg _)

/-- A decimal at the number's place or above it is on the grid of as many digits
as it has, or more. -/
theorem exists_grid_of_place (he : e.coefficient ≠ 0) {n : ℕ} (hn : e.significant.length ≤ n)
    (hplace : leadingPlace x ≤ e.place) :
    ∃ m : ℕ, (mk m (rounded x n).scale).value = e.value := by
  have hlen := (significant_spec he).length_pos
  obtain ⟨t, ht⟩ := Int.le.dest
    (show leadingPlace x - n + 1 ≤ e.place + 1 - e.significant.length by omega)
  refine ⟨valueOf 10 e.significant * 10 ^ t, ?_⟩
  rw [scale_rounded, value_eq e, ← ht, add_comm _ (t : ℤ), zpow_add₀ (by norm_num) (t : ℤ),
    zpow_natCast, value_mk]
  push_cast
  ring

/-- A decimal with so many digits is on their grid, or the power of ten between
it and the number is. -/
theorem exists_grid_value (h : x.magnitude ≠ 0) (he : e.coefficient ≠ 0) {n : ℕ}
    (hn : e.significant.length ≤ n) :
    ∃ m : ℕ, (mk m (rounded x n).scale).value = e.value ∨
      e.value < (mk m (rounded x n).scale).value ∧ (mk m (rounded x n).scale).value ≤ x.size := by
  have hlen := (significant_spec he).length_pos
  rcases lt_or_ge e.place (leadingPlace x) with hlt | hge
  · have hpower : (mk (10 ^ (n - 1)) (rounded x n).scale).value = 10 ^ leadingPlace x := by
      rw [scale_rounded, value_mk]
      push_cast
      rw [← zpow_natCast, ← zpow_add₀ (by norm_num)]
      refine congrArg _ ?_
      omega
    refine ⟨10 ^ (n - 1), .inr ?_⟩
    rw [hpower]
    exact ⟨(place_spec he).2.trans_le (zpow_le_zpow_right₀ (by norm_num) (by omega)),
      (leadingPlace_spec h).1⟩
  · exact (exists_grid_of_place he hn hge).imp fun _ => .inl

/-- If a decimal reads back, so does one on the grid of as many digits that the
number is rounded to: the decimal itself, or the power of ten between the two. -/
theorem exists_grid (h : x.magnitude ≠ 0) (hc : x.Covers e.units) :
    ∃ m : ℕ, x.Covers (mk m (rounded x e.significant.length).scale).units ∧
      (x.size < (mk m (rounded x e.significant.length).scale).value → x.size < e.value) := by
  obtain ⟨m, hvalue | ⟨habove, hbelow⟩⟩ :=
    exists_grid_value h (coefficient_ne_zero_of_covers h hc) (le_refl e.significant.length)
  · refine ⟨m, ?_, fun hlt => hvalue ▸ hlt⟩
    rw [units, hvalue]
    exact hc
  · refine ⟨m, hc.convex x.covers_magnitude (units_le_of_value_le habove.le) ?_,
      fun hgt => absurd hgt (not_lt.mpr hbelow)⟩
    exact not_lt.mp (mt magnitude_lt_units_iff.mp (not_lt.mpr hbelow))

/-- A grid with points on both sides, neither farther than the interval reaches
up, is no wider than the step, and with one more digit the rounding reads back. -/
theorem covers_rounded_succ {n m : ℕ} (hbelow : (rounded x n).units < x.magnitude)
    (habove : x.magnitude < (mk m (rounded x n).scale).units)
    (hc : x.Covers (mk m (rounded x n).scale).units) : x.Covers (rounded x (n + 1)).units := by
  have hone := Binary64.cast_one_pos
  have hnear := units_nearest x n m
  rw [abs_of_neg (by linarith), abs_of_pos (by linarith)] at hnear
  have hstep : (10 : ℚ) ^ (rounded x (n + 1)).scale * 10 = 10 ^ (rounded x n).scale := by
    rw [← zpow_add_one₀ (by norm_num), scale_rounded, scale_rounded]
    refine congrArg _ ?_
    push_cast
    ring
  have hclose := mul_le_mul_of_nonneg_right (rounded_close x (n + 1)) hone.le
  rw [← units_sub_magnitude, div_mul_eq_mul_div] at hclose
  have hhigh := hc.high
  have hunits : ∀ k : ℕ, (mk k (rounded x n).scale).units =
      k * (10 * (10 ^ (rounded x (n + 1)).scale * one)) := fun k => by
    rw [units, value_mk, ← hstep]
    ring
  have hself := hunits (rounded x n).coefficient
  rw [mk_eta] at hself
  have hpos : (0 : ℚ) < 10 ^ (rounded x (n + 1)).scale * one := mul_pos (by positivity) hone
  generalize (10 : ℚ) ^ (rounded x (n + 1)).scale * one = spacing at hclose hunits hself hpos
  rw [hself] at hbelow hnear
  rw [hunits m] at habove hnear hhigh
  have hlt : (rounded x n).coefficient < m := by
    have hcast := lt_of_mul_lt_mul_right (hbelow.trans habove)
      (mul_nonneg (by norm_num) hpos.le)
    exact_mod_cast hcast
  have hgap := mul_le_mul_of_nonneg_right
    (by exact_mod_cast hlt : ((rounded x n).coefficient : ℚ) + 1 ≤ m) hpos.le
  have hhalf : (x.ulp : ℚ) ≤ 2 * x.ulpBelow := by exact_mod_cast x.ulp_le_two_mul_ulpBelow
  have hulp : (0 : ℚ) < x.ulpBelow := by exact_mod_cast x.ulpBelow_pos
  exact covers_of_close (by linarith)

/-- **The search against all decimals.** A decimal that reads back has as many
digits as the one found, or the number is a power of two, the decimal lies
above it and has one digit less. -/
theorem length_roundTrip (h : x.magnitude ≠ 0) (hc : x.Covers e.units) :
    (roundTrip x).significant.length ≤ e.significant.length ∨
      (x.fraction = 0 ∧ 1 < x.exponent) ∧ x.size < e.value ∧
        (roundTrip x).significant.length = e.significant.length + 1 := by
  obtain ⟨p, hp, -, hround, -, hfirst⟩ := roundTrip_spec h
  have hlen := length_significant_rounded h hp
  have hpos := (significant_spec (coefficient_ne_zero_of_covers h hc)).length_pos
  rw [hround]
  rcases Nat.lt_or_ge e.significant.length p with hlt | hge
  · obtain ⟨m, hgrid, habove⟩ := exists_grid h hc
    obtain ⟨hpower, hdown, hup⟩ :=
      (hgrid.of_nearer (units_nearest x _ m)).resolve_left (hfirst _ hpos hlt)
    have hsucc := covers_rounded_succ hdown hup hgrid
    have hle : p ≤ e.significant.length + 1 :=
      Nat.le_of_not_lt fun hgt => hfirst _ (Nat.le_add_left 1 _) hgt hsucc
    rcases Nat.lt_or_ge e.significant.length (rounded x p).significant.length with hmore | hless
    · exact .inr ⟨hpower, habove (magnitude_lt_units_iff.mp hup), by omega⟩
    · exact .inl hless
  · exact .inl (hlen.trans hge)

end Decimal

/-! ## Printed digits -/

namespace Number

open Bytes (ascii)

/-- **Digits printed.** Any decimal that rounds to a number that is not written
in full has at least as many significant digits as the number's text, unless the
number is a power of two: then one that lies above it may have one digit less. -/
theorem digits_le_or_power_of_two (hx : x.isFinite = true) (h : x.magnitude ≠ 0)
    (hwhole : isWhole x = false) :
    ∃ w, text x = w.bytes ∧ read? (text x) = some w ∧
      ∀ (negative : Bool) (e : Decimal), e.toBinary64 negative = x →
        w.decimal.significant.length ≤ e.significant.length ∨
          (x.fraction = 0 ∧ 1 < x.exponent) ∧ x.size < e.value ∧
            w.decimal.significant.length = e.significant.length + 1 := by
  refine ⟨written x, (bytes_written hx).symm, read?_text hx, fun negative e he => ?_⟩
  have hd := coefficient_roundTrip h
  have hwritten : written x = .ofDecimal x.negative (Decimal.roundTrip x) := by
    rw [written, if_neg h, hwhole, if_neg Bool.false_ne_true]
  have hvalue : (written x).decimal.value = (Decimal.roundTrip x).value := by
    rw [hwritten, Written.value_ofDecimal _ hd]
  have hcoefficient : (written x).decimal.coefficient ≠ 0 := fun hzero => by
    have hpos := Decimal.value_pos hd
    rw [← hvalue, Decimal.value, hzero, Nat.cast_zero, zero_mul] at hpos
    exact lt_irrefl _ hpos
  rw [Decimal.length_significant_eq hcoefficient hd hvalue]
  exact Decimal.length_roundTrip h ((Binary64.toBinary64_eq_iff hx).mp he).2

theorem third_needs_sixteen_digits :
    ((⟨0x3fd5555555555555⟩ : Binary64).isFinite = true ∧
      (⟨0x3fd5555555555555⟩ : Binary64).magnitude ≠ 0 ∧
      isWhole ⟨0x3fd5555555555555⟩ = false) ∧
    text ⟨0x3fd5555555555555⟩ = ascii "0.3333333333333333" ∧
    ∀ (negative : Bool) (e : Decimal), e.toBinary64 negative = ⟨0x3fd5555555555555⟩ →
      16 ≤ e.significant.length := by
  have hx : (⟨0x3fd5555555555555⟩ : Binary64).isFinite = true := by decide
  have h : (⟨0x3fd5555555555555⟩ : Binary64).magnitude ≠ 0 := by decide +kernel
  have hwhole : isWhole ⟨0x3fd5555555555555⟩ = false := by decide +kernel
  have htext : text ⟨0x3fd5555555555555⟩ = ascii "0.3333333333333333" := by decide +kernel
  obtain ⟨w, -, hread, hdigits⟩ := digits_le_or_power_of_two hx h hwhole
  refine ⟨⟨hx, h, hwhole⟩, htext, fun negative e he => ?_⟩
  have hparts : read? (text ⟨0x3fd5555555555555⟩) =
      some ⟨false, [0], some (List.replicate 16 3), none⟩ := by decide +kernel
  obtain rfl := Option.some.inj (hparts.symm.trans hread)
  have hlength :
      (Written.decimal ⟨false, [0], some (List.replicate 16 3), none⟩).significant.length = 16 := by decide +kernel
  have hfraction : (⟨0x3fd5555555555555⟩ : Binary64).fraction ≠ 0 := by decide +kernel
  rw [hlength] at hdigits
  exact (hdigits negative e he).resolve_right fun hpower => hfraction hpower.1.1

/-- 2^-44 is written with 17 digits, and a decimal of 16 digits rounds to it. -/
theorem power_of_two_has_fewer_digits :
    text ⟨0x3d30000000000000⟩ = ascii "5.6843418860808015e-14" ∧
      (read? (ascii "5.6843418860808015e-14")).map (fun w => w.decimal.significant.length) =
        some 17 ∧
      Decimal.toBinary64 false ⟨5684341886080802, -29⟩ = ⟨0x3d30000000000000⟩ ∧
      (⟨5684341886080802, -29⟩ : Decimal).significant.length = 16 ∧
      (⟨0x3d30000000000000⟩ : Binary64).isFinite = true ∧
      (⟨0x3d30000000000000⟩ : Binary64).magnitude ≠ 0 ∧
      isWhole ⟨0x3d30000000000000⟩ = false := by
  decide +kernel

end Number
end StyleRegistry
