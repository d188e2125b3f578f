import StyleRegistry.Proofs.Number.Closest

/-! # Whole numbers in full and in short

A whole number below 10^21 is written in full, with all digits of its exact
value. In short it is its shortest decimal with zeros up to the units, and that
is one text: decimals on both sides that are equally close would have the number
halfway between them, at an odd multiple of half a power of ten, and the step of
binary numbers that are far enough apart for both to read back leaves it more
factors two than that. The two texts are the same just if the number itself has
the fewest digits. Below 2^54 numbers are at most two apart and it has; above it
need not. -/
namespace StyleRegistry

variable {x : Binary64} {d e : Decimal} {n : ℕ}

/-! ## Whole numbers -/

namespace Binary64

section

variable (hx : x.magnitude = n * one)
include hx

theorem size_of_whole : x.size = n := by
  rw [size, hx, Nat.cast_mul, mul_div_cancel_right₀ _ cast_one_pos.ne']

theorem magnitude_ne_zero (hn : n ≠ 0) : x.magnitude ≠ 0 := by
  rw [hx]
  exact Nat.mul_ne_zero hn one_pos.ne'

theorem isFinite_of_whole (hlt : n < 10 ^ 21) : x.isFinite = true := by
  refine bne_iff_ne.mpr fun hexp => ?_
  have hlarge : 10 ^ 21 * one ≤ 2 ^ 52 * 2 ^ (2047 - 1) := by decide +kernel
  have hsig : 2 ^ 52 ≤ x.significand := by
    rw [significand, if_neg (by omega), Nat.pow_eq]
    exact Nat.le_add_right _ _
  have hmag : 2 ^ 52 * 2 ^ (2047 - 1) ≤ x.magnitude := by
    rw [magnitude_eq, hexp]
    exact Nat.mul_le_mul_right _ hsig
  have hsmall := Nat.mul_lt_mul_of_pos_right hlt one_pos
  rw [← hx] at hsmall
  exact absurd (hlarge.trans hmag) (Nat.not_le_of_gt hsmall)

/-- A whole number is a multiple of each power of two up to its step. -/
theorem two_pow_dvd_of_whole {k : ℕ} (hk : 2 ^ k * one ≤ x.ulp) : 2 ^ k ∣ n := by
  have hulp : 2 ^ k * one ∣ x.ulp := by
    unfold one ulp at hk ⊢
    simp only [Nat.pow_eq] at hk ⊢
    generalize 1074 = j at hk ⊢
    rw [← pow_add] at hk ⊢
    exact Nat.pow_dvd_pow 2 ((Nat.pow_le_pow_iff_right (by decide)).mp hk)
  have hdvd := hulp.mul_left x.significand
  rw [← magnitude, hx] at hdvd
  exact Nat.dvd_of_mul_dvd_mul_right one_pos hdvd

/-- Below 2^54 numbers are at most two apart. -/
theorem ulp_le_of_whole (hlt : n < 2 ^ 54) : x.ulp ≤ 2 * one := by
  rcases x.scaled.full with hleast | hfull
  · rw [ulp, hleast]
    exact (Nat.succ_le_of_lt one_pos).trans (Nat.le_mul_of_pos_left _ two_pos)
  · have hmul : 2 ^ 52 * x.ulp < 2 ^ 54 * one :=
      calc 2 ^ 52 * x.ulp ≤ x.significand * x.ulp := Nat.mul_le_mul_right _ hfull
        _ = n * one := hx
        _ < 2 ^ 54 * one := Nat.mul_lt_mul_of_pos_right hlt one_pos
    have hfour : x.ulp < 2 ^ 2 * one := by omega
    unfold one ulp at hfour ⊢
    simp only [Nat.pow_eq] at hfour ⊢
    generalize 1074 = j at hfour ⊢
    rw [← pow_add] at hfour
    rw [← pow_succ']
    have hexp := (Nat.pow_lt_pow_iff_right (by decide)).mp hfour
    exact Nat.pow_le_pow_right two_pos (by omega)

end

end Binary64

namespace Decimal

open Binary64 (one)

/-! ## Places -/

theorem length_significant_le_place (d : Decimal) :
    (d.significant.length : ℤ) ≤ d.place + 1 - d.scale := by
  obtain ⟨t, ht⟩ := d.digits_eq_append
  rw [place, ht, List.length_append]
  push_cast
  omega

/-- What reads back as a number with the fewest digits and as close as can be
does not fall short of its leading place. -/
theorem IsShortest.leadingPlace_le (hd : d.IsShortest x) (hx : x.isFinite = true)
    (h : x.magnitude ≠ 0) : leadingPlace x ≤ d.place := by
  by_contra hlt
  have hc := (toBinary64_eq_self_iff hx).mp hd.reads
  have hne := coefficient_ne_zero_of_covers h hc
  have hpower : (Decimal.mk 1 (leadingPlace x)).value = 10 ^ leadingPlace x := by
    rw [value_mk, Nat.cast_one, one_mul]
  have hbelow : d.value < (Decimal.mk 1 (leadingPlace x)).value := by
    rw [hpower]
    exact (place_spec hne).2.trans_le (zpow_le_zpow_right₀ (by norm_num) (by omega))
  have habove : (Decimal.mk 1 (leadingPlace x)).value ≤ x.size := hpower ▸ (leadingPlace_spec h).1
  have hreads := (toBinary64_eq_self_iff hx).mpr (covers_of_between hc hbelow.le habove)
  have hone : (Decimal.mk 1 (leadingPlace x)).significant.length = 1 := rfl
  have hpos := (significant_spec hne).length_pos
  have hclose := hd.closest _ hreads (le_antisymm (by omega) (hd.fewest _ hreads))
  rw [abs_of_nonpos (by linarith), abs_of_nonpos (by linarith)] at hclose
  linarith

/-- A shortest decimal below the number is as near as the number's rounding to
so many digits, since that reads back as well. -/
theorem IsShortest.close_of_below (hd : d.IsShortest x) (hx : x.isFinite = true)
    (h : x.magnitude ≠ 0) (hlt : d.value < x.size) :
    |d.value - x.size| ≤ |(rounded x d.significant.length).value - x.size| := by
  have hc := (toBinary64_eq_self_iff hx).mp hd.reads
  have hne := coefficient_ne_zero_of_covers h hc
  have hpos := (significant_spec hne).length_pos
  have hnear : |(rounded x d.significant.length).units - x.magnitude| ≤
      |d.units - x.magnitude| := by
    rw [units_sub_magnitude, units_sub_magnitude]
    exact mul_le_mul_of_nonneg_right (rounded_le_of_length_le h hne (le_refl _))
      (Nat.cast_nonneg one)
  have hcovers := (hc.of_nearer hnear).resolve_right fun hpower =>
    absurd (magnitude_lt_units_iff.mp hpower.2.2) (not_lt.mpr hlt.le)
  have hreads := (toBinary64_eq_self_iff hx).mpr hcovers
  exact hd.closest _ hreads (le_antisymm (length_significant_rounded h hpos) (hd.fewest _ hreads))

section Whole

variable (hn : n ≠ 0) (hx : x.magnitude = n * one)
include hn hx

theorem leadingPlace_of_whole : leadingPlace x = (mk n 0).place := by
  have hle : one ≤ x.magnitude := by
    rw [hx]
    exact Nat.le_mul_of_pos_left _ (Nat.pos_of_ne_zero hn)
  rw [leadingPlace, if_pos hle, hx, Nat.mul_div_cancel _ Binary64.one_pos]

omit hn in
theorem covers_whole : x.Covers (mk n 0).units := by
  have hunits : (mk n 0).units = x.magnitude := by
    rw [units, value_mk, hx, zpow_zero, mul_one, Nat.cast_mul]
  rw [hunits]
  exact x.covers_magnitude

omit hn in
/-- A whole number is on the grid of whole numbers and on each finer one. -/
theorem exists_finer {scale : ℤ} (hs : scale ≤ 0) : ∃ m : ℕ, (mk m scale).value = x.size := by
  obtain ⟨t, rfl⟩ : ∃ t : ℕ, scale = -t := ⟨scale.natAbs, by omega⟩
  refine ⟨n * 10 ^ t, ?_⟩
  rw [Binary64.size_of_whole hx, value_mk, zpow_neg, zpow_natCast]
  push_cast
  field_simp

/-- Two shortest decimals on both sides of a number are neighbours on their grid,
which is one of whole numbers, and the number is halfway between them. -/
theorem exists_neighbours (hfin : x.isFinite = true) (hd : d.IsShortest x) (he : e.IsShortest x)
    (hlt : d.value < e.value) : ∃ a s : ℕ, 2 * n = (2 * a + 1) * 10 ^ s ∧ 10 ^ s * one ≤ x.ulp := by
  have h := Binary64.magnitude_ne_zero hx hn
  have hcd := (toBinary64_eq_self_iff hfin).mp hd.reads
  have hce := (toBinary64_eq_self_iff hfin).mp he.reads
  have hlen : e.significant.length = d.significant.length :=
    le_antisymm (he.fewest d hd.reads) (hd.fewest e he.reads)
  have hmiddle : d.value + e.value = 2 * x.size := by
    have hdist := le_antisymm (hd.closest e he.reads hlen) (he.closest d hd.reads hlen.symm)
    rcases abs_eq_abs.mp hdist with hsame | hsame <;> linarith
  have hclose := hd.close_of_below hfin h (by linarith)
  have hhalf := hclose.trans (rounded_close x d.significant.length)
  rw [abs_of_neg (by linarith)] at hclose hhalf
  obtain ⟨a, ha⟩ := exists_grid_of_place (coefficient_ne_zero_of_covers h hcd)
    (le_refl d.significant.length) (hd.leadingPlace_le hfin h)
  obtain ⟨b, hb⟩ := exists_grid_of_place (coefficient_ne_zero_of_covers h hce) hlen.le
    (he.leadingPlace_le hfin h)
  have hwhole : 0 < (rounded x d.significant.length).scale := by
    by_contra hfine
    obtain ⟨m, hm⟩ := exists_finer hx (not_lt.mp hfine)
    have hnear := rounded_nearest x d.significant.length m
    rw [← value_mk, hm, sub_self, abs_zero] at hnear
    linarith
  obtain ⟨s, hs⟩ := Int.eq_ofNat_of_zero_le hwhole.le
  rw [hs, value_mk, zpow_natCast] at ha hb
  rw [hs, zpow_natCast] at hhalf
  have hpos : (0 : ℚ) < 10 ^ s := by positivity
  obtain rfl : b = a + 1 := by
    have hless : (a : ℚ) * 10 ^ s < b * 10 ^ s := by linarith
    have hnext : (b : ℚ) * 10 ^ s ≤ (a + 1) * 10 ^ s := by linarith
    have hless : a < b := by exact_mod_cast lt_of_mul_lt_mul_right hless hpos.le
    have hnext : b ≤ a + 1 := by exact_mod_cast le_of_mul_le_mul_right hnext hpos
    omega
  refine ⟨a, s, ?_, ?_⟩
  · rw [Binary64.size_of_whole hx, ← ha, ← hb] at hmiddle
    push_cast at hmiddle
    have hsum : (2 * n : ℚ) = (2 * a + 1) * 10 ^ s := by linarith
    exact_mod_cast hsum
  · have hlow := hcd.low
    have hhigh := hce.high
    have hbelow : (x.ulpBelow : ℚ) ≤ x.ulp := by exact_mod_cast x.ulpBelow_le
    have hwidth : e.units - d.units = 10 ^ s * one := by
      rw [units, units, ← ha, ← hb]
      push_cast
      ring
    have hstep : (10 ^ s * one : ℚ) ≤ x.ulp := by linarith
    exact_mod_cast hstep

/-- **No two decimals are the shortest of a whole number.** Two would lie at the
same distance on both sides, one step of their grid apart. The number would be an
odd multiple of half that step, which has fewer factors two than the step between
binary numbers of its size, as that is no shorter. -/
theorem IsShortest.value_eq (hfin : x.isFinite = true) (hd : d.IsShortest x)
    (he : e.IsShortest x) : d.value = e.value := by
  by_contra hne
  wlog hlt : d.value < e.value generalizing d e with hsymm
  · exact hsymm he hd (Ne.symm hne) (lt_of_le_of_ne (not_lt.mp hlt) (Ne.symm hne))
  obtain ⟨a, s, hsum, hstep⟩ := exists_neighbours hn hx hfin hd he hlt
  have hpow : 2 ^ s * one ≤ 10 ^ s * one :=
    Nat.mul_le_mul_right _ (Nat.pow_le_pow_left (by decide) s)
  obtain ⟨c, rfl⟩ := Binary64.two_pow_dvd_of_whole hx (hpow.trans hstep)
  have hten : 10 ^ s = 2 ^ s * 5 ^ s := by rw [← Nat.mul_pow]
  have hodd : 2 * c = (2 * a + 1) * 5 ^ s := by
    refine Nat.eq_of_mul_eq_mul_left (Nat.two_pow_pos s) ?_
    calc 2 ^ s * (2 * c) = (2 * a + 1) * 10 ^ s := by rw [← hsum]; ring
      _ = 2 ^ s * ((2 * a + 1) * 5 ^ s) := by rw [hten]; ring
  have hfive : 5 ^ s % 2 = 1 := by rw [Nat.pow_mod]; simp
  have hmod := congrArg (· % 2) hodd
  simp [Nat.mul_mod, Nat.add_mod, hfive] at hmod

theorem length_le_leadingPlace : ((mk n 0).significant.length : ℤ) ≤ leadingPlace x + 1 := by
  rw [leadingPlace_of_whole hn hx]
  exact (length_significant_le_place (mk n 0)).trans_eq (sub_zero _)

/-- A decimal with fewer digits than a whole number reads back only if a multiple
of ten other than the number does. -/
theorem exists_multiple_of_ten (hc : x.Covers e.units)
    (hfewer : e.significant.length < (mk n 0).significant.length) :
    ∃ m : ℕ, x.Covers (m * 10 * one : ℕ) ∧ m * 10 ≠ n := by
  have h := Binary64.magnitude_ne_zero hx hn
  obtain ⟨m, hgrid, -⟩ := exists_grid h hc
  have hscale := scale_rounded x e.significant.length
  have hplace := length_le_leadingPlace hn hx
  obtain ⟨s, hs⟩ : ∃ s : ℕ, (rounded x e.significant.length).scale = s + 1 :=
    ⟨((rounded x e.significant.length).scale - 1).toNat, by omega⟩
  have hvalue : (mk m (rounded x e.significant.length).scale).value = (m * 10 ^ s * 10 : ℕ) := by
    rw [hs, value_mk, zpow_add_one₀ (by norm_num), zpow_natCast]
    push_cast
    ring
  refine ⟨m * 10 ^ s, ?_, fun he => Nat.not_le_of_gt hfewer ?_⟩
  · rw [units, hvalue] at hgrid
    exact_mod_cast hgrid
  · refine length_significant_le (m := m) (s := s + 1) hn ?_ ?_
    · rw [← hs, ← value_mk, hvalue, he, value_mk, zpow_zero, mul_one]
    · have hsize := (leadingPlace_spec h).2
      rw [Binary64.size_of_whole hx, ← he,
        show leadingPlace x + 1 = ((e.significant.length + (s + 1) : ℕ) : ℤ) by push_cast; omega,
        zpow_natCast, pow_add] at hsize
      have hlt : m * 10 ^ (s + 1) < 10 ^ e.significant.length * 10 ^ (s + 1) := by
        rw [pow_succ 10 s, ← mul_assoc]
        exact_mod_cast hsize
      exact Nat.lt_of_mul_lt_mul_right hlt

/-- A whole number below 2^54 needs all its digits up to the zeros at its end.
With fewer a multiple of ten next to it would read back, and then the number
would be even as well. -/
theorem length_le_of_whole (hlt : n < 2 ^ 54) (hc : x.Covers e.units) :
    (mk n 0).significant.length ≤ e.significant.length := by
  by_contra hfewer
  obtain ⟨m, hm, hne⟩ := exists_multiple_of_ten hn hx hc (Nat.lt_of_not_le hfewer)
  have hulp : (x.ulp : ℚ) ≤ 2 * one := by exact_mod_cast Binary64.ulp_le_of_whole hx hlt
  have hbelow : (x.ulpBelow : ℚ) ≤ x.ulp := by exact_mod_cast x.ulpBelow_le
  have hlow := hm.low
  have hhigh := hm.high
  rw [hx] at hlow hhigh
  push_cast at hlow hhigh
  have hnear {a b : ℕ} (hab : a < b) (hclose : (b * one : ℚ) ≤ a * one + x.ulp / 2) :
      b = a + 1 ∧ 2 ∣ n := by
    have hpos := Binary64.cast_one_pos
    have hgap := mul_le_mul_of_nonneg_right (by exact_mod_cast hab : (a : ℚ) + 1 ≤ b) hpos.le
    have hstep : (2 * one : ℚ) ≤ x.ulp := by linarith
    have hnext : (b : ℚ) ≤ a + 1 := le_of_mul_le_mul_right (by linarith) hpos
    have hnext : b ≤ a + 1 := by exact_mod_cast hnext
    have heven := Binary64.two_pow_dvd_of_whole (k := 1) hx (by rw [pow_one]; exact_mod_cast hstep)
    exact ⟨by omega, heven⟩
  rcases Nat.lt_or_gt_of_ne hne with hless | hmore
  · obtain ⟨he, heven⟩ := hnear hless (by push_cast; linarith)
    omega
  · obtain ⟨he, heven⟩ := hnear hmore (by push_cast; linarith)
    omega

omit hn in
/-- A whole number itself is its shortest decimal if none has fewer digits. -/
theorem isShortest_mk_zero_iff (hfin : x.isFinite = true) : (mk n 0).IsShortest x ↔
    ∀ e : Decimal, e.toBinary64 x.negative = x →
      (mk n 0).significant.length ≤ e.significant.length := by
  refine ⟨IsShortest.fewest, fun h => ⟨(toBinary64_eq_self_iff hfin).mpr (covers_whole hx), h,
    fun e _ _ => ?_⟩⟩
  rw [value_mk, zpow_zero, mul_one, Binary64.size_of_whole hx, sub_self, abs_zero]
  exact abs_nonneg _

/-- The first digit of a shortest decimal stands where the number's does or one
place before it, so its digits end at the units or before. -/
theorem IsShortest.length_le_place (hfin : x.isFinite = true) (hd : d.IsShortest x) :
    (d.significant.length : ℤ) ≤ d.place + 1 := by
  have hreads := (toBinary64_eq_self_iff hfin).mpr (covers_whole hx)
  have hfewest : (d.significant.length : ℤ) ≤ (Decimal.mk n 0).significant.length := by
    exact_mod_cast hd.fewest _ hreads
  have hplace := hd.leadingPlace_le hfin (Binary64.magnitude_ne_zero hx hn)
  have hlen := length_le_leadingPlace hn hx
  omega

end Whole

/-! ## Digits up to the units -/

/-- The digits of a decimal, and zeros behind them up to the units. -/
def toUnits (d : Decimal) : List ℕ :=
  d.significant ++ List.replicate (d.place.toNat + 1 - d.significant.length) 0

end Decimal

namespace Number

open Bytes (ascii)
open Numeral (valueOf)

/-- Digits that do not start with a zero are the numeral of the number they name. -/
theorem digitText_valueOf {ds : List ℕ} (h : ∀ i ∈ ds, i < 10) (hne : ds ≠ [])
    (hhead : ds.head? ≠ some 0) : digitText ds = Numeral.decimal (valueOf 10 ds) := by
  have hdigits : Nat.digits 10 (valueOf 10 ds) = ds.reverse := by
    refine Nat.digits_ofDigits 10 (by decide) _ (fun i hi => h i (List.mem_reverse.mp hi))
      fun hr hz => hhead ?_
    rw [← List.getLast?_reverse, List.getLast?_eq_some_getLast hr, hz]
  have hvalue : valueOf 10 ds ≠ 0 := by
    intro hz
    rw [hz, Nat.digits_zero] at hdigits
    exact hne (List.reverse_eq_nil_iff.mp hdigits.symm)
  rw [Numeral.decimal, Numeral.ofNat_of_pos (by decide) hvalue, hdigits, List.reverse_reverse,
    digitText]

/-- A decimal whose digits end at the units or before is a whole number. -/
theorem digitText_toUnits (hd : d.coefficient ≠ 0)
    (hlen : (d.significant.length : ℤ) ≤ d.place + 1) :
    ∃ k : ℕ, (k : ℚ) = d.value ∧ digitText d.toUnits = Numeral.decimal k := by
  have hs := Decimal.significant_spec hd
  refine ⟨valueOf 10 d.toUnits, ?_, digitText_valueOf (fun i hi => ?_) ?_ ?_⟩
  · obtain ⟨t, ht⟩ := Int.eq_ofNat_of_zero_le (sub_nonneg.mpr hlen)
    have hzeros : d.place.toNat + 1 - d.significant.length = t := by
      have hpos := hs.length_pos
      omega
    rw [Decimal.value_eq, ht, Decimal.toUnits, Numeral.valueOf_append,
      Numeral.valueOf_replicate_zero, List.length_replicate, hzeros]
    push_cast
    rw [add_zero, zpow_natCast]
  · rcases List.mem_append.mp hi with hi | hi
    · exact hs.digit i hi
    · rw [List.eq_of_mem_replicate hi]
      decide
  · exact List.append_ne_nil_of_left_ne_nil hs.ne_nil _
  · rw [Decimal.toUnits, List.head?_append_of_ne_nil _ hs.ne_nil]
    exact hs.head

/-- A text of a whole number in short: its sign, the digits of a shortest decimal
and zeros up to the units. -/
def IsShortestText (x : Binary64) (text : Bytes) : Prop :=
  ∃ d : Decimal, d.IsShortest x ∧ text = Written.sign x.negative ++ digitText d.toUnits

section Whole

variable (hn : n ≠ 0) (hlt : n < 10 ^ 21) (hx : x.magnitude = n * Binary64.one)
include hn hlt hx

theorem text_eq_decimal : text x = Written.sign x.negative ++ Numeral.decimal n := by
  have hwhole : isWhole x = true := by
    refine Draft.isWhole_iff.mpr ⟨⟨n, by rw [hx, Nat.mul_comm]⟩, ?_⟩
    rw [hx]
    exact Nat.mul_lt_mul_of_pos_right hlt Binary64.one_pos
  rw [← bytes_written (Binary64.isFinite_of_whole hx hlt), written,
    if_neg (Binary64.magnitude_ne_zero hx hn), if_pos hwhole, Written.bytes_ofNat, hx,
    Nat.mul_div_cancel _ Binary64.one_pos]

/-- A shortest decimal has the numeral of its value, which is a whole number. -/
theorem digitText_of_isShortest (hd : d.IsShortest x) :
    ∃ k : ℕ, (k : ℚ) = d.value ∧ digitText d.toUnits = Numeral.decimal k := by
  have hfin := Binary64.isFinite_of_whole hx hlt
  have hc := (Decimal.toBinary64_eq_self_iff hfin).mp hd.reads
  exact digitText_toUnits
    (Decimal.coefficient_ne_zero_of_covers (Binary64.magnitude_ne_zero hx hn) hc)
    (hd.length_le_place hn hx hfin)

theorem digitText_eq_of_isShortest (hd : d.IsShortest x) (he : e.IsShortest x) :
    digitText d.toUnits = digitText e.toUnits := by
  obtain ⟨k, hk, hdigits⟩ := digitText_of_isShortest hn hlt hx hd
  obtain ⟨j, hj, hothers⟩ := digitText_of_isShortest hn hlt hx he
  have hvalue := hd.value_eq hn hx (Binary64.isFinite_of_whole hx hlt) he
  rw [← hk, ← hj, Nat.cast_inj] at hvalue
  rw [hdigits, hothers, hvalue]

theorem existsUnique_shortestText : ∃! t, IsShortestText x t := by
  obtain ⟨d, hd⟩ := Decimal.exists_isShortest (Binary64.isFinite_of_whole hx hlt)
    (Binary64.magnitude_ne_zero hx hn)
  refine ⟨_, ⟨d, hd, rfl⟩, ?_⟩
  rintro _ ⟨e, he, rfl⟩
  rw [digitText_eq_of_isShortest hn hlt hx he hd]

/-- The number in full is the number in short just if it is its own shortest decimal. -/
theorem isShortestText_decimal_iff :
    IsShortestText x (Written.sign x.negative ++ Numeral.decimal n) ↔
      (Decimal.mk n 0).IsShortest x := by
  have hfin := Binary64.isFinite_of_whole hx hlt
  have hvalue : (Decimal.mk n 0).value = n := by rw [Decimal.value_mk, zpow_zero, mul_one]
  constructor
  · rintro ⟨d, hd, ht⟩
    obtain ⟨k, hk, hdigits⟩ := digitText_of_isShortest hn hlt hx hd
    rw [hdigits] at ht
    obtain rfl := Numeral.ofNat_injective (by decide) (by decide) (List.append_cancel_left ht)
    have hc := (Decimal.toBinary64_eq_self_iff hfin).mp hd.reads
    have hne := Decimal.coefficient_ne_zero_of_covers (Binary64.magnitude_ne_zero hx hn) hc
    rw [Decimal.isShortest_mk_zero_iff hx hfin,
      Decimal.length_significant_eq (d := ⟨n, 0⟩) hn hne (hvalue.trans hk)]
    exact hd.fewest
  · intro hd
    obtain ⟨k, hk, hdigits⟩ := digitText_of_isShortest hn hlt hx hd
    rw [hvalue, Nat.cast_inj] at hk
    exact ⟨_, hd, by rw [hdigits, hk]⟩

/-- **Whole numbers are written in full.** The text of a whole number below 10^21
is its sign and the numeral of its exact value. The number in short has one text
as well, and that is the text in full just if no decimal with fewer digits reads
back as the number, as it is below 2^54. -/
theorem whole_in_full :
    text x = Written.sign x.negative ++ Numeral.decimal n ∧
    (∃! t, IsShortestText x t) ∧
    (IsShortestText x (text x) ↔ ∀ e : Decimal, e.toBinary64 x.negative = x →
      (Decimal.mk n 0).significant.length ≤ e.significant.length) ∧
    (n < 2 ^ 54 → IsShortestText x (text x)) := by
  have hfin := Binary64.isFinite_of_whole hx hlt
  have hiff : IsShortestText x (text x) ↔ ∀ e : Decimal, e.toBinary64 x.negative = x →
      (Decimal.mk n 0).significant.length ≤ e.significant.length := by
    rw [text_eq_decimal hn hlt hx, isShortestText_decimal_iff hn hlt hx,
      Decimal.isShortest_mk_zero_iff hx hfin]
  refine ⟨text_eq_decimal hn hlt hx, existsUnique_shortestText hn hlt hx, hiff, fun hsmall => ?_⟩
  exact hiff.mpr fun e he =>
    Decimal.length_le_of_whole hn hx hsmall ((Decimal.toBinary64_eq_self_iff hfin).mp he)

end Whole

/-- -2^53 in full and in short. -/
theorem negative_two_pow_53_in_full :
    (9007199254740992 ≠ 0 ∧ 9007199254740992 < 10 ^ 21 ∧ 9007199254740992 < 2 ^ 54 ∧
      (⟨0xc340000000000000⟩ : Binary64).magnitude = 9007199254740992 * Binary64.one) ∧
    text ⟨0xc340000000000000⟩ = ascii "-9007199254740992" ∧
    IsShortestText ⟨0xc340000000000000⟩ (ascii "-9007199254740992") := by
  have hx : (⟨0xc340000000000000⟩ : Binary64).magnitude = 9007199254740992 * Binary64.one := by
    decide +kernel
  obtain ⟨htext, -, -, hshort⟩ := whole_in_full (by decide) (by decide) hx
  have hfull : Written.sign (⟨0xc340000000000000⟩ : Binary64).negative ++
      Numeral.decimal 9007199254740992 = ascii "-9007199254740992" := by decide +kernel
  rw [hfull] at htext
  have hshort := hshort (by decide)
  rw [htext] at hshort
  exact ⟨⟨by decide, by decide, by decide, hx⟩, htext, hshort⟩

/-- 123456789012345683968 is written with all its digits, and seventeen are enough. -/
theorem long_whole_has_fewer_digits :
    (⟨0x441ac53a7e04bcda⟩ : Binary64).magnitude = 123456789012345683968 * Binary64.one ∧
    text ⟨0x441ac53a7e04bcda⟩ = ascii "123456789012345683968" ∧
    IsShortestText ⟨0x441ac53a7e04bcda⟩ (ascii "123456789012345680000") ∧
    ¬ IsShortestText ⟨0x441ac53a7e04bcda⟩ (text ⟨0x441ac53a7e04bcda⟩) := by
  have hx : (⟨0x441ac53a7e04bcda⟩ : Binary64).magnitude =
      123456789012345683968 * Binary64.one := by decide +kernel
  have hfin : (⟨0x441ac53a7e04bcda⟩ : Binary64).isFinite = true := by decide
  have h : (⟨0x441ac53a7e04bcda⟩ : Binary64).magnitude ≠ 0 := by decide +kernel
  have hfraction : (⟨0x441ac53a7e04bcda⟩ : Binary64).fraction ≠ 0 := by decide +kernel
  have hround : Decimal.roundTrip ⟨0x441ac53a7e04bcda⟩ = ⟨12345678901234568, 4⟩ := by
    decide +kernel
  have hshort := Decimal.isShortest_roundTrip hfin h fun e hc =>
    (Decimal.length_roundTrip h hc).resolve_right fun hpower => hfraction hpower.1.1
  rw [hround] at hshort
  have htext : text ⟨0x441ac53a7e04bcda⟩ = ascii "123456789012345683968" := by decide +kernel
  have hdigits : ascii "123456789012345680000" =
      Written.sign (⟨0x441ac53a7e04bcda⟩ : Binary64).negative ++
        digitText (Decimal.mk 12345678901234568 4).toUnits := by decide +kernel
  have hfewer : ¬ (Decimal.mk 123456789012345683968 0).significant.length ≤
      (Decimal.mk 12345678901234568 4).significant.length := by decide +kernel
  refine ⟨hx, htext, ⟨_, hshort, hdigits⟩, fun hfull => hfewer ?_⟩
  rw [text_eq_decimal (by decide) (by decide) hx,
    isShortestText_decimal_iff (by decide) (by decide) hx] at hfull
  exact hfull.fewest _ hshort.reads

end Number
end StyleRegistry
