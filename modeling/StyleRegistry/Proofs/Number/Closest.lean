import Mathlib.Algebra.Order.Archimedean.Basic
import StyleRegistry.Proofs.Number.Shortest

/-! # The closest of the shortest decimals

Of the decimals that read back as a number, those with the fewest digits may be
several, and then one of them is closest to it. There always is one: what the
search finds, where no decimal has fewer digits, and otherwise, at a power of
two, the first point of the coarser grid above the number. -/
namespace StyleRegistry

variable {x : Binary64} {d e : Decimal}

namespace Decimal

/-- A decimal that reads back as the number's magnitude, with the fewest digits
of all that do and the closest to it of those with as many. -/
structure IsShortest (d : Decimal) (x : Binary64) : Prop where
  reads : d.toBinary64 x.negative = x
  fewest : ∀ e : Decimal, e.toBinary64 x.negative = x →
    d.significant.length ≤ e.significant.length
  closest : ∀ e : Decimal, e.toBinary64 x.negative = x →
    e.significant.length = d.significant.length → |d.value - x.size| ≤ |e.value - x.size|

theorem toBinary64_eq_self_iff (hx : x.isFinite = true) :
    d.toBinary64 x.negative = x ↔ x.Covers d.units :=
  (Binary64.toBinary64_eq_iff hx).trans (and_iff_right rfl)

/-- A number's rounding to so many digits is as near as any decimal with as
many or fewer. -/
theorem rounded_le_of_length_le (h : x.magnitude ≠ 0) (he : e.coefficient ≠ 0) {n : ℕ}
    (hn : e.significant.length ≤ n) : |(rounded x n).value - x.size| ≤ |e.value - x.size| := by
  obtain ⟨m, hm⟩ := exists_grid_value h he hn
  have hnear := rounded_nearest x n m
  rw [← value_mk] at hnear
  refine hnear.trans ?_
  rcases hm with hm | ⟨hlt, hle⟩
  · rw [hm]
  · rw [abs_of_nonpos (by linarith), abs_of_nonpos (by linarith)]
    linarith

/-- Between a decimal that reads back and the number all decimals read back. -/
theorem covers_of_between (hc : x.Covers e.units) (hed : e.value ≤ d.value)
    (hd : d.value ≤ x.size) : x.Covers d.units := by
  refine hc.convex x.covers_magnitude (units_le_of_value_le hed) ?_
  exact not_lt.mp (mt magnitude_lt_units_iff.mp (not_lt.mpr hd))

theorem covers_of_between_above (hc : x.Covers e.units) (hd : x.size < d.value)
    (hde : d.value ≤ e.value) : x.Covers d.units :=
  x.covers_magnitude.convex hc (magnitude_lt_units_iff.mpr hd).le (units_le_of_value_le hde)

/-! ## There is one -/

theorem isShortest_roundTrip (hx : x.isFinite = true) (h : x.magnitude ≠ 0)
    (hfewest : ∀ e : Decimal, x.Covers e.units →
      (roundTrip x).significant.length ≤ e.significant.length) : (roundTrip x).IsShortest x := by
  obtain ⟨p, hp, -, hround, hc, -⟩ := roundTrip_spec h
  have hlen := length_significant_rounded h hp
  rw [hround] at hfewest ⊢
  refine ⟨(toBinary64_eq_self_iff hx).mpr hc,
    fun e he => hfewest e ((toBinary64_eq_self_iff hx).mp he), fun e he hsame => ?_⟩
  have hne := coefficient_ne_zero_of_covers h ((toBinary64_eq_self_iff hx).mp he)
  exact rounded_le_of_length_le h hne (hsame.trans_le hlen)

theorem value_mk_le {m i : ℕ} (hle : m ≤ i) (scale : ℤ) :
    (mk m scale).value ≤ (mk i scale).value := by
  simp only [value_mk]
  gcongr

theorem exists_least_above (u : ℚ) (scale : ℤ) :
    ∃ m : ℕ, u < (mk m scale).value ∧ ∀ i : ℕ, u < (mk i scale).value → m ≤ i := by
  classical
  have hex : ∃ i : ℕ, u < (mk i scale).value :=
    (exists_nat_gt (u / 10 ^ scale)).imp fun i hi => (div_lt_iff₀ (by positivity)).mp hi
  exact ⟨Nat.find hex, Nat.find_spec hex, fun i hi => Nat.find_min' hex hi⟩

/-- Where a decimal has fewer digits than what the search finds, the first point
of its grid above the number is shortest. -/
theorem exists_isShortest_above (hx : x.isFinite = true) (h : x.magnitude ≠ 0)
    (hc : x.Covers e.units) (hlt : e.significant.length < (roundTrip x).significant.length) :
    ∃ d : Decimal, d.IsShortest x := by
  obtain ⟨k, hk⟩ : ∃ k, (roundTrip x).significant.length = k + 1 :=
    Nat.exists_eq_succ_of_ne_zero (by omega)
  have hlengths {e : Decimal} (hc : x.Covers e.units) : k + 1 ≤ e.significant.length ∨
      x.size < e.value ∧ e.significant.length = k := by
    rcases length_roundTrip h hc with hle | ⟨-, habove, hlen⟩
    · exact .inl (hk ▸ hle)
    · exact .inr ⟨habove, by omega⟩
  obtain ⟨-, hlen⟩ := (hlengths hc).resolve_left (by omega)
  have hpos := (significant_spec (coefficient_ne_zero_of_covers h hc)).length_pos
  obtain ⟨m, hm, hleast⟩ := exists_least_above x.size (rounded x k).scale
  have hnext {e : Decimal} (hc : x.Covers e.units) (hlen : e.significant.length = k) :
      (mk m (rounded x k).scale).value ≤ e.value := by
    obtain ⟨habove, -⟩ := (hlengths hc).resolve_left (by omega)
    obtain ⟨i, hi | ⟨hbelow, hle⟩⟩ :=
      exists_grid_value h (coefficient_ne_zero_of_covers h hc) hlen.le
    · rw [← hi] at habove ⊢
      exact value_mk_le (hleast i habove) _
    · linarith
  have hcovers := covers_of_between_above hc hm (hnext hc hlen)
  have hlength : (mk m (rounded x k).scale).significant.length = k := by
    have hne := coefficient_ne_zero_of_covers h hcovers
    have hle : (mk m (rounded x k).scale).coefficient ≤ 10 ^ k := by
      refine hleast _ ((leadingPlace_spec h).2.trans_eq ?_)
      rw [scale_rounded, value_mk]
      push_cast
      rw [← zpow_natCast, ← zpow_add₀ (by norm_num)]
      refine congrArg _ ?_
      ring
    have hshort := length_significant_le_of_le hne (by omega) hle
    exact ((hlengths hcovers).resolve_left (by omega)).2
  refine ⟨_, (toBinary64_eq_self_iff hx).mpr hcovers, fun e he => ?_, fun e he hsame => ?_⟩
  · have hlengths := hlengths ((toBinary64_eq_self_iff hx).mp he)
    omega
  · have hle := hnext ((toBinary64_eq_self_iff hx).mp he) (hsame.trans hlength)
    rw [abs_of_nonneg (by linarith), abs_of_nonneg (by linarith)]
    linarith

/-- **Every finite number other than zero has a shortest decimal.** -/
theorem exists_isShortest (hx : x.isFinite = true) (h : x.magnitude ≠ 0) :
    ∃ d : Decimal, d.IsShortest x := by
  by_cases hfewest : ∀ e : Decimal, x.Covers e.units →
      (roundTrip x).significant.length ≤ e.significant.length
  · exact ⟨_, isShortest_roundTrip hx h hfewest⟩
  · push Not at hfewest
    obtain ⟨e, hc, hlt⟩ := hfewest
    exact exists_isShortest_above hx h hc hlt

end Decimal
end StyleRegistry
