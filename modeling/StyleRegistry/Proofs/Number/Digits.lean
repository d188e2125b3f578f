import Mathlib.Data.List.TakeWhile
import Mathlib.Data.Nat.Digits.Lemmas
import StyleRegistry.Proofs.Number.Rounding
import StyleRegistry.Proofs.Numeral

/-! # Significant digits

A decimal is known by its significant digits, which have no zero at either end,
and by its place, the power of ten that the first of them counts. As many
significant digits as a decimal has are needed for its value on any scale. -/
namespace StyleRegistry

/-! ## Numbers named by digits -/

namespace Numeral

theorem valueOf_append (xs ys : List ℕ) :
    valueOf 10 (xs ++ ys) = valueOf 10 xs * 10 ^ ys.length + valueOf 10 ys := by
  rw [valueOf, List.reverse_append, Nat.ofDigits_append, List.length_reverse, valueOf, valueOf]
  ring

@[simp] theorem valueOf_replicate_zero (n : ℕ) : valueOf 10 (List.replicate n 0) = 0 := by
  rw [valueOf, List.reverse_replicate, Nat.ofDigits_replicate_zero]

theorem valueOf_digits (n : ℕ) : valueOf 10 (digits 10 n n []) = n := by
  rw [digits_eq (by decide) (Nat.le_refl n), List.append_nil, valueOf, List.reverse_reverse,
    Nat.ofDigits_digits]

/-- Digits with no zero at either end. -/
structure Significant (ds : List ℕ) : Prop where
  digit : ∀ x ∈ ds, x < 10
  ne_nil : ds ≠ []
  head : ds.head? ≠ some 0
  last : ds.getLast? ≠ some 0

namespace Significant

variable {ds : List ℕ} (h : Significant ds)
include h

theorem length_pos : 0 < ds.length := List.length_pos_iff.mpr h.ne_nil

theorem valueOf_lt : valueOf 10 ds < 10 ^ ds.length := by
  rw [← List.length_reverse]
  exact Nat.ofDigits_lt_base_pow_length (by decide) fun x hx => h.digit x (List.mem_reverse.mp hx)

theorem le_valueOf : 10 ^ ds.length ≤ 10 * valueOf 10 ds := by
  have hne : ds.reverse ≠ [] := mt List.reverse_eq_nil_iff.mp h.ne_nil
  have hlast : ds.reverse.getLast hne ≠ 0 := fun hz => h.head (by
    rw [← List.getLast?_reverse, List.getLast?_eq_some_getLast hne, hz])
  rw [← List.length_reverse]
  exact Nat.pow_length_le_mul_ofDigits hne hlast

theorem valueOf_mod : valueOf 10 ds % 10 ≠ 0 := by
  have hne : ds.reverse ≠ [] := mt List.reverse_eq_nil_iff.mp h.ne_nil
  have hlast := h.last
  rw [← List.head?_reverse] at hlast
  rw [valueOf]
  cases hr : ds.reverse with
  | nil => exact absurd hr hne
  | cons x rest =>
    rw [hr, List.head?_cons] at hlast
    have hx : x < 10 := h.digit x (List.mem_reverse.mp (hr ▸ List.mem_cons_self))
    have hz : x ≠ 0 := fun hz => hlast (congrArg some hz)
    rw [Nat.ofDigits_cons]
    omega

/-- No number with the same value on another scale has fewer digits. -/
theorem length_le {m s t n : ℕ} (he : valueOf 10 ds * 10 ^ s = m * 10 ^ t) (hm : m < 10 ^ n) :
    ds.length ≤ n := by
  have hle : valueOf 10 ds ≤ m := by
    rcases Nat.le_total t s with hts | hst
    · obtain ⟨i, rfl⟩ := Nat.exists_eq_add_of_le hts
      have hm : valueOf 10 ds * 10 ^ i = m := by
        refine Nat.eq_of_mul_eq_mul_right (by positivity : 0 < 10 ^ t) ?_
        rw [← he, pow_add]
        ring
      rw [← hm]
      exact Nat.le_mul_of_pos_right _ (by positivity)
    · obtain ⟨i, rfl⟩ := Nat.exists_eq_add_of_le hst
      have hm : valueOf 10 ds = m * 10 ^ i := by
        refine Nat.eq_of_mul_eq_mul_right (by positivity : 0 < 10 ^ s) ?_
        rw [he, pow_add]
        ring
      cases i with
      | zero => rw [hm, pow_zero, mul_one]
      | succ i => exact absurd (by rw [hm, pow_succ, ← mul_assoc, Nat.mul_mod_left]) h.valueOf_mod
  have hlt : 10 ^ ds.length < 10 ^ (n + 1) := by
    have hlow := h.le_valueOf
    rw [pow_succ]
    omega
  exact Nat.lt_succ_iff.mp ((Nat.pow_lt_pow_iff_right (by decide)).mp hlt)

end Significant
end Numeral

/-! ## The digits of a decimal -/

namespace Decimal

open Numeral (valueOf Significant)

variable {d : Decimal}

theorem valueOf_digits (d : Decimal) : valueOf 10 d.digits = d.coefficient :=
  Numeral.valueOf_digits d.coefficient

theorem digits_eq (d : Decimal) : d.digits = (Nat.digits 10 d.coefficient).reverse := by
  rw [digits, Numeral.digits_eq (by decide) (Nat.le_refl _), List.append_nil]

theorem digits_eq_append (d : Decimal) : ∃ t, d.digits = d.significant ++ List.replicate t 0 := by
  refine ⟨(d.digits.reverse.takeWhile (· == 0)).length, ?_⟩
  have hzeros : d.digits.reverse.takeWhile (· == 0) =
      List.replicate (d.digits.reverse.takeWhile (· == 0)).length 0 :=
    List.eq_replicate_of_mem fun x hx => by simpa using List.mem_takeWhile_imp hx
  have hsplit := congrArg List.reverse
    (List.takeWhile_append_dropWhile (p := (· == 0)) (l := d.digits.reverse))
  rw [List.reverse_append, List.reverse_reverse, hzeros, List.reverse_replicate] at hsplit
  exact hsplit.symm

theorem significant_spec (h : d.coefficient ≠ 0) : Significant d.significant := by
  obtain ⟨t, ht⟩ := d.digits_eq_append
  have hne : d.significant ≠ [] := by
    intro hnil
    rw [hnil, List.nil_append] at ht
    exact h (by rw [← d.valueOf_digits, ht, Numeral.valueOf_replicate_zero])
  refine ⟨fun x hx => ?_, hne, ?_, ?_⟩
  · have hmem : x ∈ d.digits := by
      rw [ht]
      exact List.mem_append_left _ hx
    rw [digits_eq] at hmem
    exact Nat.digits_lt_base (by decide) (List.mem_reverse.mp hmem)
  · have hhead : d.significant.head? = d.digits.head? := by
      rw [ht, List.head?_append_of_ne_nil _ hne]
    have hdigits : Nat.digits 10 d.coefficient ≠ [] := Nat.digits_ne_nil_iff_ne_zero.mpr h
    rw [hhead, digits_eq, List.head?_reverse, List.getLast?_eq_some_getLast hdigits]
    exact fun hz => Nat.getLast_digit_ne_zero 10 h (Option.some.inj hz)
  · have hhead := List.head?_dropWhile_not (· == 0) d.digits.reverse
    rw [significant, List.getLast?_reverse]
    intro hz
    rw [hz] at hhead
    simp at hhead

theorem length_digits (h : d.coefficient ≠ 0) : 0 < d.digits.length := by
  obtain ⟨t, ht⟩ := d.digits_eq_append
  rw [ht, List.length_append]
  exact Nat.add_pos_left (significant_spec h).length_pos _

/-- The value from the digits and their place. -/
theorem value_eq (d : Decimal) :
    d.value = valueOf 10 d.significant * 10 ^ (d.place + 1 - d.significant.length) := by
  obtain ⟨t, ht⟩ := d.digits_eq_append
  have hcoefficient : d.coefficient = valueOf 10 d.significant * 10 ^ t := by
    rw [← d.valueOf_digits, ht, Numeral.valueOf_append, List.length_replicate,
      Numeral.valueOf_replicate_zero, add_zero]
  have hplace : d.place + 1 - d.significant.length = d.scale + t := by
    rw [place, ht, List.length_append, List.length_replicate]
    push_cast
    ring
  rw [value, hplace, zpow_add₀ (by norm_num), zpow_natCast, hcoefficient]
  push_cast
  ring

theorem value_pos (h : d.coefficient ≠ 0) : 0 < d.value := by
  have hpos : (0 : ℚ) < d.coefficient := by exact_mod_cast Nat.pos_of_ne_zero h
  unfold value
  positivity

/-- The value is at least one of its place and less than ten. -/
theorem place_spec (h : d.coefficient ≠ 0) :
    (10 : ℚ) ^ d.place ≤ d.value ∧ d.value < 10 ^ (d.place + 1) := by
  have hs := significant_spec h
  have hlow : ((10 ^ d.significant.length : ℕ) : ℚ) ≤ ((10 * valueOf 10 d.significant : ℕ) : ℚ) :=
    Nat.cast_le.mpr hs.le_valueOf
  have hhigh : ((valueOf 10 d.significant : ℕ) : ℚ) < ((10 ^ d.significant.length : ℕ) : ℚ) :=
    Nat.cast_lt.mpr hs.valueOf_lt
  push_cast at hlow hhigh
  have hpos : (0 : ℚ) < 10 ^ (d.place + 1 - d.significant.length) := by positivity
  have hsplit : (10 : ℚ) ^ (d.place + 1) =
      10 ^ d.significant.length * 10 ^ (d.place + 1 - d.significant.length) := by
    rw [← zpow_natCast, ← zpow_add₀ (by norm_num)]
    congr 1
    ring
  have hnext : (10 : ℚ) ^ (d.place + 1) = 10 * 10 ^ d.place := by
    rw [zpow_add_one₀ (by norm_num), mul_comm]
  rw [value_eq]
  refine ⟨?_, hsplit ▸ mul_lt_mul_of_pos_right hhigh hpos⟩
  have hle := mul_le_mul_of_nonneg_right hlow hpos.le
  rw [← hsplit, hnext] at hle
  linarith

/-- A value below 10^`n` on some scale has at most `n` significant digits. -/
theorem length_significant_le {m n : ℕ} {s : ℤ} (h : d.coefficient ≠ 0)
    (hv : d.value = m * 10 ^ s) (hm : m < 10 ^ n) : d.significant.length ≤ n := by
  rw [value_eq] at hv
  -- Both sides are whole on the finer of the two scales.
  have hwhole : valueOf 10 d.significant * 10 ^ (d.place + 1 - d.significant.length - s).toNat =
      m * 10 ^ (s - (d.place + 1 - d.significant.length)).toNat := by
    have hsplit : ∀ a b : ℤ, (10 : ℚ) ^ a = 10 ^ (a - b).toNat * 10 ^ min a b := fun a b => by
      rw [← zpow_natCast, ← zpow_add₀ (by norm_num)]
      congr 1
      omega
    rw [hsplit _ s, hsplit s (d.place + 1 - d.significant.length), min_comm s, ← mul_assoc,
      ← mul_assoc] at hv
    exact_mod_cast mul_right_cancel₀ (by positivity) hv
  exact (significant_spec h).length_le hwhole hm

/-- So has the next power of ten. -/
theorem length_significant_le_of_le {n : ℕ} (h : d.coefficient ≠ 0) (hn : 1 ≤ n)
    (hle : d.coefficient ≤ 10 ^ n) : d.significant.length ≤ n := by
  rcases Nat.lt_or_eq_of_le hle with hlt | he
  · exact length_significant_le h rfl hlt
  · refine length_significant_le (m := 1) (s := d.scale + n) h ?_
      (Nat.one_lt_pow (by omega) (by decide))
    rw [value, he, zpow_add₀ (by norm_num), zpow_natCast]
    push_cast
    ring

end Decimal
end StyleRegistry
