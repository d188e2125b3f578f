import Mathlib.Data.Nat.Digits.Defs
import StyleRegistry.Hash

/-! # Numerals name numbers

The numeral of a number other than zero has the number's digits, so in bases
up to 36, where each digit has a byte of its own, no two numbers share a
numeral. -/
namespace StyleRegistry.Numeral

/-- The number that digits name, the most significant first. -/
def valueOf (base : Nat) (ds : List Nat) : Nat := Nat.ofDigits base ds.reverse

theorem digit_injOn {a b : Nat} (ha : a < 36) (hb : b < 36) (h : digit a = digit b) : a = b := by
  have hd : ∀ a : Fin 36, ∀ b : Fin 36, digit a = digit b → a = b := by decide
  exact congrArg Fin.val (hd ⟨a, ha⟩ ⟨b, hb⟩ h)

theorem digits_eq {base steps n : Nat} (hb : 1 < base) (h : n ≤ steps) (tail : List Nat) :
    digits base steps n tail = (Nat.digits base n).reverse ++ tail := by
  induction steps generalizing n tail with
  | zero =>
    obtain rfl : n = 0 := Nat.le_zero.mp h
    simp [digits]
  | succ steps ih =>
    unfold digits
    split
    · rename_i hn
      simp [hn]
    · rename_i hn
      have hpos := Nat.pos_of_ne_zero hn
      have hlt := Nat.div_lt_self hpos hb
      have hle : n / base ≤ steps := by omega
      rw [ih hle, Nat.digits_def' hb hpos, List.reverse_cons, List.append_assoc]
      rfl

theorem ofNat_of_pos {base n : Nat} (hb : 1 < base) (hn : n ≠ 0) :
    ofNat base n = (Nat.digits base n).reverse.map digit := by
  rw [ofNat, if_neg hn, digits_eq hb (Nat.le_refl n) [], List.append_nil]

theorem map_digit_injOn {xs ys : List Nat} (hx : ∀ d ∈ xs, d < 36) (hy : ∀ d ∈ ys, d < 36)
    (h : xs.map digit = ys.map digit) : xs = ys := by
  induction xs generalizing ys with
  | nil => exact (List.map_eq_nil_iff.mp h.symm).symm
  | cons x xs ih =>
    obtain ⟨y, ys, rfl, hd, ht⟩ := List.map_eq_cons_iff.mp h.symm
    have hhead := digit_injOn (hx x List.mem_cons_self) (hy y List.mem_cons_self) hd.symm
    have htail := ih (fun d hm => hx d (List.mem_cons_of_mem _ hm))
      (fun d hm => hy d (List.mem_cons_of_mem _ hm)) ht.symm
    rw [hhead, htail]

theorem digits_lt {base : Nat} (hb : 1 < base) (h36 : base ≤ 36) (n : Nat) :
    ∀ d ∈ (Nat.digits base n).reverse, d < 36 := fun _ hd =>
  Nat.lt_of_lt_of_le (Nat.digits_lt_base hb (List.mem_reverse.mp hd)) h36

/-- The numeral of zero is a digit that is no other number's numeral. -/
theorem ofNat_ne_zero {base n : Nat} (hb : 1 < base) (h36 : base ≤ 36) (hn : n ≠ 0) :
    ofNat base n ≠ [digit 0] := by
  rw [ofNat_of_pos hb hn]
  intro h
  have hz : (Nat.digits base n).reverse = [0] :=
    map_digit_injOn (digits_lt hb h36 n) (by simp) h
  have hd : Nat.digits base n = [0] := List.reverse_inj.mp hz
  have hv := Nat.ofDigits_digits base n
  rw [hd] at hv
  exact hn hv.symm

theorem ofNat_injective {base : Nat} (hb : 1 < base) (h36 : base ≤ 36) {n m : Nat}
    (h : ofNat base n = ofNat base m) : n = m := by
  by_cases hn : n = 0
  · by_cases hm : m = 0
    · rw [hn, hm]
    · exact absurd (h.symm.trans (by rw [hn]; rfl)) (ofNat_ne_zero hb h36 hm)
  · by_cases hm : m = 0
    · exact absurd (h.trans (by rw [hm]; rfl)) (ofNat_ne_zero hb h36 hn)
    · rw [ofNat_of_pos hb hn, ofNat_of_pos hb hm] at h
      exact Nat.digits_inj_iff.mp (List.reverse_inj.mp
        (map_digit_injOn (digits_lt hb h36 n) (digits_lt hb h36 m) h))

/-- A numeral is made of digits. -/
theorem exists_digit_of_mem {base n : Nat} (hb : 1 < base) (h36 : base ≤ 36) {b : UInt8}
    (h : b ∈ ofNat base n) : ∃ d < 36, b = digit d := by
  by_cases hn : n = 0
  · rw [ofNat, if_pos hn] at h
    exact ⟨0, by decide, List.mem_singleton.mp h⟩
  · rw [ofNat_of_pos hb hn] at h
    obtain ⟨d, hd, rfl⟩ := List.mem_map.mp h
    exact ⟨d, digits_lt hb h36 n d hd, rfl⟩

end StyleRegistry.Numeral

namespace StyleRegistry.Hash

/-- Two hashes with one name are one hash. -/
theorem text_injective {h k : UInt32} (he : text h = text k) : h = k :=
  UInt32.toNat_inj.mp (Numeral.ofNat_injective (by decide) (by decide) he)

end StyleRegistry.Hash
