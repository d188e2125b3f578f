import StyleRegistry.Proofs.Number.Draft

/-! # Numbers read back from their texts

The text of a finite number is read back into the parts it was written from.
Their exact value is the number itself if it is whole and otherwise the decimal
that the search found in the number's interval, so the nearest binary number is
the one that was written, and the text tells unequal numbers apart. -/
namespace StyleRegistry

variable {x y : Binary64}

namespace Binary64

/-- A decimal at no distance from a number rounds to it. -/
theorem toBinary64_of_units_eq {d : Decimal} (hx : x.isFinite = true)
    (h : d.units = x.magnitude) : d.toBinary64 x.negative = x := by
  have hpos : (0 : ℚ) < x.ulpBelow := by exact_mod_cast x.ulpBelow_pos
  refine (toBinary64_eq_iff hx).mpr ⟨rfl, Decimal.covers_of_close ?_⟩
  rw [h, sub_self, abs_zero]
  linarith

end Binary64

namespace Number

open Bytes (ascii)

/-! ## The parts of a text -/

/-- The parts that a finite number is written from. -/
def written (x : Binary64) : Written :=
  if x.magnitude = 0 then .ofNat false 0
  else if isWhole x then .ofNat x.negative (x.magnitude / Binary64.one)
  else .ofDecimal x.negative (Decimal.roundTrip x)

theorem bytes_written (hx : x.isFinite = true) : (written x).bytes = text x := by
  obtain ⟨hnan, hinf⟩ := Binary64.isFinite_iff.mp hx
  rw [text, hnan, hinf, if_neg Bool.false_ne_true, if_neg Bool.false_ne_true,
    ← Written.sign_append]
  unfold written magnitudeText
  split
  · decide
  split
  · exact Written.bytes_ofNat _ _
  · exact Written.bytes_ofDecimal _ _

theorem coefficient_roundTrip (h : x.magnitude ≠ 0) : (Decimal.roundTrip x).coefficient ≠ 0 := by
  obtain ⟨p, hp, -, he, -⟩ := Decimal.roundTrip_spec h
  rw [he]
  exact Decimal.coefficient_rounded_ne_zero h hp

theorem proper_written (x : Binary64) : (written x).Proper := by
  unfold written
  split
  · exact Written.proper_ofNat _ _
  rename_i h
  split
  · exact Written.proper_ofNat _ _
  · exact Written.proper_ofDecimal _ (coefficient_roundTrip h)

theorem neat_written (x : Binary64) : (written x).Neat := by
  unfold written
  split
  · exact Written.neat_ofNat _ _
  rename_i h
  split
  · exact Written.neat_ofNat _ _
  · exact Written.neat_ofDecimal _ (coefficient_roundTrip h)

/-- Whole numbers below 10^21 are one or more, so they are in the positional range. -/
theorem exponent_written (x : Binary64) : (written x).exponent ≠ none ↔
    (written x).decimal.value ≠ 0 ∧ ((written x).decimal.value < 10 ^ (-6 : ℤ) ∨
      10 ^ (21 : ℤ) ≤ (written x).decimal.value) := by
  unfold written
  split
  · rw [Written.value_ofNat]
    simp [Written.ofNat]
  rename_i h
  split
  · rename_i hwhole
    obtain ⟨hdvd, hlt⟩ := Draft.isWhole_iff.mp hwhole
    have hpos : 1 ≤ x.magnitude / Binary64.one :=
      Nat.div_pos (Nat.le_of_dvd (Nat.pos_of_ne_zero h) hdvd) Binary64.one_pos
    have hbound := (Nat.div_lt_iff_lt_mul Binary64.one_pos).mpr hlt
    rw [Written.value_ofNat]
    generalize x.magnitude / Binary64.one = n at hpos hbound
    have hlow : (1 : ℚ) ≤ n := by exact_mod_cast hpos
    have hhigh : (n : ℚ) < 10 ^ 21 := by exact_mod_cast hbound
    refine ⟨fun hne => absurd rfl hne, ?_⟩
    rintro ⟨-, hsmall | hlarge⟩
    · norm_num at hsmall
      linarith
    · norm_num at hlarge hhigh
      linarith
  · have hd := coefficient_roundTrip h
    rw [Written.exponent_ofDecimal _ hd, Written.value_ofDecimal _ hd]
    exact (and_iff_right (Decimal.value_pos hd).ne').symm

theorem toBinary64_written (hx : x.isFinite = true) :
    (written x).toBinary64 = if x.magnitude = 0 then ⟨0⟩ else x := by
  unfold written
  split
  · refine Binary64.toBinary64_of_units_eq (x := ⟨0⟩) (by decide) ?_
    rw [Decimal.units, Written.value_ofNat]
    have hzero : (⟨0⟩ : Binary64).magnitude = 0 := by decide
    rw [hzero, Nat.cast_zero, zero_mul]
  rename_i h
  split
  · rename_i hwhole
    refine Binary64.toBinary64_of_units_eq hx ?_
    rw [Decimal.units, Written.value_ofNat]
    exact_mod_cast Nat.div_mul_cancel (Draft.isWhole_iff.mp hwhole).1
  · have hd := coefficient_roundTrip h
    obtain ⟨p, -, -, he, hc, -⟩ := Decimal.roundTrip_spec h
    refine (Binary64.toBinary64_eq_iff hx).mpr ⟨(Written.negative_ofDecimal _ _).symm, ?_⟩
    rw [Decimal.units, Written.value_ofDecimal _ hd, he]
    exact hc

theorem read?_text (hx : x.isFinite = true) : read? (text x) = some (written x) := by
  rw [← bytes_written hx]
  exact Written.read?_bytes (proper_written x)

/-! ## Numbers told apart -/

/-- Texts are equal for equal numbers, among them the two zeros. -/
theorem text_eq_iff (hx : x.isFinite = true) (hy : y.isFinite = true) :
    text x = text y ↔ x.numEq y = true := by
  rw [Binary64.numEq_iff hy]
  constructor
  · intro h
    have hread := read?_text hx
    rw [h, read?_text hy] at hread
    have hvalue := congrArg Written.toBinary64 (Option.some.inj hread)
    rw [toBinary64_written hx, toBinary64_written hy] at hvalue
    have hzero : (⟨0⟩ : Binary64).magnitude = 0 := by decide
    refine ⟨(Binary64.isFinite_iff.mp hx).1, ?_⟩
    split_ifs at hvalue with hym hxm hxm
    · exact .inr ⟨hxm, hym⟩
    · exact absurd (hvalue ▸ hzero) hxm
    · exact absurd (hvalue ▸ hzero) hym
    · exact .inl hvalue.symm
  · rintro ⟨-, rfl | ⟨hxm, hym⟩⟩
    · rfl
    · rw [← bytes_written hx, ← bytes_written hy, written, written, if_pos hxm, if_pos hym]

/-- **Writing loses nothing.** The text of a finite number is read back into neat
parts whose exact value rounds to the number, or to positive zero for the zeros;
the parts have an exponent outside the range from 10^-6 to 10^21; finite numbers
have one text just if they are equal; and a buffer of 32 bytes holds each text
that the number is tried with, so that it is written without loss. -/
theorem text_reads_back (hx : x.isFinite = true) :
    (∃ w, text x = w.bytes ∧ read? (text x) = some w ∧
      w.toBinary64 = (if x.magnitude = 0 then ⟨0⟩ else x) ∧ w.Neat ∧
      (w.exponent ≠ none ↔ w.decimal.value ≠ 0 ∧
        (w.decimal.value < 10 ^ (-6 : ℤ) ∨ 10 ^ (21 : ℤ) ≤ w.decimal.value))) ∧
    (∀ y : Binary64, y.isFinite = true → (text x = text y ↔ x.numEq y = true)) ∧
    Draft.text x = text x ∧
    (isWhole x = true → (Draft.fixed x).bytes.length < 32) ∧
    (x.magnitude ≠ 0 → ∀ precision, 1 ≤ precision → precision ≤ 17 →
      (Draft.general x precision).bytes.length < 32) :=
  ⟨⟨written x, (bytes_written hx).symm, read?_text hx, toBinary64_written hx, neat_written x,
      exponent_written x⟩,
    fun _ hy => text_eq_iff hx hy, Draft.text_eq x, Draft.length_fixed,
    fun h _ hp hle => Draft.length_general hx h hp hle⟩

theorem negative_small_reads_back :
    (⟨0xbe8421f5f40d8376⟩ : Binary64).isFinite = true ∧
      text ⟨0xbe8421f5f40d8376⟩ = ascii "-1.5e-7" ∧
      read? (ascii "-1.5e-7") = some ⟨true, [1], some [5], some (true, [7])⟩ ∧
      Written.toBinary64 ⟨true, [1], some [5], some (true, [7])⟩ = ⟨0xbe8421f5f40d8376⟩ := by
  have hx : (⟨0xbe8421f5f40d8376⟩ : Binary64).isFinite = true := by decide
  have htext : text ⟨0xbe8421f5f40d8376⟩ = ascii "-1.5e-7" := by decide +kernel
  have hparts : read? (ascii "-1.5e-7") = some ⟨true, [1], some [5], some (true, [7])⟩ := by
    decide +kernel
  obtain ⟨⟨w, -, hread, hvalue, -⟩, -⟩ := text_reads_back hx
  rw [htext, hparts] at hread
  rw [if_neg (by decide +kernel), ← Option.some.inj hread] at hvalue
  exact ⟨hx, htext, hparts, hvalue⟩

end Number
end StyleRegistry
