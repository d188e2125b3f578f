import StyleRegistry.Proofs.Number.Notation
import StyleRegistry.Proofs.Number.Precision

/-! # Writing through a buffer

A number's text put together in steps: a whole number is rounded to no decimal
places; any other is written with 1, 2, ... significant digits, each time into
a buffer of fixed size, until what the buffer holds reads back, and the text is
then edited, the point moved or the exponent's padding dropped. No step fills
the buffer, and the result is the number's text. The steps choose the notation
by the count of digits as well, but the digits of a number with a fraction
always reach its point. -/
namespace StyleRegistry.Number.Draft

open Bytes (ascii)
open Numeral (valueOf)
open Written (sign)

/-! ## The steps -/

/-- A buffer of 32 bytes keeps the last one for the mark of the end. -/
def buffer (text : Bytes) : Bytes := text.take 31

/-- The nearest whole number, in full. -/
def fixed (x : Binary64) : Written :=
  Written.ofNat x.negative (Decimal.nearest x 0).coefficient

/-- An exponent has at least two digits. -/
def padded (n : ℕ) : List ℕ := if n < 10 then [0, n] else Written.wholeDigits n

/-- The number rounded to `precision` significant digits, without zeros at the
end, and with a power of ten if the digits do not reach the point or more than
three zeros would follow it. -/
def general (x : Binary64) (precision : ℕ) : Written :=
  let d := Decimal.rounded x precision
  if -4 ≤ d.place ∧ d.place < precision then Written.positional x.negative d
  else Written.scientific x.negative d (padded d.place.natAbs)

def readsAs (text : Bytes) (x : Binary64) : Bool :=
  (read? text).any fun w => w.toBinary64.numEq x

/-- Tries up to `left` precisions from `precision` on and then takes the next. -/
def search (x : Binary64) : ℕ → ℕ → Bytes
  | 0, precision => buffer (general x precision).bytes
  | left + 1, precision =>
    if readsAs (buffer (general x precision).bytes) x then buffer (general x precision).bytes
    else search x left (precision + 1)

/-- The value of the signed digits at the head of a text. -/
def signedValue : Bytes → ℤ
  | 45 :: rest => -valueOf 10 (readDigits rest).1
  | 43 :: rest => valueOf 10 (readDigits rest).1
  | text => valueOf 10 (readDigits text).1

/-- Zeros at the head are dropped up to the last byte. -/
def unpad : Bytes → Bytes
  | 48 :: next :: rest => unpad (next :: rest)
  | text => text

/-- The mantissa's digits behind a point and as many zeros as a negative
exponent asks for. -/
def shifted (mantissa : Bytes) (exponent : ℤ) : Bytes :=
  ascii (if (readSign mantissa).1 then "-0." else "0.") ++
    (List.replicate ((-exponent).toNat - 1) 48 ++ (readSign mantissa).2.filter (· != 46))

/-- Exponents from -6 to -1 are written out, and others lose their padding. -/
def edit (text : Bytes) : Bytes :=
  let mantissa := text.takeWhile (· != 101)
  match text.dropWhile (· != 101) with
  | [] => text
  | mark :: rest =>
    if -6 ≤ signedValue rest ∧ signedValue rest < 0 then shifted mantissa (signedValue rest)
    else mantissa ++ mark :: (rest.take 1 ++ unpad (rest.drop 1))

def text (x : Binary64) : Bytes :=
  if x.isNaN then ascii "NaN"
  else if x.isInfinite then ascii (if x.negative then "-Infinity" else "Infinity")
  else if x.magnitude = 0 then ascii "0"
  else if isWhole x then buffer (fixed x).bytes
  else edit (search x 16 1)

/-! ## Whole numbers -/

variable {x : Binary64}

theorem isWhole_iff : isWhole x = true ↔
    Binary64.one ∣ x.magnitude ∧ x.magnitude < 10 ^ 21 * Binary64.one := by
  simp only [isWhole, Bool.and_eq_true, beq_iff_eq, decide_eq_true_eq, Nat.pow_eq,
    Nat.dvd_iff_mod_eq_zero]

theorem coefficient_nearest_zero (h : isWhole x = true) :
    (Decimal.nearest x 0).coefficient = x.magnitude / Binary64.one := by
  have hzero : x.magnitude % Binary64.one = 0 := Nat.mod_eq_zero_of_dvd (isWhole_iff.mp h).1
  have hone := Binary64.one_pos
  rw [Decimal.nearest, if_pos (le_refl 0)]
  dsimp only
  rw [Int.toNat_zero, Nat.pow_eq, Nat.pow_zero, Nat.mul_one, Decimal.roundDiv_eq, hzero,
    Nat.mul_zero, if_pos (.inl hone)]

/-! ## Room in the buffer -/

theorem length_wholeDigits {n k : ℕ} (hn : n < 10 ^ k) (hk : 1 ≤ k) :
    (Written.wholeDigits n).length ≤ k := by
  unfold Written.wholeDigits
  split
  · exact hk
  · rw [Numeral.digits_eq (by decide) (Nat.le_refl n), List.append_nil, List.length_reverse]
    exact (Nat.digits_length_le_iff (by decide) n).mpr hn

theorem length_padded {n : ℕ} (hn : n < 1000) : (padded n).length ≤ 3 := by
  unfold padded
  split
  · exact Nat.le_succ 2
  · exact length_wholeDigits hn (by decide)

theorem length_sign (negative : Bool) : (sign negative).length ≤ 1 := by
  cases negative <;> decide

theorem length_pointed (whole rest : List ℕ) :
    (pointed whole rest).length ≤ whole.length + rest.length + 1 := by
  unfold pointed digitText
  split
  · rw [List.length_map]
    omega
  · rw [List.length_append, List.length_append, List.length_map, List.length_map]
    change whole.length + 1 + rest.length ≤ _
    omega

theorem length_positional (negative : Bool) {d : Decimal} {precision : ℕ}
    (hd : d.significant.length ≤ precision) (hlow : -4 ≤ d.place) (hhigh : d.place < precision) :
    (Written.positional negative d).bytes.length ≤ precision + 6 := by
  have hsign := length_sign negative
  rw [Written.bytes_positional, List.length_append]
  unfold Number.positional
  split
  · have hlen := length_pointed [0] (List.replicate ((-d.place).toNat - 1) 0 ++ d.significant)
    rw [List.length_append, List.length_replicate, List.length_singleton] at hlen
    omega
  · have hlen := length_pointed (d.significant.take (d.place.toNat + 1) ++
      List.replicate (d.place.toNat + 1 - d.significant.length) 0)
      (d.significant.drop (d.place.toNat + 1))
    rw [List.length_append, List.length_take, List.length_replicate, List.length_drop] at hlen
    dsimp only
    omega

theorem length_scientific (negative : Bool) (d : Decimal) (digits : List ℕ) :
    (Written.scientific negative d digits).bytes.length ≤
      d.significant.length + digits.length + 4 := by
  have hsign := length_sign negative
  have hlen := length_pointed (d.significant.take 1) (d.significant.drop 1)
  have hmark : (ascii (if d.place < 0 then "e-" else "e+")).length = 2 := by split <;> rfl
  rw [List.length_take, List.length_drop] at hlen
  rw [Written.bytes_scientific, List.length_append, List.length_append, List.length_append, hmark,
    digitText, List.length_map]
  omega

/-- Places of finite numbers have at most three digits. -/
theorem leadingPlace_bounds (hx : x.isFinite = true) (h : x.magnitude ≠ 0) :
    -324 ≤ Decimal.leadingPlace x ∧ Decimal.leadingPlace x ≤ 308 := by
  constructor
  · refine Decimal.neg_le_leadingPlace h (n := 324) ?_
    calc Binary64.one ≤ 10 ^ 324 := by decide +kernel
      _ ≤ 10 ^ 324 * x.magnitude := Nat.le_mul_of_pos_right _ (Nat.pos_of_ne_zero h)
  · have hexp := x.exponent_lt
    have hne := Binary64.exponent_of_isFinite hx
    refine Int.le_of_lt_add_one (Decimal.leadingPlace_lt h (n := 309) ?_)
    calc x.magnitude < 2 ^ 53 * 2 ^ (x.exponent - 1) :=
          Nat.mul_lt_mul_of_pos_right x.scaled.short (Nat.two_pow_pos _)
      _ ≤ 2 ^ 53 * 2 ^ 2045 :=
          Nat.mul_le_mul_left _ (Nat.pow_le_pow_right (by decide) (by omega))
      _ ≤ 10 ^ 309 * Binary64.one := by decide +kernel

/-- No precision of the search fills the buffer. -/
theorem length_general (hx : x.isFinite = true) (h : x.magnitude ≠ 0) {precision : ℕ}
    (hp : 1 ≤ precision) (hle : precision ≤ 17) : (general x precision).bytes.length < 32 := by
  have hlen := Decimal.length_significant_rounded h hp
  obtain ⟨hlow, hhigh⟩ := leadingPlace_bounds hx h
  have hplace := Decimal.place_rounded h hp
  unfold general
  dsimp only
  split
  · rename_i hcase
    have htext := length_positional x.negative hlen hcase.1 hcase.2
    omega
  · have hpadded := length_padded (n := (Decimal.rounded x precision).place.natAbs) (by omega)
    have htext := length_scientific x.negative (Decimal.rounded x precision)
      (padded (Decimal.rounded x precision).place.natAbs)
    omega

/-- Neither does a whole number. -/
theorem length_fixed (h : isWhole x = true) : (fixed x).bytes.length < 32 := by
  have hlt : x.magnitude / Binary64.one < 10 ^ 21 :=
    (Nat.div_lt_iff_lt_mul Binary64.one_pos).mpr (isWhole_iff.mp h).2
  have hsign := length_sign x.negative
  have hdigits := length_wholeDigits hlt (by decide)
  rw [fixed, coefficient_nearest_zero h, Written.bytes_ofNat, ← Written.digitText_wholeDigits,
    List.length_append, digitText, List.length_map]
  omega

theorem buffer_eq {text : Bytes} (h : text.length < 32) : buffer text = text :=
  List.take_of_length_le (by omega)

/-! ## The search -/

theorem padded_spec (n : ℕ) :
    padded n ≠ [] ∧ (∀ d ∈ padded n, d < 10) ∧ valueOf 10 (padded n) = n := by
  unfold padded
  split
  · rename_i h
    refine ⟨by simp, fun d hd => ?_, ?_⟩
    · rcases List.mem_pair.mp hd with rfl | rfl
      · decide
      · exact h
    · simp [valueOf, Nat.ofDigits_cons]
  · exact ⟨(Written.wholeDigits_spec n).2.1, (Written.wholeDigits_spec n).1,
      (Written.wholeDigits_spec n).2.2.1⟩

theorem negative_general (x : Binary64) (precision : ℕ) :
    (general x precision).negative = x.negative := by
  unfold general
  dsimp only
  split
  · exact Written.negative_positional _ _
  · rfl

section Search

variable {precision : ℕ} (hx : x.isFinite = true) (h : x.magnitude ≠ 0) (hp : 1 ≤ precision)
include h hp

theorem proper_general : (general x precision).Proper := by
  have hd := Decimal.coefficient_rounded_ne_zero h hp
  obtain ⟨hne, hlt, -⟩ := padded_spec (Decimal.rounded x precision).place.natAbs
  unfold general
  dsimp only
  split
  · exact Written.proper_positional _ hd
  · exact Written.proper_scientific _ hd hne hlt

theorem value_general :
    (general x precision).decimal.value = (Decimal.rounded x precision).value := by
  have hd := Decimal.coefficient_rounded_ne_zero h hp
  unfold general
  dsimp only
  split
  · exact Written.value_positional _ hd
  · exact Written.value_scientific _ hd (padded_spec _).2.2

include hx

/-- Reading a text back is the test of the decimal in it. -/
theorem readsAs_general : readsAs (general x precision).bytes x =
    (Decimal.rounded x precision).readsBack x := by
  have hunits : (general x precision).decimal.units = (Decimal.rounded x precision).units := by
    rw [Decimal.units, value_general h hp, Decimal.units]
  have hread : readsAs (general x precision).bytes x =
      (general x precision).toBinary64.numEq x := by
    rw [readsAs, Written.read?_bytes (proper_general h hp), Option.any_some]
  rw [hread, Bool.eq_iff_iff, Binary64.readsBack_iff h, Binary64.numEq_iff hx, ← hunits]
  constructor
  · rintro ⟨-, he | hzero⟩
    · exact ((Binary64.toBinary64_eq_iff hx).mp he).2
    · exact absurd hzero.2 h
  · intro hc
    have he := (Binary64.toBinary64_eq_iff hx).mpr ⟨(negative_general x precision).symm, hc⟩
    exact ⟨by rw [Written.toBinary64, he, (Binary64.isFinite_iff.mp hx).1], .inl he⟩

omit hp in
/-- The search in the buffer and the search for a decimal stop together. -/
theorem search_eq (left : ℕ) {precision : ℕ} (hp : 1 ≤ precision) (hle : precision + left ≤ 17) :
    ∃ p, 1 ≤ p ∧ p ≤ 17 ∧ search x left precision = (general x p).bytes ∧
      Decimal.searchFrom x left precision = Decimal.rounded x p := by
  induction left generalizing precision with
  | zero =>
    exact ⟨precision, hp, hle, buffer_eq (length_general hx h hp hle), rfl⟩
  | succ left ih =>
    have hbuffer := buffer_eq (length_general hx h hp (by omega))
    unfold search Decimal.searchFrom
    rw [hbuffer, readsAs_general hx h hp]
    split
    · exact ⟨precision, hp, by omega, rfl, rfl⟩
    · exact ih (by omega) (by omega)

end Search

/-! ## Notation by the count of digits -/

/-- Digits that read back reach the point, unless the number is too large for the
positional range: short of the point they would name a whole number. -/
theorem place_lt_or_le {p : ℕ} (h : x.magnitude ≠ 0) (hwhole : isWhole x = false) (hp : 1 ≤ p)
    (hc : x.Covers (Decimal.rounded x p).units) :
    (Decimal.rounded x p).place < p ∨ 21 ≤ (Decimal.rounded x p).place := by
  have hplace := Decimal.place_rounded h hp
  by_cases hdvd : Binary64.one ∣ x.magnitude
  · have hlarge : 10 ^ 21 * Binary64.one ≤ x.magnitude := by
      refine Nat.le_of_not_lt fun hlt => ?_
      rw [isWhole_iff.mpr ⟨hdvd, hlt⟩] at hwhole
      cases hwhole
    have hle := Decimal.le_leadingPlace h hlarge
    right
    push_cast at hle
    omega
  · left
    by_contra hge
    have hscale := Decimal.scale_rounded x p
    obtain ⟨s, hs⟩ := Int.eq_ofNat_of_zero_le (by omega : 0 ≤ (Decimal.rounded x p).scale)
    -- The rounding is whole, and the step of a number with a fraction divides all whole numbers.
    have hunits : (Decimal.rounded x p).units =
        ((Decimal.rounded x p).coefficient * 10 ^ s * Binary64.one : ℕ) := by
      rw [Decimal.units, Decimal.value, hs]
      push_cast
      rw [zpow_natCast]
    have hstep : x.ulp ∣ Binary64.one :=
      x.one_dvd_ulp_or.resolve_left fun hone => hdvd (hone.mul_left _)
    rw [hunits] at hc
    refine hdvd ?_
    rw [← hc.eq_of_dvd (hstep.mul_left _)]
    exact Nat.dvd_mul_left _ _

/-! ## Editing -/

theorem isDigit_ne {b : UInt8} (h : Bytes.isDigit b = true) : b ≠ 45 ∧ b ≠ 46 ∧ b ≠ 101 := by
  refine ⟨?_, ?_, ?_⟩ <;> (rintro rfl; exact absurd h (by decide))

variable {w : Written}

theorem ne_mark_of_mem_mantissa (h : w.Proper) : ∀ b ∈ w.mantissa, b ≠ 101 := by
  intro b hb
  rcases List.mem_append.mp hb with hb | hb
  · cases hn : w.negative <;> rw [hn] at hb
    · cases hb
    · obtain rfl := List.mem_singleton.mp hb
      decide
  rcases List.mem_append.mp hb with hb | hb
  · exact (isDigit_ne (isDigit_of_mem_digitText h.whole b hb)).2.2
  · cases hf : w.fraction with
    | none =>
      rw [hf] at hb
      cases hb
    | some ds =>
      rw [hf] at hb
      rcases List.mem_append.mp hb with hb | hb
      · obtain rfl := List.mem_singleton.mp hb
        decide
      · exact (isDigit_ne (isDigit_of_mem_digitText (h.fraction ds hf) b hb)).2.2

theorem edit_append {mantissa rest : Bytes} (h : ∀ b ∈ mantissa, b ≠ 101) :
    edit (mantissa ++ 101 :: rest) =
      if -6 ≤ signedValue rest ∧ signedValue rest < 0 then shifted mantissa (signedValue rest)
      else mantissa ++ 101 :: (rest.take 1 ++ unpad (rest.drop 1)) := by
  have hall : ∀ b ∈ mantissa, (b != 101) = true := fun b hb => by simpa using h b hb
  have htake : (mantissa ++ 101 :: rest).takeWhile (· != 101) = mantissa := by
    rw [List.takeWhile_append_of_pos hall, List.takeWhile_cons_of_neg (by decide), List.append_nil]
  have hdrop : (mantissa ++ 101 :: rest).dropWhile (· != 101) = 101 :: rest := by
    rw [List.dropWhile_append_of_pos hall, List.dropWhile_cons_of_neg (by decide)]
  rw [edit, htake, hdrop]

theorem edit_of_no_exponent (h : w.Proper) (he : w.exponent = none) : edit w.bytes = w.bytes := by
  have hall : ∀ b ∈ w.mantissa, (b != 101) = true := fun b hb => by
    simpa using ne_mark_of_mem_mantissa h b hb
  have hdrop : w.bytes.dropWhile (· != 101) = [] := by
    rw [w.bytes_eq, he, List.dropWhile_append_of_pos hall]
    rfl
  rw [edit, hdrop]

section Scientific

variable {d : Decimal} {digits : List ℕ} (negative : Bool)

theorem exponentText_scientific :
    Written.exponentText (Written.scientific negative d digits).exponent =
      101 :: (if d.place < 0 then 45 else 43) :: digitText digits := by
  simp only [Written.scientific, Written.exponentText, decide_eq_true_eq]
  split <;> rfl

theorem signedValue_digitText (hlt : ∀ x ∈ digits, x < 10)
    (hvalue : valueOf 10 digits = d.place.natAbs) :
    signedValue ((if d.place < 0 then 45 else 43) :: digitText digits) = d.place := by
  split
  · rw [signedValue, readDigits_digitText hlt, hvalue]
    omega
  · rw [signedValue, readDigits_digitText hlt, hvalue]
    omega

theorem filter_pointed {whole rest : List ℕ} (hw : ∀ x ∈ whole, x < 10) (hr : ∀ x ∈ rest, x < 10) :
    (pointed whole rest).filter (· != 46) = digitText (whole ++ rest) := by
  have hkeep : ∀ ds : List ℕ, (∀ x ∈ ds, x < 10) →
      (digitText ds).filter (· != 46) = digitText ds := fun ds hds =>
    List.filter_eq_self.mpr fun b hb => by
      simpa using (isDigit_ne (isDigit_of_mem_digitText hds b hb)).2.1
  have happend : digitText (whole ++ rest) = digitText whole ++ digitText rest := List.map_append
  unfold pointed
  split
  · rename_i hnil
    rw [hkeep _ hw, happend, List.isEmpty_iff.mp hnil]
    exact (List.append_nil _).symm
  · rw [List.filter_append, List.filter_append, hkeep _ hw, hkeep _ hr, happend]
    exact List.append_assoc _ _ _

/-- The point moves before the zeros that a negative exponent stands for. -/
theorem shifted_mantissa (hd : d.coefficient ≠ 0) (hplace : d.place < 0) :
    shifted (Written.scientific negative d digits).mantissa d.place =
      (Written.positional negative d).bytes := by
  have hs := Decimal.significant_spec hd
  obtain ⟨x, rest, he⟩ := List.exists_cons_of_ne_nil hs.ne_nil
  have hmantissa : (Written.scientific negative d digits).mantissa =
      sign negative ++ pointed (d.significant.take 1) (d.significant.drop 1) := by
    rw [Written.mantissa, Written.pointed_eq]
    rfl
  have hhead : ∀ b ∈ (pointed (d.significant.take 1) (d.significant.drop 1)).head?, b ≠ 45 := by
    have hx : x < 10 := hs.digit x (he ▸ List.mem_cons_self)
    have hdigit : (pointed (d.significant.take 1) (d.significant.drop 1)).head? =
        some (Numeral.digit x) := by
      rw [he, Written.pointed_eq]
      rfl
    intro b hb
    rw [hdigit] at hb
    obtain rfl := Option.some.inj hb
    exact (isDigit_ne (digit_spec hx).1).1
  have hfilter : (pointed (d.significant.take 1) (d.significant.drop 1)).filter (· != 46) =
      digitText (d.significant.take 1 ++ d.significant.drop 1) :=
    filter_pointed (fun x hx => hs.digit x (List.mem_of_mem_take hx))
      fun x hx => hs.digit x (List.mem_of_mem_drop hx)
  have hzeros : digitText (List.replicate ((-d.place).toNat - 1) 0 ++ d.significant) =
      List.replicate ((-d.place).toNat - 1) 48 ++ digitText d.significant := by
    rw [digitText, List.map_append, List.map_replicate]
    rfl
  have hpointed : pointed [0] (List.replicate ((-d.place).toNat - 1) 0 ++ d.significant) =
      ascii "0." ++ (List.replicate ((-d.place).toNat - 1) 48 ++ digitText d.significant) := by
    rw [pointed, if_neg (by simp [hs.ne_nil]), hzeros]
    rfl
  rw [shifted, hmantissa, Written.readSign_append negative hhead, hfilter, List.take_append_drop,
    Written.bytes_positional, Number.positional, if_pos hplace, hpointed]
  have hzero : ascii (if negative then "-0." else "0.") = sign negative ++ ascii "0." := by
    cases negative <;> decide
  dsimp only
  rw [hzero, List.append_assoc]

theorem unpad_of_head {text : Bytes} (h : text.head? ≠ some 48) : unpad text = text := by
  unfold unpad
  split
  · exact absurd rfl h
  · rfl

theorem unpad_padded (n : ℕ) :
    unpad (digitText (padded n)) = digitText (Written.wholeDigits n) := by
  unfold padded
  split
  · rename_i hn
    have hall : ∀ n : Fin 10, unpad (digitText [0, n.val]) =
        digitText (Written.wholeDigits n.val) := by decide
    exact hall ⟨n, hn⟩
  · rename_i hn
    obtain ⟨hlt, hne, -, hhead⟩ := Written.wholeDigits_spec n
    refine unpad_of_head ?_
    obtain ⟨x, rest, he⟩ := List.exists_cons_of_ne_nil hne
    have hhead := hhead (by omega)
    rw [he] at hhead ⊢
    intro hzero
    have hx : x < 10 := hlt x (he ▸ List.mem_cons_self)
    have hdigit : Numeral.digit x = 48 := Option.some.inj hzero
    have hvalue := (digit_spec hx).2
    rw [hdigit] at hvalue
    exact hhead (congrArg some hvalue.symm)

/-- A padded exponent is edited to one without padding or to no exponent. -/
theorem edit_scientific (hd : d.coefficient ≠ 0) :
    edit (Written.scientific negative d (padded d.place.natAbs)).bytes =
      if -6 ≤ d.place ∧ d.place < 0 then (Written.positional negative d).bytes
      else (Written.scientific negative d (Written.wholeDigits d.place.natAbs)).bytes := by
  obtain ⟨hne, hlt, hvalue⟩ := padded_spec d.place.natAbs
  have hproper := Written.proper_scientific negative hd hne hlt
  rw [Written.bytes_eq, exponentText_scientific, edit_append (ne_mark_of_mem_mantissa hproper),
    signedValue_digitText hlt hvalue]
  split
  · rename_i h
    exact shifted_mantissa negative hd h.2
  · rw [Written.bytes_eq, exponentText_scientific, List.take_one, List.drop_one, List.tail_cons,
      unpad_padded]
    rfl

end Scientific

/-! ## The result -/

theorem edit_general {p : ℕ} (h : x.magnitude ≠ 0) (hwhole : isWhole x = false) (hp : 1 ≤ p)
    (hle : p ≤ 17) (hc : x.Covers (Decimal.rounded x p).units) :
    edit (general x p).bytes = (Written.ofDecimal x.negative (Decimal.rounded x p)).bytes := by
  have hd := Decimal.coefficient_rounded_ne_zero h hp
  have hplace := place_lt_or_le h hwhole hp hc
  have hpositional : isPositional (Decimal.rounded x p).place = true ↔
      -6 ≤ (Decimal.rounded x p).place ∧ (Decimal.rounded x p).place ≤ 20 := by
    simp only [isPositional, Bool.and_eq_true, decide_eq_true_eq]
  unfold general Written.ofDecimal
  dsimp only
  split
  · rename_i hcase
    rw [if_pos (hpositional.mpr ⟨by omega, by omega⟩)]
    exact edit_of_no_exponent (Written.proper_positional _ hd) (Written.exponent_positional _ _)
  · rename_i hcase
    rw [edit_scientific _ hd]
    split
    · rw [if_pos (hpositional.mpr ⟨by omega, by omega⟩)]
    · rw [if_neg fun hpos => ?_]
      have hbounds := hpositional.mp hpos
      omega

/-- **The buffered steps write the number's text.** -/
theorem text_eq (x : Binary64) : Draft.text x = Number.text x := by
  unfold Draft.text Number.text
  split
  · rfl
  rename_i hnan
  split
  · rfl
  rename_i hinf
  split
  · rfl
  rename_i h
  have hx : x.isFinite = true := Binary64.isFinite_iff.mpr
    ⟨Bool.eq_false_iff.mpr hnan, Bool.eq_false_iff.mpr hinf⟩
  rw [← Written.sign_append, magnitudeText]
  split
  · rename_i hwhole
    rw [buffer_eq (length_fixed hwhole), fixed, Written.bytes_ofNat,
      coefficient_nearest_zero hwhole]
  · rename_i hwhole
    obtain ⟨p, hp, hle, hsearch, hfrom⟩ := search_eq hx h 16 (le_refl 1) (le_refl 17)
    obtain ⟨q, -, -, hq, hcovers, -⟩ := Decimal.roundTrip_spec h
    have hround : Decimal.roundTrip x = Decimal.rounded x p := hfrom
    rw [hq.symm.trans hround] at hcovers
    rw [hsearch, edit_general h (Bool.eq_false_iff.mpr hwhole) hp hle hcovers, hround,
      Written.bytes_ofDecimal]

end StyleRegistry.Number.Draft
