import StyleRegistry.Number.Text
import StyleRegistry.Proofs.Number.Digits

/-! # Decimal notation

A number is written with a sign, digits before a point and behind it, and a
power of ten with a sign and digits of its own; only the first digits must be
there. No part can run into the next, so a text is read back into the parts it
was written from. Positional and scientific notation give the same digits the
same value, since the point moves as many places as the power makes up for. -/
namespace StyleRegistry.Number

open Bytes (ascii)
open Numeral (valueOf Significant)

/-- The parts of a written number. -/
structure Written where
  negative : Bool
  whole : List ℕ
  fraction : Option (List ℕ)
  exponent : Option (Bool × List ℕ)
  deriving DecidableEq, Repr

namespace Written

/-! ## Writing -/

def sign (negative : Bool) : Bytes := if negative then ascii "-" else []

def fractionText : Option (List ℕ) → Bytes
  | none => []
  | some ds => ascii "." ++ digitText ds

def exponentText : Option (Bool × List ℕ) → Bytes
  | none => []
  | some (negative, ds) => ascii (if negative then "e-" else "e+") ++ digitText ds

def bytes (w : Written) : Bytes :=
  sign w.negative ++ (digitText w.whole ++ (fractionText w.fraction ++ exponentText w.exponent))

/-- The text before the power of ten. -/
def mantissa (w : Written) : Bytes :=
  sign w.negative ++ (digitText w.whole ++ fractionText w.fraction)

theorem bytes_eq (w : Written) : w.bytes = w.mantissa ++ exponentText w.exponent := by
  simp only [bytes, mantissa, List.append_assoc]

/-! ## Exact value -/

def power (w : Written) : ℤ :=
  match w.exponent with
  | none => 0
  | some (negative, ds) => if negative then -valueOf 10 ds else valueOf 10 ds

def decimal (w : Written) : Decimal :=
  ⟨valueOf 10 (w.whole ++ w.fraction.getD []), w.power - (w.fraction.getD []).length⟩

/-- The binary number nearest to the exact value. -/
def toBinary64 (w : Written) : Binary64 := w.decimal.toBinary64 w.negative

end Written

/-! ## Reading -/

/-- The digits at the head of a text, and what follows them. -/
def readDigits (text : Bytes) : List ℕ × Bytes :=
  ((text.takeWhile Bytes.isDigit).map fun b => b.toNat - 48, text.dropWhile Bytes.isDigit)

def readSign : Bytes → Bool × Bytes
  | 45 :: rest => (true, rest)
  | text => (false, text)

def readFraction : Bytes → Option (List ℕ) × Bytes
  | 46 :: rest => (some (readDigits rest).1, (readDigits rest).2)
  | text => (none, text)

def readPower? (negative : Bool) (digits : Bytes) : Option (Option (Bool × List ℕ)) :=
  if digits ≠ [] ∧ digits.all Bytes.isDigit then some (some (negative, (readDigits digits).1))
  else none

/-- The power of ten that a text consists of, if it is one or empty. -/
def readExponent? : Bytes → Option (Option (Bool × List ℕ))
  | [] => some none
  | 101 :: 45 :: rest => readPower? true rest
  | 101 :: 43 :: rest => readPower? false rest
  | _ => none

/-- The parts of a number from its text. -/
def read? (text : Bytes) : Option Written :=
  let (negative, text) := readSign text
  let (whole, text) := readDigits text
  let (fraction, text) := readFraction text
  if whole = [] then none else (readExponent? text).map (Written.mk negative whole fraction)

/-! ## Digits as bytes -/

theorem digit_spec {d : ℕ} (h : d < 10) :
    Bytes.isDigit (Numeral.digit d) = true ∧ (Numeral.digit d).toNat - 48 = d := by
  have hall : ∀ d : Fin 10, Bytes.isDigit (Numeral.digit d) = true ∧
      (Numeral.digit d).toNat - 48 = d := by decide
  exact hall ⟨d, h⟩

variable {ds : List ℕ}

theorem isDigit_of_mem_digitText (h : ∀ d ∈ ds, d < 10) :
    ∀ b ∈ digitText ds, Bytes.isDigit b = true := by
  intro b hb
  obtain ⟨d, hd, rfl⟩ := List.mem_map.mp hb
  exact (digit_spec (h d hd)).1

theorem map_digitText (h : ∀ d ∈ ds, d < 10) : (digitText ds).map (fun b => b.toNat - 48) = ds := by
  rw [digitText, List.map_map]
  exact (List.map_congr_left fun d hd => (digit_spec (h d hd)).2).trans (List.map_id _)

theorem readDigits_append (h : ∀ d ∈ ds, d < 10) {rest : Bytes}
    (hrest : ∀ b ∈ rest.head?, Bytes.isDigit b = false) :
    readDigits (digitText ds ++ rest) = (ds, rest) := by
  have hdigits := isDigit_of_mem_digitText h
  have htake : rest.takeWhile Bytes.isDigit = [] := by
    cases rest with
    | nil => rfl
    | cons b rest => exact List.takeWhile_cons_of_neg (by simp [hrest b rfl])
  have hdrop : rest.dropWhile Bytes.isDigit = rest := by
    cases rest with
    | nil => rfl
    | cons b rest => exact List.dropWhile_cons_of_neg (by simp [hrest b rfl])
  rw [readDigits, List.takeWhile_append_of_pos hdigits, List.dropWhile_append_of_pos hdigits,
    htake, hdrop, List.append_nil, map_digitText h]

theorem readDigits_digitText (h : ∀ d ∈ ds, d < 10) : readDigits (digitText ds) = (ds, []) := by
  have hread : readDigits (digitText ds ++ []) = (ds, []) := readDigits_append h (by simp)
  rwa [List.append_nil] at hread

/-! ## Reading what was written -/

namespace Written

/-- All digits are decimal, and the digits that must be there are there. -/
structure Proper (w : Written) : Prop where
  whole : ∀ d ∈ w.whole, d < 10
  whole_ne_nil : w.whole ≠ []
  fraction : ∀ ds, w.fraction = some ds → ∀ d ∈ ds, d < 10
  exponent : ∀ e, w.exponent = some e → e.2 ≠ [] ∧ ∀ d ∈ e.2, d < 10

theorem readExponent?_exponentText {e : Option (Bool × List ℕ)}
    (h : ∀ x, e = some x → x.2 ≠ [] ∧ ∀ d ∈ x.2, d < 10) :
    readExponent? (exponentText e) = some e := by
  cases e with
  | none => rfl
  | some x =>
    obtain ⟨negative, ds⟩ := x
    obtain ⟨hne, hds⟩ := h _ rfl
    have hcond : digitText ds ≠ [] ∧ (digitText ds).all Bytes.isDigit = true :=
      ⟨fun hnil => hne (List.map_eq_nil_iff.mp hnil),
        List.all_eq_true.mpr (isDigit_of_mem_digitText hds)⟩
    have hread : readPower? negative (digitText ds) = some (some (negative, ds)) := by
      rw [readPower?, if_pos hcond, readDigits_digitText hds]
    cases negative <;> exact hread

theorem head_exponentText (e : Option (Bool × List ℕ)) :
    ∀ b ∈ (exponentText e).head?, Bytes.isDigit b = false ∧ b ≠ 46 := by
  cases e with
  | none => simp [exponentText]
  | some x =>
    obtain ⟨negative, ds⟩ := x
    cases negative <;> (intro b hb; obtain rfl := Option.some.inj hb; decide)

theorem readFraction_append {f : Option (List ℕ)} (h : ∀ ds, f = some ds → ∀ d ∈ ds, d < 10)
    (e : Option (Bool × List ℕ)) :
    readFraction (fractionText f ++ exponentText e) = (f, exponentText e) := by
  cases f with
  | none =>
    have hhead := head_exponentText e
    change readFraction (exponentText e) = _
    unfold readFraction
    split
    · rename_i rest he
      exact absurd rfl (hhead 46 (by rw [he]; rfl)).2
    · rfl
  | some ds =>
    have hread := readDigits_append (h ds rfl) fun b hb => (head_exponentText e b hb).1
    change (some (readDigits (digitText ds ++ exponentText e)).1,
      (readDigits (digitText ds ++ exponentText e)).2) = _
    rw [hread]

theorem head_fractionText (f : Option (List ℕ)) (e : Option (Bool × List ℕ)) :
    ∀ b ∈ (fractionText f ++ exponentText e).head?, Bytes.isDigit b = false := by
  cases f with
  | none => exact fun b hb => (head_exponentText e b hb).1
  | some ds =>
    intro b hb
    obtain rfl := Option.some.inj hb
    decide

theorem readSign_append (negative : Bool) {text : Bytes} (h : ∀ b ∈ text.head?, b ≠ 45) :
    readSign (sign negative ++ text) = (negative, text) := by
  cases negative with
  | true => rfl
  | false =>
    change readSign text = _
    unfold readSign
    split
    · exact absurd rfl (h 45 rfl)
    · rfl

/-- **A text is read into the parts it was written from.** -/
theorem read?_bytes {w : Written} (h : w.Proper) : read? w.bytes = some w := by
  have hne : digitText w.whole ≠ [] := fun hnil => h.whole_ne_nil (List.map_eq_nil_iff.mp hnil)
  have hhead : ∀ b ∈ (digitText w.whole ++
      (fractionText w.fraction ++ exponentText w.exponent)).head?, b ≠ 45 := by
    rw [List.head?_append_of_ne_nil _ hne]
    intro b hb hminus
    have hdigit := isDigit_of_mem_digitText h.whole b (List.mem_of_mem_head? hb)
    rw [hminus] at hdigit
    exact absurd hdigit (by decide)
  rw [read?, bytes, readSign_append _ hhead]
  dsimp only
  rw [readDigits_append h.whole (head_fractionText _ _)]
  dsimp only
  rw [readFraction_append h.fraction]
  dsimp only
  rw [if_neg h.whole_ne_nil, readExponent?_exponentText h.exponent]
  rfl

/-! ## Writing a decimal -/

/-- The digits behind a point, which is left out where there are none. -/
def behind (rest : List ℕ) : Option (List ℕ) := if rest.isEmpty then none else some rest

def wholeDigits (n : ℕ) : List ℕ := if n = 0 then [0] else Numeral.digits 10 n n []

/-- A whole number in full. -/
def ofNat (negative : Bool) (n : ℕ) : Written := ⟨negative, wholeDigits n, none, none⟩

/-- A decimal with its point after the digit that counts ones. -/
def positional (negative : Bool) (d : Decimal) : Written :=
  if d.place < 0 then
    ⟨negative, [0], behind (List.replicate ((-d.place).toNat - 1) 0 ++ d.significant), none⟩
  else
    let whole := d.place.toNat + 1
    ⟨negative, d.significant.take whole ++ List.replicate (whole - d.significant.length) 0,
      behind (d.significant.drop whole), none⟩

/-- A decimal with its point after its first digit and the digits of its place. -/
def scientific (negative : Bool) (d : Decimal) (power : List ℕ) : Written :=
  ⟨negative, d.significant.take 1, behind (d.significant.drop 1), some (d.place < 0, power)⟩

def ofDecimal (negative : Bool) (d : Decimal) : Written :=
  if isPositional d.place then positional negative d
  else scientific negative d (wholeDigits d.place.natAbs)

section Bytes

variable (negative : Bool) (d : Decimal)

@[simp] theorem negative_positional : (positional negative d).negative = negative := by
  unfold positional
  split <;> rfl

@[simp] theorem exponent_positional : (positional negative d).exponent = none := by
  unfold positional
  split <;> rfl

@[simp] theorem negative_ofDecimal : (ofDecimal negative d).negative = negative := by
  unfold ofDecimal
  split
  · exact negative_positional negative d
  · rfl

theorem sign_append (text : Bytes) :
    sign negative ++ text = if negative then ascii "-" ++ text else text := by
  cases negative <;> rfl

theorem pointed_eq (whole rest : List ℕ) :
    pointed whole rest = digitText whole ++ fractionText (behind rest) := by
  unfold pointed behind
  split
  · rw [fractionText, List.append_nil]
  · rw [fractionText, List.append_assoc]

theorem digitText_wholeDigits (n : ℕ) : digitText (wholeDigits n) = Numeral.decimal n := by
  unfold wholeDigits Numeral.decimal Numeral.ofNat
  split <;> rfl

theorem bytes_ofNat (n : ℕ) : (ofNat negative n).bytes = sign negative ++ Numeral.decimal n := by
  rw [← digitText_wholeDigits]
  simp only [bytes, ofNat, fractionText, exponentText, List.append_nil]

theorem bytes_positional :
    (positional negative d).bytes = sign negative ++ Number.positional d.significant d.place := by
  unfold positional Number.positional
  split <;> simp only [bytes, exponentText, List.append_nil, pointed_eq]

theorem bytes_scientific (power : List ℕ) : (scientific negative d power).bytes = sign negative ++
    (pointed (d.significant.take 1) (d.significant.drop 1) ++
      (ascii (if d.place < 0 then "e-" else "e+") ++ digitText power)) := by
  simp only [bytes, scientific, exponentText, pointed_eq, List.append_assoc, decide_eq_true_eq]

theorem bytes_ofDecimal : (ofDecimal negative d).bytes = sign negative ++ decimalText d := by
  unfold ofDecimal decimalText
  split
  · exact bytes_positional negative d
  · rw [bytes_scientific, Number.scientific, digitText_wholeDigits, List.append_assoc]

end Bytes

/-! ## Proper parts and their value -/

@[simp] theorem getD_behind (rest : List ℕ) : (behind rest).getD [] = rest := by
  unfold behind
  split
  · rename_i h
    exact (List.isEmpty_iff.mp h).symm
  · rfl

theorem mem_behind {rest ds : List ℕ} (h : behind rest = some ds) : ds = rest ∧ ds ≠ [] := by
  unfold behind at h
  split at h
  · cases h
  · rename_i hne
    obtain rfl := Option.some.inj h
    exact ⟨rfl, by simpa using hne⟩

/-- The digits of a number in full: no zero leads but that of zero itself. -/
theorem wholeDigits_spec (n : ℕ) : (∀ d ∈ wholeDigits n, d < 10) ∧ wholeDigits n ≠ [] ∧
    valueOf 10 (wholeDigits n) = n ∧ (n ≠ 0 → (wholeDigits n).head? ≠ some 0) := by
  by_cases h : n = 0
  · rw [wholeDigits, if_pos h, h]
    exact ⟨by decide, by decide, by decide, fun hne => absurd rfl hne⟩
  · have hdigits : wholeDigits n = (⟨n, 0⟩ : Decimal).digits := by
      rw [wholeDigits, if_neg h, Decimal.digits]
    obtain ⟨t, ht⟩ := (⟨n, 0⟩ : Decimal).digits_eq_append
    have hs := Decimal.significant_spec (d := ⟨n, 0⟩) h
    rw [hdigits]
    refine ⟨?_, ?_, Decimal.valueOf_digits _, fun _ => ?_⟩
    · rw [Decimal.digits_eq]
      exact fun d hd => Nat.digits_lt_base (by decide) (List.mem_reverse.mp hd)
    · exact List.length_pos_iff.mp (Decimal.length_digits h)
    · rw [ht, List.head?_append_of_ne_nil _ hs.ne_nil]
      exact hs.head

/-- The point moves as many places as the power of ten makes up for. -/
theorem value_eq {w : Written} {d : Decimal} {k t : ℕ}
    (hdigits : w.whole ++ w.fraction.getD [] =
      List.replicate k 0 ++ (d.significant ++ List.replicate t 0))
    (hscale : w.power - (w.fraction.getD []).length + t = d.place + 1 - d.significant.length) :
    w.decimal.value = d.value := by
  rw [Decimal.value_eq d, ← hscale, zpow_add₀ (by norm_num), zpow_natCast, Decimal.value, decimal,
    hdigits, Numeral.valueOf_append, Numeral.valueOf_append, Numeral.valueOf_replicate_zero,
    Numeral.valueOf_replicate_zero, List.length_replicate]
  push_cast
  ring

theorem take_append_drop_replicate (ds : List ℕ) (whole : ℕ) :
    ds.take whole ++ List.replicate (whole - ds.length) 0 ++ ds.drop whole =
      ds ++ List.replicate (whole - ds.length) 0 := by
  rcases Nat.le_total whole ds.length with hle | hle
  · rw [Nat.sub_eq_zero_of_le hle, List.replicate_zero, List.append_nil, List.append_nil,
      List.take_append_drop]
  · rw [List.take_of_length_le hle, List.drop_of_length_le hle, List.append_nil]

/-- No zero leads a whole part or an exponent of two digits or more or ends a
fraction, a fraction has digits, and an exponent follows one digit other than zero. -/
structure Neat (w : Written) : Prop where
  whole : w.whole = [0] ∨ w.whole.head? ≠ some 0
  fraction : ∀ ds, w.fraction = some ds → ds ≠ [] ∧ ds.getLast? ≠ some 0
  exponent : ∀ e, w.exponent = some e → e.2.head? ≠ some 0 ∧ ∃ x, x ≠ 0 ∧ w.whole = [x]

section Parts

variable (negative : Bool)

theorem proper_ofNat (n : ℕ) : (ofNat negative n).Proper :=
  ⟨(wholeDigits_spec n).1, (wholeDigits_spec n).2.1, nofun,
    nofun⟩

theorem value_ofNat (n : ℕ) : (ofNat negative n).decimal.value = n := by
  have hvalue := (wholeDigits_spec n).2.2.1
  simp [decimal, ofNat, power, Decimal.value, hvalue]

theorem neat_ofNat (n : ℕ) : (ofNat negative n).Neat := by
  refine ⟨?_, nofun, nofun⟩
  by_cases h : n = 0
  · exact .inl (if_pos h)
  · exact .inr ((wholeDigits_spec n).2.2.2 h)

variable {d : Decimal} (hd : d.coefficient ≠ 0)
include hd

theorem proper_positional : (positional negative d).Proper := by
  have hs := Decimal.significant_spec hd
  have hzero : ∀ n : ℕ, ∀ x ∈ List.replicate n 0, x < 10 := fun n x hx => by
    rw [List.eq_of_mem_replicate hx]
    decide
  unfold positional
  split
  · refine ⟨hzero 1, by simp, fun ds h => ?_, nofun⟩
    obtain ⟨rfl, -⟩ := mem_behind h
    exact fun x hx => (List.mem_append.mp hx).elim (hzero _ x) (hs.digit x)
  · refine ⟨fun x hx => ?_, ?_, fun ds h => ?_, nofun⟩
    · exact (List.mem_append.mp hx).elim (fun hx => hs.digit x (List.mem_of_mem_take hx))
        (hzero _ x)
    · have hpos := hs.length_pos
      refine List.append_ne_nil_of_left_ne_nil ?_ _
      exact List.length_pos_iff.mp (by rw [List.length_take]; omega)
    · obtain ⟨rfl, -⟩ := mem_behind h
      exact fun x hx => hs.digit x (List.mem_of_mem_drop hx)

theorem value_positional : (positional negative d).decimal.value = d.value := by
  have hs := Decimal.significant_spec hd
  unfold positional
  split
  · rename_i hplace
    refine value_eq (k := (-d.place).toNat - 1 + 1) (t := 0) ?_ ?_
    · rw [getD_behind, List.replicate_succ, List.replicate_zero, List.append_nil]
      rfl
    · dsimp only [power]
      rw [getD_behind, List.length_append, List.length_replicate]
      push_cast
      omega
  · rename_i hplace
    refine value_eq (k := 0) (t := d.place.toNat + 1 - d.significant.length) ?_ ?_
    · rw [getD_behind, take_append_drop_replicate]
      rfl
    · dsimp only [power]
      rw [getD_behind, List.length_drop]
      omega

theorem neat_positional : (positional negative d).Neat := by
  have hs := Decimal.significant_spec hd
  unfold positional
  split
  · refine ⟨.inl rfl, fun ds h => ?_, nofun⟩
    obtain ⟨rfl, hne⟩ := mem_behind h
    rw [List.getLast?_append_of_ne_nil _ hs.ne_nil]
    exact ⟨hne, hs.last⟩
  · refine ⟨.inr ?_, fun ds h => ?_, nofun⟩
    · obtain ⟨x, rest, he⟩ := List.exists_cons_of_ne_nil hs.ne_nil
      have hhead := hs.head
      rw [he] at hhead ⊢
      exact hhead
    · obtain ⟨rfl, hne⟩ := mem_behind h
      refine ⟨hne, ?_⟩
      rw [List.getLast?_drop, if_neg (mt List.drop_eq_nil_iff.mpr hne)]
      exact hs.last

variable {digits : List ℕ}

theorem proper_scientific (hne : digits ≠ []) (hlt : ∀ x ∈ digits, x < 10) :
    (scientific negative d digits).Proper := by
  have hs := Decimal.significant_spec hd
  refine ⟨fun x hx => hs.digit x (List.mem_of_mem_take hx), ?_, fun ds h => ?_, fun e h => ?_⟩
  · have hpos := hs.length_pos
    exact List.length_pos_iff.mp (by rw [scientific, List.length_take]; omega)
  · obtain ⟨rfl, -⟩ := mem_behind h
    exact fun x hx => hs.digit x (List.mem_of_mem_drop hx)
  · obtain rfl := Option.some.inj h
    exact ⟨hne, hlt⟩

theorem value_scientific (hvalue : valueOf 10 digits = d.place.natAbs) :
    (scientific negative d digits).decimal.value = d.value := by
  have hpos := (Decimal.significant_spec hd).length_pos
  refine value_eq (k := 0) (t := 0) ?_ ?_
  · rw [scientific, getD_behind, List.take_append_drop, List.replicate_zero, List.append_nil]
    rfl
  · have hpower : (scientific negative d digits).power = d.place := by
      simp only [power, scientific, hvalue, decide_eq_true_eq]
      split <;> omega
    rw [hpower, scientific, getD_behind, List.length_drop]
    omega

theorem neat_scientific (hhead : digits.head? ≠ some 0) :
    (scientific negative d digits).Neat := by
  have hs := Decimal.significant_spec hd
  obtain ⟨x, rest, he⟩ := List.exists_cons_of_ne_nil hs.ne_nil
  have hx : x ≠ 0 := fun hz => hs.head (by rw [he, hz]; rfl)
  have hwhole : (scientific negative d digits).whole = [x] := by rw [scientific, he]; rfl
  refine ⟨.inr ?_, fun ds h => ?_, fun e h => ?_⟩
  · rw [hwhole]
    exact fun hz => hx (Option.some.inj hz)
  · obtain ⟨rfl, hne⟩ := mem_behind h
    refine ⟨hne, ?_⟩
    rw [List.getLast?_drop, if_neg (mt List.drop_eq_nil_iff.mpr hne)]
    exact hs.last
  · obtain rfl := Option.some.inj h
    exact ⟨hhead, x, hx, hwhole⟩

theorem proper_ofDecimal : (ofDecimal negative d).Proper := by
  unfold ofDecimal
  split
  · exact proper_positional negative hd
  · exact proper_scientific negative hd (wholeDigits_spec _).2.1 (wholeDigits_spec _).1

theorem value_ofDecimal : (ofDecimal negative d).decimal.value = d.value := by
  unfold ofDecimal
  split
  · exact value_positional negative hd
  · exact value_scientific negative hd (wholeDigits_spec _).2.2.1

theorem neat_ofDecimal : (ofDecimal negative d).Neat := by
  unfold ofDecimal
  split
  · exact neat_positional negative hd
  · rename_i h
    refine neat_scientific negative hd ((wholeDigits_spec _).2.2.2 fun hzero => h ?_)
    rw [Int.natAbs_eq_zero.mp hzero]
    rfl

/-- A power of ten is written for values out of the positional range. -/
theorem exponent_ofDecimal : (ofDecimal negative d).exponent ≠ none ↔
    d.value < 10 ^ (-6 : ℤ) ∨ 10 ^ (21 : ℤ) ≤ d.value := by
  obtain ⟨hlow, hhigh⟩ := Decimal.place_spec hd
  have hten : (1 : ℚ) < 10 := by norm_num
  have hshape : (ofDecimal negative d).exponent ≠ none ↔ isPositional d.place = false := by
    unfold ofDecimal
    split
    · rename_i h
      simp [h]
    · rename_i h
      simp [scientific, h]
  have hplace : isPositional d.place = false ↔ d.place < -6 ∨ 21 ≤ d.place := by
    simp only [isPositional, Bool.and_eq_false_iff, decide_eq_false_iff_not]
    omega
  rw [hshape, hplace]
  refine or_congr ⟨fun h => ?_, fun h => ?_⟩ ⟨fun h => ?_, fun h => ?_⟩
  · exact hhigh.trans_le (zpow_le_zpow_right₀ hten.le (by omega))
  · exact (zpow_lt_zpow_iff_right₀ hten).mp (hlow.trans_lt h)
  · exact (zpow_le_zpow_right₀ hten.le h).trans hlow
  · exact Int.le_of_lt_add_one ((zpow_lt_zpow_iff_right₀ hten).mp (h.trans_lt hhigh))

end Parts

end Written
end StyleRegistry.Number
