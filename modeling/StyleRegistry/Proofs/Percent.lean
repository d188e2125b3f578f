import StyleRegistry.Proofs.Style.PropertyName
import StyleRegistry.Percent

/-! # Percent encoding read back

A percent sign is never kept, so each one in an encoded text starts the triplet
of one byte, and reading from the left meets either a kept byte or a whole
triplet. What is written is printable and has no quote and no backslash, so an
address ends at the first double quote behind it. -/
namespace StyleRegistry.Percent

open Bytes (ascii)

/-! ## Reading -/

/-- The value of an upper-case hexadecimal digit. -/
def hexValue? (d : UInt8) : Option UInt8 :=
  if Bytes.isDigit d then some (d - 48) else if 65 ≤ d && d ≤ 70 then some (d - 55) else none

def isHex (d : UInt8) : Bool := (hexValue? d).isSome

/-- The byte that a percent sign and two digits stand for. -/
def readTriplet? (mark high low : UInt8) : Option UInt8 :=
  if mark = 37 then
    (hexValue? high).bind fun upper => (hexValue? low).map fun lower => 16 * upper + lower
  else none

/-- Reads each triplet as the byte that it stands for and keeps other bytes. -/
def decode : Bytes → Bytes
  | [] => []
  | mark :: high :: low :: rest =>
    match readTriplet? mark high low with
    | some b => b :: decode rest
    | none => mark :: decode (high :: low :: rest)
  | b :: rest => b :: decode rest

/-- The address in a CSS reference, which ends at the first double quote. -/
def address? (reference : Bytes) : Option Bytes :=
  if (ascii "url(\"").isPrefixOf reference then
    let quoted := reference.drop 5
    if quoted.dropWhile (· != 34) = ascii "\")" then some (decode (quoted.takeWhile (· != 34)))
    else none
  else none

/-! ## Digits -/

theorem hexValue?_hexDigit {d : UInt8} (h : d < 16) : hexValue? (hexDigit d) = some d := by
  have hall : ∀ n < 16, hexValue? (hexDigit n.toUInt8) = some n.toUInt8 := by decide
  have hd := hall d.toNat h
  simpa using hd

theorem isHex_hexDigit {d : UInt8} (h : d < 16) : isHex (hexDigit d) = true := by
  rw [isHex, hexValue?_hexDigit h]
  rfl

theorem div_sixteen_lt (b : UInt8) : b / 16 < 16 := by
  rw [UInt8.lt_iff_toNat_lt, UInt8.toNat_div]
  exact Nat.div_lt_of_lt_mul b.toNat_lt

theorem mod_sixteen_lt (b : UInt8) : b % 16 < 16 := by
  rw [UInt8.lt_iff_toNat_lt, UInt8.toNat_mod]
  exact Nat.mod_lt _ (by decide)

theorem readTriplet?_hexDigit (b : UInt8) :
    readTriplet? 37 (hexDigit (b / 16)) (hexDigit (b % 16)) = some b := by
  have hsum : 16 * (b / 16) + b % 16 = b := by
    have hb := b.toNat_lt
    rw [← UInt8.toNat_inj, UInt8.toNat_add, UInt8.toNat_mul, UInt8.toNat_div, UInt8.toNat_mod]
    simp only [UInt8.reduceToNat]
    omega
  rw [readTriplet?, if_pos rfl, hexValue?_hexDigit (div_sixteen_lt b),
    hexValue?_hexDigit (mod_sixteen_lt b)]
  exact congrArg some hsum

/-! ## Kept bytes -/

/-- Printable and neither a space, a double quote, a percent sign nor a backslash. -/
def Plain (b : UInt8) : Prop :=
  32 < b.toNat ∧ b.toNat < 127 ∧ b.toNat ≠ 34 ∧ b.toNat ≠ 37 ∧ b.toNat ≠ 92

instance (b : UInt8) : Decidable (Plain b) :=
  inferInstanceAs (Decidable (_ ∧ _ ∧ _ ∧ _ ∧ _))

theorem Plain.ne_percent {b : UInt8} (h : Plain b) : b ≠ 37 := by
  obtain ⟨-, -, -, hne, -⟩ := h
  exact fun he => hne (congrArg UInt8.toNat he)

theorem plain_of_isUnreserved {b : UInt8} (h : isUnreserved b = true) : Plain b := by
  have hmarks : (ascii "-._~!*'()").all (fun b => decide (Plain b)) = true := by decide
  rw [isUnreserved, Bool.or_eq_true, Bool.or_eq_true, Bool.or_eq_true] at h
  rcases h with ((h | h) | h) | h
  · have hb := Bytes.isUpper_iff.mp h
    unfold Plain
    omega
  · have hb := Bytes.isLower_iff.mp h
    unfold Plain
    omega
  · have hb := Bytes.isDigit_iff.mp h
    unfold Plain
    omega
  · exact of_decide_eq_true (List.all_eq_true.mp hmarks b (List.contains_iff_mem.mp h))

theorem plain_of_keeps {keep : Keep} {b : UInt8} (h : keep.keeps b = true) : Plain b := by
  have hdelimiters : (ascii ";,/?:@&=+$#").all (fun b => decide (Plain b)) = true := by decide
  cases keep with
  | component => exact plain_of_isUnreserved h
  | uri =>
    rcases (Bool.or_eq_true ..).mp h with h | h
    · exact plain_of_isUnreserved h
    · exact of_decide_eq_true (List.all_eq_true.mp hdelimiters b (List.contains_iff_mem.mp h))

theorem keeps_of_isUnreserved {b : UInt8} (h : isUnreserved b = true) (keep : Keep) :
    keep.keeps b = true := by
  cases keep with
  | component => exact h
  | uri => exact (Bool.or_eq_true ..).mpr (.inl h)

theorem isUnreserved_of_isHex {d : UInt8} (h : isHex d = true) : isUnreserved d = true := by
  rw [isHex, hexValue?] at h
  rw [isUnreserved, Bool.or_eq_true, Bool.or_eq_true, Bool.or_eq_true]
  by_cases hd : Bytes.isDigit d = true
  · exact .inl (.inr hd)
  · by_cases hu : (65 ≤ d && d ≤ 70) = true
    · have hd : 65 ≤ d.toNat ∧ d.toNat ≤ 70 := by
        simpa [UInt8.le_iff_toNat_le] using hu
      exact .inl (.inl (.inl (Bytes.isUpper_iff.mpr (by omega))))
    · rw [if_neg hd, if_neg hu] at h
      cases h

/-! ## Encoded texts -/

/-- A text of kept bytes and triplets. -/
inductive Written (keep : Keep) : Bytes → Prop
  | nil : Written keep []
  | kept {b : UInt8} {rest : Bytes} : keep.keeps b = true → Written keep rest →
    Written keep (b :: rest)
  | triplet {high low : UInt8} {rest : Bytes} : isHex high = true → isHex low = true →
    Written keep rest → Written keep (37 :: high :: low :: rest)

theorem written_encode (keep : Keep) (text : Bytes) : Written keep (encode keep text) := by
  induction text with
  | nil => exact .nil
  | cons b text ih =>
    rw [encode, List.flatMap_cons, ← encode, encodeByte]
    split
    · rename_i hk
      exact .kept hk ih
    · exact .triplet (isHex_hexDigit (div_sixteen_lt b)) (isHex_hexDigit (mod_sixteen_lt b)) ih

namespace Written

variable {keep : Keep} {text : Bytes}

theorem keeps (h : Written keep text) : ∀ b ∈ text, b ≠ 37 → keep.keeps b = true := by
  have hdigit {d : UInt8} (hd : isHex d = true) : keep.keeps d = true :=
    keeps_of_isUnreserved (isUnreserved_of_isHex hd) keep
  induction h with
  | nil => exact fun b hb => absurd hb (List.not_mem_nil)
  | kept hk _ ih =>
    intro b hb hne
    rcases List.mem_cons.mp hb with rfl | hb
    · exact hk
    · exact ih b hb hne
  | triplet hhigh hlow _ ih =>
    intro b hb hne
    simp only [List.mem_cons] at hb
    rcases hb with rfl | rfl | rfl | hb
    · exact absurd rfl hne
    · exact hdigit hhigh
    · exact hdigit hlow
    · exact ih b hb hne

/-- A percent sign has two digits behind it. -/
theorem digits (h : Written keep text) : ∀ before after, text = before ++ 37 :: after →
    ∃ high low rest, after = high :: low :: rest ∧ isHex high = true ∧ isHex low = true := by
  have hmark {d : UInt8} (hd : isHex d = true) : d ≠ 37 :=
    (plain_of_isUnreserved (isUnreserved_of_isHex hd)).ne_percent
  induction h with
  | nil => exact fun before after he => absurd he.symm (by simp)
  | kept hk _ ih =>
    intro before after he
    rcases List.cons_eq_append_iff.mp he with ⟨-, he⟩ | ⟨before, -, he⟩
    · exact absurd (List.cons.inj he).1.symm (plain_of_keeps hk).ne_percent
    · exact ih before after he
  | @triplet high low rest hhigh hlow _ ih =>
    intro before after he
    rcases List.cons_eq_append_iff.mp he with ⟨-, he⟩ | ⟨before, -, he⟩
    · exact ⟨high, low, rest, (List.cons.inj he).2, hhigh, hlow⟩
    -- The digits are no percent signs, so the next one stands behind them.
    rcases List.cons_eq_append_iff.mp he with ⟨-, he⟩ | ⟨before, -, he⟩
    · exact absurd (List.cons.inj he).1.symm (hmark hhigh)
    rcases List.cons_eq_append_iff.mp he with ⟨-, he⟩ | ⟨before, -, he⟩
    · exact absurd (List.cons.inj he).1.symm (hmark hlow)
    · exact ih before after he

end Written

/-! ## Decoding -/

theorem decode_cons_of_ne {b : UInt8} (h : b ≠ 37) (rest : Bytes) :
    decode (b :: rest) = b :: decode rest := by
  match rest with
  | [] => rfl
  | [_] => rfl
  | high :: low :: rest => rw [decode, readTriplet?, if_neg h]

theorem decode_encodeByte (keep : Keep) (b : UInt8) (rest : Bytes) :
    decode (encodeByte keep b ++ rest) = b :: decode rest := by
  rw [encodeByte]
  split
  · rename_i hk
    exact decode_cons_of_ne (plain_of_keeps hk).ne_percent rest
  · show decode (37 :: hexDigit (b / 16) :: hexDigit (b % 16) :: rest) = _
    rw [decode, readTriplet?_hexDigit]

theorem decode_encode (keep : Keep) (text : Bytes) : decode (encode keep text) = text := by
  induction text with
  | nil => rfl
  | cons b text ih => rw [encode, List.flatMap_cons, ← encode, decode_encodeByte, ih]

/-! ## References -/

/-- What may stand in a quoted address: no double quote, no backslash, no space
and no control, all in ASCII. -/
structure Quotable (b : UInt8) : Prop where
  quote : b ≠ 34
  backslash : b ≠ 92
  space : Bytes.isSpace b = false
  control : 32 ≤ b.toNat ∧ b.toNat ≠ 127
  ascii : b.toNat < 128

theorem Plain.quotable {b : UInt8} (h : Plain b) : Quotable b := by
  obtain ⟨habove, hbelow, hquote, -, hbackslash⟩ := h
  refine ⟨fun he => hquote (he ▸ rfl), fun he => hbackslash (he ▸ rfl), ?_, by omega, by omega⟩
  rw [Bool.eq_false_iff, ne_eq, Bytes.isSpace_iff]
  omega

theorem Written.quotable {keep : Keep} {text : Bytes} (h : Written keep text) :
    ∀ b ∈ text, Quotable b := by
  intro b hb
  by_cases hp : b = 37
  · rw [hp]
    exact ⟨by decide, by decide, by decide, by decide, by decide⟩
  · exact (plain_of_keeps (h.keeps b hb hp)).quotable

theorem address?_cssUrl (address : Bytes) : address? (cssUrl address) = some address := by
  have hquote : ∀ b ∈ encode .uri address, (b != 34) = true := fun b hb =>
    bne_iff_ne.mpr ((written_encode .uri address).quotable b hb).quote
  have hopened : cssUrl address =
      ascii "url(\"" ++ (encode .uri address ++ ascii "\")") := List.append_assoc ..
  have hdrop : (cssUrl address).drop 5 = encode .uri address ++ ascii "\")" := by
    rw [hopened]
    rfl
  have hbefore : (encode .uri address ++ ascii "\")").takeWhile (· != 34) =
      encode .uri address := by
    rw [List.takeWhile_append_of_pos hquote]
    exact List.append_nil _
  have hbehind : (encode .uri address ++ ascii "\")").dropWhile (· != 34) = ascii "\")" := by
    rw [List.dropWhile_append_of_pos hquote]
    rfl
  have hurl : (ascii "url(\"").isPrefixOf (cssUrl address) = true := by
    rw [hopened]
    exact List.isPrefixOf_iff_prefix.mpr (List.prefix_append ..)
  simp only [address?, hurl, hdrop, hbefore, hbehind, decode_encode, if_true]

/-- **Encoding can be undone.** An encoded text decodes to the text that was
encoded, so no two texts are encoded alike. In it each percent sign has two
upper-case hexadecimal digits behind it, and all other bytes are ones that are
kept. So a reference to an address has no byte between its quotes that ends or
escapes from them, and the address is read from it again. -/
theorem encode_reads_back :
    (∀ (keep : Keep) (text : Bytes),
      decode (encode keep text) = text ∧
      (∀ before after, encode keep text = before ++ 37 :: after →
        ∃ high low rest, after = high :: low :: rest ∧ isHex high = true ∧ isHex low = true) ∧
      ∀ b ∈ encode keep text, b ≠ 37 → keep.keeps b = true) ∧
    (∀ keep : Keep, Function.Injective (encode keep)) ∧
    ∀ address : Bytes,
      (∃ quoted, cssUrl address = ascii "url(\"" ++ quoted ++ ascii "\")" ∧
        (∀ b ∈ quoted, Quotable b) ∧ decode quoted = address) ∧
      address? (cssUrl address) = some address := by
  refine ⟨fun keep text => ?_, fun keep first second he => ?_, fun address => ⟨?_, ?_⟩⟩
  · have hw := written_encode keep text
    exact ⟨decode_encode keep text, hw.digits, hw.keeps⟩
  · rw [← decode_encode keep first, he, decode_encode]
  · exact ⟨encode .uri address, rfl, (written_encode .uri address).quotable,
      decode_encode .uri address⟩
  · exact address?_cssUrl address

/-- A percent sign that starts no triplet is read as itself. -/
example : decode (ascii "%2x%2520") = ascii "%2x%20" := by decide

end StyleRegistry.Percent
