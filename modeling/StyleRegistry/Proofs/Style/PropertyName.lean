import Mathlib.Data.List.DropRight
import StyleRegistry.Style.Property

/-! # Property names

A trimmed key has no space at its ends, and hyphenating puts none there: it
writes hyphens in front of capitals and lower-cases these. A hyphenated name
has no capital left and no bare vendor's `ms-`. So trimming and hyphenating
leave alone what they gave. -/
namespace StyleRegistry

open Bytes (ascii)

/-! ## Trimmed texts -/

namespace Bytes

/-- No space is at either end. -/
structure Trimmed (text : Bytes) : Prop where
  head : ∀ b ∈ text.head?, isSpace b = false
  last : ∀ b ∈ text.getLast?, isSpace b = false

theorem trimLeft_of_head {text : Bytes} (h : ∀ b ∈ text.head?, isSpace b = false) :
    trimLeft text = text := by
  cases text with
  | nil => rfl
  | cons b rest =>
    have hb := h b rfl
    simp [trimLeft, hb]

theorem Trimmed.trim_eq {text : Bytes} (h : Trimmed text) : trim text = text := by
  rw [trim, trimLeft_of_head h.head, trimRight, ← trimLeft]
  rw [trimLeft_of_head, List.reverse_reverse]
  intro b hb
  rw [List.head?_reverse] at hb
  exact h.last b hb

theorem head_trimLeft (text : Bytes) : ∀ b ∈ (trimLeft text).head?, isSpace b = false := by
  intro b hb
  have hnot := List.head?_dropWhile_not isSpace text
  rw [show (text.dropWhile isSpace).head? = some b from hb] at hnot
  exact hnot

theorem trimmed_trim (text : Bytes) : Trimmed (trim text) where
  head b hb := by
    obtain ⟨rest, hrest⟩ := List.rdropWhile_prefix isSpace (l := trimLeft text)
    refine head_trimLeft text b ?_
    rw [← hrest, Option.mem_def, List.head?_append]
    exact congrArg (Option.or · rest.head?) hb
  last b hb := by
    have hne : (trimLeft text).rdropWhile isSpace ≠ [] := by
      rintro hnil
      rw [show trim text = [] from hnil] at hb
      cases hb
    have hlast := List.rdropWhile_last_not isSpace (trimLeft text) hne
    rw [show b = ((trimLeft text).rdropWhile isSpace).getLast hne from
      (List.getLast_of_getLast?_eq_some hb).symm]
    simpa using hlast

@[simp] theorem trim_trim (text : Bytes) : trim (trim text) = trim text :=
  (trimmed_trim text).trim_eq

/-! ## Cases -/

theorem isUpper_iff {b : UInt8} : isUpper b = true ↔ 65 ≤ b.toNat ∧ b.toNat ≤ 90 := by
  simp [isUpper, UInt8.le_iff_toNat_le]

theorem isLower_iff {b : UInt8} : isLower b = true ↔ 97 ≤ b.toNat ∧ b.toNat ≤ 122 := by
  simp [isLower, UInt8.le_iff_toNat_le]

theorem isDigit_iff {b : UInt8} : isDigit b = true ↔ 48 ≤ b.toNat ∧ b.toNat ≤ 57 := by
  simp [isDigit, UInt8.le_iff_toNat_le]

theorem isSpace_iff {b : UInt8} :
    isSpace b = true ↔ b.toNat = 32 ∨ 9 ≤ b.toNat ∧ b.toNat ≤ 13 := by
  simp [isSpace, UInt8.le_iff_toNat_le, ← UInt8.toNat_inj]

theorem lower_of_not_isUpper {b : UInt8} (h : isUpper b = false) : lower b = b := by
  simp [lower, h]

theorem toNat_lower {b : UInt8} (h : isUpper b = true) : (lower b).toNat = b.toNat + 32 := by
  have hb := isUpper_iff.mp h
  rw [lower, if_pos h, UInt8.toNat_add]
  exact Nat.mod_eq_of_lt (by simp; omega)

@[simp] theorem isUpper_lower (b : UInt8) : isUpper (lower b) = false := by
  cases h : isUpper b with
  | false => rw [lower_of_not_isUpper h, h]
  | true =>
    have hb := isUpper_iff.mp h
    rw [Bool.eq_false_iff, ne_eq, isUpper_iff, toNat_lower h]
    omega

@[simp] theorem isSpace_lower (b : UInt8) : isSpace (lower b) = isSpace b := by
  cases h : isUpper b with
  | false => rw [lower_of_not_isUpper h]
  | true =>
    have hb := isUpper_iff.mp h
    rw [Bool.eq_iff_iff, isSpace_iff, isSpace_iff, toNat_lower h]
    omega

end Bytes

/-! ## Hyphens -/

/-- Writes a hyphen in front of each capital. -/
def spread (name : Bytes) : Bytes :=
  name.flatMap fun b => if Bytes.isUpper b then ascii "-" ++ [b] else [b]

theorem hyphenate_eq (name : Bytes) : hyphenate name =
    if (ascii "ms-").isPrefixOf (spread name) then ascii "-" ++ (spread name).map Bytes.lower
    else (spread name).map Bytes.lower := by
  rw [hyphenate, ← spread]
  split
  · rfl
  · rfl

theorem spread_of_lower {name : Bytes} (h : ∀ b ∈ name, Bytes.isUpper b = false) :
    spread name = name := by
  induction name with
  | nil => rfl
  | cons b rest ih =>
    have hb := h b List.mem_cons_self
    have hrest := ih fun b hm => h b (List.mem_cons_of_mem _ hm)
    rw [spread, List.flatMap_cons, hb, ← spread, hrest]
    rfl

theorem spread_cons (b : UInt8) (rest : Bytes) :
    spread (b :: rest) = (if Bytes.isUpper b then ascii "-" ++ [b] else [b]) ++ spread rest :=
  List.flatMap_cons

/-- Lower-casing brings no prefix about that ends in its first hyphen: a capital
has a hyphen before it. -/
theorem isPrefixOf_map_lower (letters : Bytes) (h : ∀ b ∈ letters, b ≠ 45) (name : Bytes) :
    (letters ++ ascii "-").isPrefixOf ((spread name).map Bytes.lower) =
      (letters ++ ascii "-").isPrefixOf (spread name) := by
  induction letters generalizing name with
  | nil =>
    cases name with
    | nil => rfl
    | cons b rest =>
      rw [spread_cons]
      cases hb : Bytes.isUpper b with
      | true => rfl
      | false =>
        show (45 == Bytes.lower b && true) = (45 == b && true)
        rw [Bytes.lower_of_not_isUpper hb]
  | cons first letters ih =>
    cases name with
    | nil => rfl
    | cons b rest =>
      rw [spread_cons]
      cases hb : Bytes.isUpper b with
      | true =>
        have hfirst : (first == 45) = false := beq_eq_false_iff_ne.mpr (h first List.mem_cons_self)
        show (first == 45 && _) = (first == 45 && _)
        rw [hfirst, Bool.false_and, Bool.false_and]
      | false =>
        have hrest := ih (fun b hm => h b (List.mem_cons_of_mem _ hm)) rest
        show (first == Bytes.lower b && (letters ++ ascii "-").isPrefixOf ((spread rest).map _)) =
          (first == b && (letters ++ ascii "-").isPrefixOf (spread rest))
        rw [Bytes.lower_of_not_isUpper hb, hrest]

theorem isUpper_of_mem_hyphenate {name : Bytes} :
    ∀ b ∈ hyphenate name, Bytes.isUpper b = false := by
  intro b hb
  have hlower {text : Bytes} (hm : b ∈ text.map Bytes.lower) : Bytes.isUpper b = false := by
    obtain ⟨c, -, rfl⟩ := List.mem_map.mp hm
    exact Bytes.isUpper_lower c
  rw [hyphenate_eq] at hb
  split at hb
  · rcases List.mem_append.mp hb with hb | hb
    · obtain rfl := List.mem_singleton.mp hb
      rfl
    · exact hlower hb
  · exact hlower hb

theorem isPrefixOf_hyphenate (name : Bytes) :
    (ascii "ms-").isPrefixOf (hyphenate name) = false := by
  rw [hyphenate_eq]
  split
  · rfl
  · rename_i hs
    have hsame := isPrefixOf_map_lower (ascii "ms") (by simp [ascii]) name
    exact hsame.trans (Bool.eq_false_iff.mpr hs)

theorem hyphenate_of_lower {name : Bytes} (hlower : ∀ b ∈ name, Bytes.isUpper b = false)
    (hvendor : (ascii "ms-").isPrefixOf name = false) : hyphenate name = name := by
  have hsame : name.map Bytes.lower = name := by
    refine (List.map_congr_left fun b hb => ?_).trans (List.map_id _)
    exact Bytes.lower_of_not_isUpper (hlower b hb)
  rw [hyphenate_eq, spread_of_lower hlower, hvendor, hsame]
  rfl

@[simp] theorem hyphenate_hyphenate (name : Bytes) :
    hyphenate (hyphenate name) = hyphenate name :=
  hyphenate_of_lower isUpper_of_mem_hyphenate (isPrefixOf_hyphenate name)

/-- No letter has a case to lose, and there is no vendor's prefix without its
hyphen. -/
structure Hyphenated (name : Bytes) : Prop where
  no_capital : ∀ b ∈ name, ¬ (65 ≤ b.toNat ∧ b.toNat ≤ 90)
  no_vendor : ¬ ascii "ms-" <+: name

theorem hyphenated_iff {name : Bytes} : Hyphenated name ↔
    (∀ b ∈ name, Bytes.isUpper b = false) ∧ (ascii "ms-").isPrefixOf name = false := by
  simp only [Bool.eq_false_iff, ne_eq, Bytes.isUpper_iff, List.isPrefixOf_iff_prefix]
  exact ⟨fun h => ⟨h.no_capital, h.no_vendor⟩, fun h => ⟨h.1, h.2⟩⟩

theorem hyphenated_hyphenate (name : Bytes) : Hyphenated (hyphenate name) :=
  hyphenated_iff.mpr ⟨isUpper_of_mem_hyphenate, isPrefixOf_hyphenate name⟩

theorem Hyphenated.hyphenate_eq {name : Bytes} (h : Hyphenated name) : hyphenate name = name :=
  hyphenate_of_lower (hyphenated_iff.mp h).1 (hyphenated_iff.mp h).2

/-- **What hyphenating gives is what it leaves alone.** A second pass changes
nothing, and a name comes out of some pass just when it has no capital and does
not start with `ms-`; these are the names that come out of their own. -/
theorem hyphenate_image :
    (∀ name, hyphenate (hyphenate name) = hyphenate name) ∧
    (∀ name, (∃ raw, hyphenate raw = name) ↔ Hyphenated name) ∧
    ∀ name, hyphenate name = name ↔ Hyphenated name := by
  refine ⟨hyphenate_hyphenate, fun name => ⟨?_, ?_⟩, fun name => ⟨?_, ?_⟩⟩
  · rintro ⟨raw, rfl⟩
    exact hyphenated_hyphenate raw
  · intro h
    exact ⟨name, h.hyphenate_eq⟩
  · intro heq
    rw [← heq]
    exact hyphenated_hyphenate name
  · intro h
    exact h.hyphenate_eq

/-- A vendor's prefix in capitals is spread before it could be one. -/
example : hyphenate (ascii "MS-Grid") = ascii "-m-s--grid" := by decide

theorem getLast?_spread (name : Bytes) : (spread name).getLast? = name.getLast? := by
  induction name using List.reverseRecOn with
  | nil => rfl
  | append_singleton name b _ =>
    rw [spread, List.flatMap_append, List.flatMap_singleton]
    split
    · simp
    · simp

theorem trimmed_hyphenate {name : Bytes} (h : Bytes.Trimmed name) :
    Bytes.Trimmed (hyphenate name) := by
  have hhead : ∀ b ∈ ((spread name).map Bytes.lower).head?, Bytes.isSpace b = false := by
    intro b hb
    cases name with
    | nil => cases hb
    | cons first rest =>
      rw [spread_cons] at hb
      cases hf : Bytes.isUpper first with
      | true =>
        rw [hf] at hb
        obtain rfl := Option.some.inj hb
        rfl
      | false =>
        rw [hf] at hb
        obtain rfl := Option.some.inj hb
        rw [Bytes.isSpace_lower]
        exact h.head first rfl
  have hlast : ∀ b ∈ ((spread name).map Bytes.lower).getLast?, Bytes.isSpace b = false := by
    intro b hb
    rw [List.getLast?_map, getLast?_spread] at hb
    obtain ⟨last, hl, rfl⟩ := Option.map_eq_some_iff.mp hb
    rw [Bytes.isSpace_lower]
    exact h.last last hl
  rw [hyphenate_eq]
  split
  · refine ⟨fun b hb => ?_, fun b hb => ?_⟩
    · obtain rfl := Option.some.inj hb
      rfl
    · rw [Option.mem_def, List.getLast?_append] at hb
      rcases Option.or_eq_some_iff.mp hb with hb | ⟨-, hb⟩
      · exact hlast b hb
      · obtain rfl := Option.some.inj hb
        rfl
  · exact ⟨hhead, hlast⟩

/-! ## Names of properties -/

/-- The name under which a key declares a property. -/
def propertyName (key : Bytes) : Bytes := hyphenate (Bytes.trim key)

@[simp] theorem propertyName_propertyName (key : Bytes) :
    propertyName (propertyName key) = propertyName key := by
  have htrim := (trimmed_hyphenate (Bytes.trimmed_trim key)).trim_eq
  rw [propertyName, propertyName, htrim, hyphenate_hyphenate]

end StyleRegistry
