import Mathlib.Data.Nat.Digits.Lemmas
import StyleRegistry.Proofs.Numeral
import StyleRegistry.Rule.Node

/-! # Canonical numerals

A numeral is canonical when it has a digit and no zero in front of others. Every
number has one such numeral, the one that it is written as, and reading it gives
the number back. So the names of hashes are the canonical numerals of base 32
that stay below the 32nd power of two, and as a node's key is the letter of its
kind and the name of its hash, two nodes share a key just when they share both. -/
namespace StyleRegistry

open Bytes (ascii)

namespace Numeral

/-! ## Reading numerals -/

/-- The digits of the bases up to 36, by their worth. -/
def alphabet : Bytes := ascii "0123456789abcdefghijklmnopqrstuvwxyz"

/-- What a byte is worth as a digit; one that is no digit is worth more than any. -/
def worth (b : UInt8) : Nat := alphabet.idxOf b

/-- What a text counts when each place counts `base` times as much as the next. -/
def value (base : Nat) (text : Bytes) : Nat := valueOf base (text.map worth)

/-- Digits of the base, and a zero in front only where it stands alone. -/
structure Canonical (base : Nat) (text : Bytes) : Prop where
  digits : ∀ b ∈ text, worth b < base
  ne_nil : text ≠ []
  lead : ascii "0" <+: text → text = ascii "0"

theorem worth_digit {d : Nat} (h : d < 36) : worth (digit d) = d := by
  have hall : ∀ d : Fin 36, worth (digit d) = d := by decide
  exact hall ⟨d, h⟩

theorem digit_worth {b : UInt8} (h : worth b < 36) : digit (worth b) = b := by
  have hall : ∀ d : Fin 36, digit d = alphabet[d] := by decide
  rw [hall ⟨worth b, h⟩]
  exact List.getElem_idxOf h

theorem map_worth_digit {ds : List Nat} (h : ∀ d ∈ ds, d < 36) :
    (ds.map digit).map worth = ds := by
  rw [List.map_map]
  refine (List.map_congr_left fun d hd => ?_).trans (List.map_id ds)
  exact worth_digit (h d hd)

theorem map_digit_worth {text : Bytes} (h : ∀ b ∈ text, worth b < 36) :
    (text.map worth).map digit = text := by
  rw [List.map_map]
  refine (List.map_congr_left fun b hb => ?_).trans (List.map_id text)
  exact digit_worth (h b hb)

section Base

variable {base n : Nat} (hb : 1 < base) (h36 : base ≤ 36)
include hb

/-! ## Writing numerals -/

include h36 in
theorem value_ofNat (n : Nat) : value base (ofNat base n) = n := by
  by_cases hn : n = 0
  · subst hn
    exact Nat.add_zero _
  · rw [ofNat_of_pos hb hn, value, valueOf, map_worth_digit (digits_lt hb h36 n),
      List.reverse_reverse, Nat.ofDigits_digits]

include h36 in
theorem worth_lt_of_mem_ofNat {b : UInt8} (h : b ∈ ofNat base n) : worth b < base := by
  by_cases hn : n = 0
  · subst hn
    obtain rfl := List.mem_singleton.mp h
    exact Nat.lt_trans (by decide) hb
  · rw [ofNat_of_pos hb hn] at h
    obtain ⟨d, hd, rfl⟩ := List.mem_map.mp h
    have hlt := Nat.digits_lt_base hb (List.mem_reverse.mp hd)
    rwa [worth_digit (Nat.lt_of_lt_of_le hlt h36)]

include h36 in
/-- The first digit of a number other than zero is not zero. -/
theorem not_zero_prefix_ofNat (hn : n ≠ 0) : ¬ ascii "0" <+: ofNat base n := by
  rintro ⟨rest, he⟩
  rw [ofNat_of_pos hb hn] at he
  obtain ⟨d, ds, hds, hd, -⟩ := List.map_eq_cons_iff.mp he.symm
  have hlt : d < 36 := digits_lt hb h36 n d (hds ▸ List.mem_cons_self)
  have hzero : d = 0 := digit_injOn hlt (by decide) hd
  have hlast : (Nat.digits base n).getLast? = some d := by
    rw [← List.head?_reverse, hds]
    rfl
  have hnonzero := Nat.getLast_digit_ne_zero base hn
  rw [List.getLast_of_getLast?_eq_some hlast] at hnonzero
  exact hnonzero hzero

include h36 in
theorem canonical_ofNat (n : Nat) : Canonical base (ofNat base n) where
  digits _ hm := worth_lt_of_mem_ofNat hb h36 hm
  ne_nil hnil := by
    by_cases hn : n = 0
    · rw [ofNat, if_pos hn] at hnil
      cases hnil
    · rw [ofNat_of_pos hb hn, List.map_eq_nil_iff, List.reverse_eq_nil_iff] at hnil
      exact Nat.digits_ne_nil_iff_ne_zero.mpr hn hnil
  lead hzero := by
    by_cases hn : n = 0
    · rw [ofNat, if_pos hn]
      rfl
    · exact absurd hzero (not_zero_prefix_ofNat hb h36 hn)

theorem length_ofNat_pos (n : Nat) : 0 < (ofNat base n).length := by
  by_cases hn : n = 0
  · rw [ofNat, if_pos hn]
    exact Nat.one_pos
  · rw [ofNat_of_pos hb hn, List.length_map, List.length_reverse, List.length_pos_iff]
    exact Nat.digits_ne_nil_iff_ne_zero.mpr hn

/-- So many digits are enough for the numbers below a power of the base. -/
theorem length_ofNat_le {places : Nat} (hp : 0 < places) (h : n < base ^ places) :
    (ofNat base n).length ≤ places := by
  by_cases hn : n = 0
  · rw [ofNat, if_pos hn]
    exact hp
  · rw [ofNat_of_pos hb hn, List.length_map, List.length_reverse]
    exact (Nat.digits_length_le_iff hb n).mpr h

/-! ## One numeral for each number -/

include h36 in
/-- A canonical numeral is how its value is written. -/
theorem Canonical.ofNat_value {text : Bytes} (h : Canonical base text) :
    ofNat base (value base text) = text := by
  by_cases hz : text = ascii "0"
  · subst hz
    exact if_pos (Nat.add_zero _)
  · have hworth : ∀ b ∈ text, worth b < 36 := fun b hm => Nat.lt_of_lt_of_le (h.digits b hm) h36
    obtain ⟨first, rest, rfl⟩ := List.exists_cons_of_ne_nil h.ne_nil
    have hfirst : worth first ≠ 0 := by
      intro hw
      have hdigit := digit_worth (hworth first List.mem_cons_self)
      rw [hw] at hdigit
      exact hz (h.lead ⟨rest, congrArg (· :: rest) hdigit⟩)
    have hdigits : Nat.digits base (value base (first :: rest)) =
        ((first :: rest).map worth).reverse := by
      rw [value, valueOf]
      refine Nat.digits_ofDigits base hb _ ?_ ?_
      · intro d hd
        obtain ⟨b, hm, rfl⟩ := List.mem_map.mp (List.mem_reverse.mp hd)
        exact h.digits b hm
      · intro hne
        rwa [List.getLast_reverse]
    have hpos : value base (first :: rest) ≠ 0 := by
      rw [← Nat.digits_ne_nil_iff_ne_zero (b := base), hdigits]
      simp
    rw [ofNat_of_pos hb hpos, hdigits, List.reverse_reverse, map_digit_worth hworth]

end Base
end Numeral

/-! ## Kinds of nodes -/

namespace Key

inductive Kind where
  | selector
  | style
  | atRule
  deriving DecidableEq, Repr

def Kind.letter : Kind → Bytes
  | .selector => ascii "s"
  | .style => ascii "n"
  | .atRule => ascii "a"

/-- The key of a node of the kind, known by the text. -/
def ofKind : Kind → Bytes → Bytes
  | .selector => selector
  | .style => style
  | .atRule => atRule

theorem ofKind_eq (kind : Kind) (text : Bytes) :
    ofKind kind text = kind.letter ++ Hash.nameOf text := by
  cases kind with
  | selector => rfl
  | style => rfl
  | atRule => rfl

theorem Kind.length_letter (kind : Kind) : kind.letter.length = 1 := by
  cases kind <;> rfl

theorem Kind.letter_injective {kind other : Kind} (h : kind.letter = other.letter) :
    kind = other := by
  cases kind <;> cases other <;> first | rfl | exact absurd h (by decide)

theorem ofKind_eq_iff {kind other : Kind} {first second : Bytes} :
    ofKind kind first = ofKind other second ↔
      kind = other ∧ Hash.hash first 0 = Hash.hash second 0 := by
  rw [ofKind_eq, ofKind_eq]
  constructor
  · intro he
    obtain ⟨hletter, hname⟩ :=
      List.append_inj he (kind.length_letter.trans other.length_letter.symm)
    exact ⟨Kind.letter_injective hletter, Hash.text_injective hname⟩
  · rintro ⟨rfl, hhash⟩
    rw [Hash.nameOf, hhash, ← Hash.nameOf]

end Key

def Node.kind : Node → Key.Kind
  | .style _ _ => .style
  | .atRule _ _ => .atRule

theorem Node.key_eq_ofKind (node : Node) : node.key = Key.ofKind node.kind node.text := by
  cases node with
  | style declarations selectors => rfl
  | atRule rule body => rfl

/-! ## Names of hashes -/

namespace Hash

open Numeral (Canonical value)

theorem exists_text_iff {name : Bytes} :
    (∃ h, text h = name) ↔ Canonical 32 name ∧ value 32 name < 2 ^ 32 := by
  constructor
  · rintro ⟨h, rfl⟩
    refine ⟨Numeral.canonical_ofNat (by decide) (by decide) _, ?_⟩
    rw [text, Numeral.base32, Numeral.value_ofNat (by decide) (by decide)]
    exact h.toNat_lt
  · rintro ⟨hname, hlt⟩
    refine ⟨UInt32.ofNat (value 32 name), ?_⟩
    rw [text, UInt32.toNat_ofNat_of_lt' hlt]
    exact hname.ofNat_value (by decide) (by decide)

theorem length_text_le (h : UInt32) : (text h).length ≤ 7 := by
  have hlt : h.toNat < 32 ^ 7 := Nat.lt_trans h.toNat_lt (by decide)
  exact Numeral.length_ofNat_le (by decide) (by decide) hlt

/-- **The name of a hash is its canonical numeral, and a key is a kind and a
hash.** In base 32 the name of a hash is the one canonical numeral of its value,
of one to seven digits. No two hashes have one name, and what names a hash is
just every canonical numeral below the 32nd power of two. The key of a node is
the one of its kind for its text, and two such keys are the same just when the
kinds are and the hashes of the texts. -/
theorem text_canonical :
    (∀ h, Canonical 32 (text h) ∧ value 32 (text h) = h.toNat ∧
      1 ≤ (text h).length ∧ (text h).length ≤ 7) ∧
    (∀ g h, text g = text h ↔ g = h) ∧
    (∀ name, (∃ h, text h = name) ↔ Canonical 32 name ∧ value 32 name < 2 ^ 32) ∧
    (∀ node : Node, node.key = Key.ofKind node.kind node.text) ∧
    (∀ selector : Selector, Keyed.key selector = Key.ofKind .selector selector.text) ∧
    ∀ kind other first second, Key.ofKind kind first = Key.ofKind other second ↔
      kind = other ∧ hash first 0 = hash second 0 := by
  refine ⟨fun h => ⟨?_, ?_, ?_, ?_⟩, fun g h => ⟨text_injective, congrArg text⟩,
    fun name => exists_text_iff, Node.key_eq_ofKind, fun selector => rfl,
    fun kind other first second => Key.ofKind_eq_iff⟩
  · exact Numeral.canonical_ofNat (by decide) (by decide) h.toNat
  · exact Numeral.value_ofNat (by decide) (by decide) h.toNat
  · exact Numeral.length_ofNat_pos (by decide) h.toNat
  · exact length_text_le h

/-- The largest hash needs all seven digits. -/
example : text 0xffffffff = ascii "3vvvvvv" := by decide

end Hash
end StyleRegistry
