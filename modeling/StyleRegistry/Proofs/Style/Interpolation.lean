import Mathlib.Data.List.Basic
import Mathlib.Data.List.Induction
import StyleRegistry.Proofs.Numeral
import StyleRegistry.Style.Selector

/-! # Selectors put into one another

A walk builds the selector of a layer relative to an ampersand and puts the
class in for it when the class is named, at the end. Had it known the class, it
could have put each key into its parent from the top down. The two agree
because every relative selector still has an ampersand: a parent without one
would be put in front of its child, and putting a class into that child later
would not reach the parent. -/
namespace StyleRegistry.Selector

open Bytes (ascii)

variable {selector parent key : Bytes}

/-- A text with the parent in place of every ampersand. -/
def fill (parent text : Bytes) : Bytes :=
  text.flatMap fun b => if b = ampersand then parent else [b]

theorem interpolate_of_mem (h : ampersand ∈ selector) (parent : Bytes) :
    interpolate selector parent = fill parent selector := by
  rw [interpolate, if_pos (List.contains_iff_mem.mpr h), fill]

theorem interpolate_of_not_mem (h : ampersand ∉ selector) (parent : Bytes) :
    interpolate selector parent = parent ++ ascii " " ++ selector := by
  rw [interpolate, if_neg (mt List.contains_iff_mem.mp h)]

/-! ## Filling in -/

theorem fill_append (parent first second : Bytes) :
    fill parent (first ++ second) = fill parent first ++ fill parent second :=
  List.flatMap_append

theorem fill_of_not_mem {text : Bytes} (h : ampersand ∉ text) (parent : Bytes) :
    fill parent text = text := by
  induction text with
  | nil => rfl
  | cons b rest ih =>
    have hb : b ≠ ampersand := Ne.symm (List.ne_of_not_mem_cons h)
    have hrest := ih (List.not_mem_of_not_mem_cons h)
    rw [fill, List.flatMap_cons, if_neg hb, ← fill, hrest]
    rfl

/-- Filling in twice is filling in what was filled in. -/
theorem fill_fill (parent inner text : Bytes) :
    fill parent (fill inner text) = fill (fill parent inner) text := by
  unfold fill
  rw [List.flatMap_assoc]
  refine List.flatMap_congr fun b _ => ?_
  by_cases hb : b = ampersand
  · rw [if_pos hb, if_pos hb]
  · rw [if_neg hb, if_neg hb, List.flatMap_singleton, if_neg hb]

theorem mem_fill_iff {text : Bytes} :
    ampersand ∈ fill parent text ↔ ampersand ∈ text ∧ ampersand ∈ parent := by
  unfold fill
  rw [List.mem_flatMap]
  constructor
  · rintro ⟨b, hb, hm⟩
    split at hm
    · rename_i he
      exact ⟨he ▸ hb, hm⟩
    · rename_i he
      exact absurd (List.mem_singleton.mp hm).symm he
  · rintro ⟨ht, hp⟩
    exact ⟨ampersand, ht, by rw [if_pos rfl]; exact hp⟩

/-! ## Interpolation -/

theorem not_mem_space : ampersand ∉ ascii " " := by decide

/-- A selector has an ampersand if and only if its parent has one. -/
theorem mem_interpolate_iff : ampersand ∈ interpolate key parent ↔ ampersand ∈ parent := by
  by_cases hk : ampersand ∈ key
  · rw [interpolate_of_mem hk, mem_fill_iff, and_iff_right hk]
  · rw [interpolate_of_not_mem hk, List.mem_append, List.mem_append, or_iff_left hk,
      or_iff_left not_mem_space]

theorem interpolate_ne_nil (h : parent ≠ []) (key : Bytes) : interpolate key parent ≠ [] := by
  by_cases hk : ampersand ∈ key
  · rw [interpolate_of_mem hk, fill]
    intro hn
    have hb := List.flatMap_eq_nil_iff.mp hn ampersand hk
    rw [if_pos rfl] at hb
    exact h hb
  · rw [interpolate_of_not_mem hk, List.append_assoc]
    exact List.append_ne_nil_of_left_ne_nil h _

/-- **Interpolation is associative where the middle has an ampersand.** -/
theorem interpolate_interpolate (h : ampersand ∈ selector) (key parent : Bytes) :
    interpolate (interpolate key selector) parent =
      interpolate key (interpolate selector parent) := by
  have hm : ampersand ∈ interpolate key selector := mem_interpolate_iff.mpr h
  rw [interpolate_of_mem hm, interpolate_of_mem h]
  by_cases hk : ampersand ∈ key
  · rw [interpolate_of_mem hk, interpolate_of_mem hk, fill_fill]
  · rw [interpolate_of_not_mem hk, interpolate_of_not_mem hk, fill_append, fill_append,
      fill_of_not_mem not_mem_space, fill_of_not_mem hk]

/-- Without one it is not: the class comes before the whole, or into the key. -/
example : interpolate (interpolate (ascii "b&") (ascii "a")) (ascii ".c") = ascii ".c ba" ∧
    interpolate (ascii "b&") (interpolate (ascii "a") (ascii ".c")) = ascii "b.c a" := by decide

/-! ## Ways of keys -/

/-- The at-rules among the keys of a way. -/
def rulesOf (keys : List Bytes) : List Bytes := keys.filter isAtRule

/-- The selector at the end of a way from a parent, from the top down. At-rules
leave it as it is. -/
def resolve (parent : Bytes) (keys : List Bytes) : Bytes :=
  (keys.filter fun key => !isAtRule key).foldl (fun parent key => interpolate key parent) parent

theorem rulesOf_concat (keys : List Bytes) (key : Bytes) : rulesOf (keys ++ [key]) =
    if isAtRule key then rulesOf keys ++ [key] else rulesOf keys := by
  rw [rulesOf, List.filter_append, List.filter_singleton, ← rulesOf]
  cases isAtRule key
  · exact List.append_nil _
  · rfl

theorem resolve_concat (parent : Bytes) (keys : List Bytes) (key : Bytes) :
    resolve parent (keys ++ [key]) =
      if isAtRule key then resolve parent keys else interpolate key (resolve parent keys) := by
  rw [resolve, List.filter_append, List.filter_singleton, List.foldl_append, ← resolve]
  cases isAtRule key <;> rfl

theorem mem_resolve_iff {keys : List Bytes} :
    ampersand ∈ resolve parent keys ↔ ampersand ∈ parent := by
  induction keys using List.reverseRecOn with
  | nil => exact Iff.rfl
  | append_singleton keys key ih =>
    rw [resolve_concat]
    split
    · exact ih
    · exact mem_interpolate_iff.trans ih

/-- A parent that has an ampersand may be put into its own parent before the way
is resolved or afterwards. -/
theorem interpolate_resolve {relative : Bytes} (h : ampersand ∈ relative) (parent : Bytes)
    (keys : List Bytes) :
    interpolate (resolve relative keys) parent = resolve (interpolate relative parent) keys := by
  induction keys using List.reverseRecOn with
  | nil => rfl
  | append_singleton keys key ih =>
    rw [resolve_concat, resolve_concat]
    split
    · exact ih
    · rw [interpolate_interpolate (mem_resolve_iff.mpr h), ih]

theorem mem_root : ampersand ∈ root := List.mem_singleton_self _

theorem interpolate_root (parent : Bytes) : interpolate root parent = parent := by
  rw [interpolate_of_mem mem_root]
  simp [fill, root]

/-! ## Classes -/

theorem not_mem_digit {d : Nat} (h : d < 36) : ampersand ≠ Numeral.digit d := by
  have hd : ∀ d : Fin 36, ampersand ≠ Numeral.digit d := by decide
  exact hd ⟨d, h⟩

/-- There is no ampersand in a class. -/
theorem not_mem_ofClass (h : UInt32) : ampersand ∉ ofClass (Hash.text h) := by
  unfold ofClass
  rw [List.mem_append]
  rintro (hm | hm)
  · exact absurd hm (by decide)
  · obtain ⟨d, hd, he⟩ := Numeral.exists_digit_of_mem (by decide) (by decide) hm
    exact not_mem_digit hd he

end StyleRegistry.Selector
