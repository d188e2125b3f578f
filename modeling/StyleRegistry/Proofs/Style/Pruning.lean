import StyleRegistry.Proofs.Style.Preorder
import StyleRegistry.Rule.Registration

/-! # Pruned trees

A null declares nothing, and an entry that declares nothing leaves no trace in
the block of its layer: the declarations are those of the other entries, in the
same order, because sorting does not see what is missing. So a tree and what is
left of it without its nulls compile to one block. -/
namespace StyleRegistry

open Bytes (ascii)

/-! ## Sorting what is left -/

namespace Bytes

variable {α : Type} {p : Bytes × α → Bool} {entry : Bytes × α} {entries : List (Bytes × α)}

theorem insertByKey_of_le (h : ∀ later ∈ entries, entry.1 ≤ later.1) :
    insertByKey entry entries = entry :: entries := by
  cases entries with
  | nil => rfl
  | cons head rest => rw [insertByKey, if_neg (List.not_lt.mpr (h head List.mem_cons_self))]

theorem filter_insertByKey (hs : entries.Pairwise fun a b => a.1 ≤ b.1) (hp : p entry = true) :
    (insertByKey entry entries).filter p = insertByKey entry (entries.filter p) := by
  induction entries with
  | nil => simp [insertByKey, hp]
  | cons head rest ih =>
    obtain ⟨hhead, hrest⟩ := List.pairwise_cons.mp hs
    by_cases hlt : head.1 < entry.1
    · rw [insertByKey, if_pos hlt, List.filter_cons, List.filter_cons, ih hrest]
      split
      · rw [insertByKey, if_pos hlt]
      · rfl
    · have hle : ∀ later ∈ head :: rest, entry.1 ≤ later.1 := by
        intro later hm
        rcases List.mem_cons.mp hm with rfl | hm
        · exact List.not_lt.mp hlt
        · exact List.le_trans (List.not_lt.mp hlt) (hhead later hm)
      rw [insertByKey_of_le hle, List.filter_cons_of_pos hp]
      exact (insertByKey_of_le fun later hm => hle later (List.mem_of_mem_filter hm)).symm

theorem filter_insertByKey_of_not (hp : p entry = false) :
    (insertByKey entry entries).filter p = entries.filter p := by
  induction entries with
  | nil => simp [insertByKey, hp]
  | cons head rest ih =>
    rw [insertByKey]
    split
    · rw [List.filter_cons, List.filter_cons, ih]
    · rw [List.filter_cons_of_neg (by simp [hp])]

/-- Entries may be left out before sorting or after it, even if keys repeat. -/
theorem filter_sortByKey (p : Bytes × α → Bool) (entries : List (Bytes × α)) :
    (sortByKey entries).filter p = sortByKey (entries.filter p) := by
  induction entries with
  | nil => rfl
  | cons entry rest ih =>
    rw [sortByKey, List.foldr_cons, ← sortByKey]
    cases hp : p entry with
    | true =>
      rw [filter_insertByKey (sortByKey_sorted rest) hp, ih, List.filter_cons_of_pos hp]
      rfl
    | false => rw [filter_insertByKey_of_not hp, ih, List.filter_cons_of_neg (by simp [hp])]

end Bytes

/-! ## Pruning -/

/-- Some of the nulls of an array are left out. -/
inductive Scalar.Pruned : List Scalar → List Scalar → Prop
  | nil : Pruned [] []
  | keep (s : Scalar) {items kept : List Scalar} : Pruned items kept →
    Pruned (s :: items) (s :: kept)
  | drop {items kept : List Scalar} : Pruned items kept → Pruned (.null :: items) kept

/-- A null, or an array with nothing but nulls in it. -/
inductive Value.Silent : Value → Prop
  | null : Silent (.scalar .null)
  | array {items : List Scalar} : (∀ s ∈ items, s = .null) → Silent (.array items)

mutual

/-- A scalar may also become an array of one. -/
inductive Value.Pruned : Value → Value → Prop
  | scalar (s : Scalar) : Value.Pruned (.scalar s) (.scalar s)
  | single (s : Scalar) : Value.Pruned (.scalar s) (.array [s])
  | array {items kept : List Scalar} : Scalar.Pruned items kept →
    Value.Pruned (.array items) (.array kept)
  | nested {a b : Layer} : Layer.Pruned a b → Value.Pruned (.nested a) (.nested b)

/-- Some of the silent entries of a layer are left out, and its other values are
pruned in their places. -/
inductive Layer.Pruned : List (Bytes × Value) → List (Bytes × Value) → Prop
  | nil : Layer.Pruned [] []
  | keep (key : Bytes) {v w : Value} {a b : Layer} : Value.Pruned v w → Layer.Pruned a b →
    Layer.Pruned ((key, v) :: a) ((key, w) :: b)
  | drop (key : Bytes) {v : Value} {a b : Layer} : v.Silent → Layer.Pruned a b →
    Layer.Pruned ((key, v) :: a) b

end

/-! ## What entries declare -/

namespace Layer

/-- The declarations of one entry, none for a nested layer. -/
def said (entry : Bytes × Value) : Bytes := (property? entry).elim [] Property.text

/-- The declarations of a layer's entries under their raw keys, where there are any. -/
def spoken (layer : Layer) : List (Bytes × Bytes) :=
  (layer.map fun entry => (entry.1, said entry)).filter fun entry => !entry.2.isEmpty

theorem flatMap_text (entries : List (Bytes × Value)) :
    declarations (entries.filterMap property?) = entries.flatMap said := by
  induction entries with
  | nil => rfl
  | cons entry rest ih =>
    rw [List.flatMap_cons, ← ih, said, List.filterMap_cons]
    cases property? entry with
    | none => rfl
    | some property => rfl

theorem flatMap_snd_filter (entries : List (Bytes × Bytes)) :
    (entries.filter fun entry => !entry.2.isEmpty).flatMap Prod.snd = entries.flatMap Prod.snd := by
  induction entries with
  | nil => rfl
  | cons entry rest ih =>
    rw [List.filter_cons, List.flatMap_cons, ← ih]
    obtain ⟨key, text⟩ := entry
    cases text with
    | nil => rfl
    | cons b text => rfl

/-- The text of a layer depends only on the entries that declare something. -/
theorem text_eq (layer : Layer) : layer.text = (Bytes.sortByKey layer.spoken).flatMap Prod.snd := by
  rw [text, parse, flatMap_text, spoken, ← Bytes.filter_sortByKey, flatMap_snd_filter,
    Bytes.sortByKey_map, List.flatMap_map]

theorem compile_eq_of_spoken {a b : Layer} (hs : a.spoken = b.spoken)
    (he : Block.ofEntries a = Block.ofEntries b) : a.compile = b.compile := by
  have htext : a.text = b.text := by rw [text_eq, text_eq, hs]
  rw [compile, compile, he, ← text, ← text, htext]

theorem spoken_cons (entry : Bytes × Value) (rest : Layer) : spoken (entry :: rest) =
    if (said entry).isEmpty then spoken rest else (entry.1, said entry) :: spoken rest := by
  rw [spoken, List.map_cons, List.filter_cons, ← spoken]
  cases (said entry).isEmpty <;> rfl

end Layer

/-! ## Pruning is not seen -/

theorem Scalar.Pruned.declarations {items kept : List Scalar} (h : Scalar.Pruned items kept)
    (name : Bytes) : items.flatMap (declaration name) = kept.flatMap (declaration name) := by
  induction h with
  | nil => rfl
  | keep s _ ih => rw [List.flatMap_cons, List.flatMap_cons, ih]
  | drop _ ih => exact ih

theorem Value.Silent.said {v : Value} (h : v.Silent) (key : Bytes) : Layer.said (key, v) = [] := by
  cases h with
  | null => rfl
  | @array items hnull =>
    refine List.flatMap_eq_nil_iff.mpr fun s hm => ?_
    rw [hnull s hm]
    rfl

theorem Value.Silent.ofValue? {v : Value} (h : v.Silent) : Block.ofValue? v = none := by
  cases h with
  | null => rfl
  | array _ => rfl

mutual

theorem Value.Pruned.unseen {v w : Value} (h : Value.Pruned v w) :
    (∀ key, Layer.said (key, v) = Layer.said (key, w)) ∧ Block.ofValue? v = Block.ofValue? w :=
  match h with
  | .scalar s => ⟨fun _ => rfl, rfl⟩
  | .single s => ⟨fun _ => (List.append_nil _).symm, rfl⟩
  | .array hitems => ⟨fun _ => hitems.declarations _, rfl⟩
  | .nested hab => by
    obtain ⟨hspoken, hentries⟩ := Layer.Pruned.unseen hab
    exact ⟨fun _ => rfl, congrArg some (Layer.compile_eq_of_spoken hspoken hentries)⟩

theorem Layer.Pruned.unseen {a b : List (Bytes × Value)} (h : Layer.Pruned a b) :
    Layer.spoken a = Layer.spoken b ∧ Block.ofEntries a = Block.ofEntries b :=
  match h with
  | .nil => ⟨rfl, rfl⟩
  | .keep key hvw hab => by
    obtain ⟨hsaid, hblock⟩ := Value.Pruned.unseen hvw
    obtain ⟨hspoken, hentries⟩ := Layer.Pruned.unseen hab
    constructor
    · rw [Layer.spoken_cons, Layer.spoken_cons, hsaid, hspoken]
    · rw [Block.ofEntries, Block.ofEntries, hblock, hentries]
  | .drop key hv hab => by
    obtain ⟨hspoken, hentries⟩ := Layer.Pruned.unseen hab
    constructor
    · rw [Layer.spoken_cons, hv.said, hspoken]
      rfl
    · rw [Block.ofEntries, hv.ofValue?, hentries]

end

namespace Layer.Pruned

/-- **Nulls are invisible.** A tree from which silent entries and null items were
left out, at any depths, and in which scalars became arrays of one, is
registered and undone as the whole tree is: in any container, with the same
class name, the same changes told and the same container left. -/
theorem outcomes_eq {a b : Layer} (h : Layer.Pruned a b) (forest : Forest) (place : Place) :
    forest.register place b = forest.register place a ∧
      forest.unregister place b = forest.unregister place a := by
  obtain ⟨hspoken, hentries⟩ := h.unseen
  have hcompile : b.compile = a.compile := (compile_eq_of_spoken hspoken hentries).symm
  constructor
  · rw [Forest.register, Forest.register, hcompile]
  · rw [Forest.unregister, Forest.unregister, hcompile]

/-- A tree with nulls in two layers, and all that can be pruned of it. -/
theorem outcomes_eq_of_nulls :
    let red : Scalar := .text (ascii "red")
    let zero : Scalar := .whole 0
    let a : Layer := [(ascii "width", .scalar .null), (ascii "color", .array [.null, red, .null]),
      (ascii ".x", .nested [(ascii "top", .scalar zero), (ascii "margin", .array [.null])])]
    let b : Layer := [(ascii "color", .array [red]),
      (ascii ".x", .nested [(ascii "top", .array [zero])])]
    let forest := Forest.ofContainer .empty
    let first := (forest.register (forest.place .root) a).forest
    Layer.Pruned a b ∧
      forest.register (forest.place .root) b = forest.register (forest.place .root) a ∧
      first.unregister (first.place .root) b = first.unregister (first.place .root) a := by
  intro red zero a b forest first
  have hnull : ∀ s ∈ [Scalar.null], s = .null := fun _ => List.mem_singleton.mp
  have hcolor : Scalar.Pruned [.null, red, .null] [red] := .drop (.keep red (.drop .nil))
  have hinner : Layer.Pruned [(ascii "top", .scalar zero), (ascii "margin", .array [.null])]
      [(ascii "top", .array [zero])] := .keep _ (.single zero) (.drop _ (.array hnull) .nil)
  have hpruned : Layer.Pruned a b :=
    .drop _ .null (.keep _ (.array hcolor) (.keep _ (.nested hinner) .nil))
  exact ⟨hpruned, (outcomes_eq hpruned forest _).1, (outcomes_eq hpruned first _).2⟩

end Layer.Pruned
end StyleRegistry
