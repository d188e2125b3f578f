import Mathlib.Data.List.Induction
import Mathlib.Data.List.Perm.Subperm
import StyleRegistry.Proofs.Rule.Removal

/-! # Undoing as subtraction

Undoing a tree subtracts: from the count of a node the number of times that the
tree's walk refers to it, from the count of a selector the number of the tree's
blocks that give it, and never below zero. Who took the references makes no
difference, and neither does their order. The references of a walk are given
back from the last to the first, through containers that were found before any
was given back; so an at-rule may go while references into its body are still
to be given back, and these then go to a body that is out of reach. What stays
keeps its text and its place among the others. -/
namespace StyleRegistry

open Bytes (ascii)
open Forest (bodyIn?)

/-! ## Labels -/

namespace Cache

variable {α β : Type}

/-- The entries in order, under their keys, without their counts. -/
def labels (label : α → β) (cache : Cache α) : List (Bytes × β) :=
  cache.entries.map fun entry => (entry.key, label entry.item)

theorem fst_labels (label : α → β) (cache : Cache α) :
    (cache.labels label).map Prod.fst = cache.keys := by
  rw [labels, List.map_map, keys]
  rfl

theorem labels_release_sublist (label : α → β) (cache : Cache α) (key : Bytes) :
    ((cache.release key).labels label).Sublist (cache.labels label) :=
  map_release_sublist (fun entry => (entry.key, label entry.item)) (fun _ _ => rfl) cache key

/-- What is left of a cache, in order, is what it keeps. -/
theorem Sound.labels_eq_filter [Keyed α] {cache after : Cache α} (h : cache.Sound)
    (label : α → β) (hs : (after.labels label).Sublist (cache.labels label)) (stays : Bytes → Bool)
    (hk : ∀ key, after.contains key = true ↔ stays key = true) :
    after.labels label = (cache.labels label).filter fun entry => stays entry.1 := by
  have hnodup : ((cache.labels label).map Prod.fst).Nodup := by
    rw [fst_labels]
    exact h.nodup
  have hmem (key : Bytes) : key ∈ (after.labels label).map Prod.fst ↔ stays key = true := by
    rw [fst_labels, ← contains_iff_mem]
    exact hk key
  have hall : (after.labels label).filter (fun entry => stays entry.1) = after.labels label := by
    refine List.filter_eq_self.mpr fun entry he => ?_
    exact (hmem entry.1).mp (List.mem_map_of_mem he)
  have hsub := hs.filter fun entry => stays entry.1
  rw [hall] at hsub
  refine hsub.eq_of_length_le (List.Nodup.subperm (hnodup.of_map _ |>.filter _) ?_).length_le
  intro entry he
  obtain ⟨hin, hstays⟩ := List.mem_filter.mp he
  obtain ⟨left, hleft, hkey⟩ := List.mem_map.mp ((hmem entry.1).mpr hstays)
  -- A key has one entry, so what is left under it is what was there.
  rwa [← List.inj_on_of_nodup_map hnodup (hs.subset hleft) hin hkey]

end Cache

namespace Container

variable {root : Container}

section Labels

variable {path other : List Bytes} {key : Bytes}

theorem labels_of_face {a b : Container} (h : a.face = b.face) :
    a.labels Node.text = b.labels Node.text := by
  have hl := congrArg (List.map fun face => (face.key, face.text)) h
  rw [face, face, List.map_map, List.map_map] at hl
  exact hl

theorem labels_releaseAt (h : root.WellFormed)
    (hs : (bodyIn? (root.releaseAt path key) other).isSome) :
    (((root.releaseAt path key).bodyAt other).labels Node.text).Sublist
      ((root.bodyAt other).labels Node.text) := by
  by_cases ho : other = path
  · rw [ho, bodyAt_releaseAt_self]
    exact Cache.labels_release_sublist Node.text _ key
  · have hface := face_bodyAt_releaseAt h hs
    rw [if_neg ho] at hface
    rw [labels_of_face hface]

theorem labels_releaseEach (h : root.WellFormed) {stops : List Stop}
    (hs : (bodyIn? (root.releaseEach stops) path).isSome) :
    (((root.releaseEach stops).bodyAt path).labels Node.text).Sublist
      ((root.bodyAt path).labels Node.text) := by
  induction stops generalizing root with
  | nil => exact .refl _
  | cons stop rest ih =>
    have hw := h.releaseAt stop.path stop.key
    exact (ih hw hs).trans (labels_releaseAt h (isSome_bodyIn?_of_releaseEach hw hs))

theorem labels_selectAt (change : Cache Selector → Cache Selector) (other : List Bytes) :
    ((root.selectAt path key change).bodyAt other).labels Node.text =
      (root.bodyAt other).labels Node.text := by
  by_cases ho : other = path
  · rw [ho, bodyAt_selectAt_self]
    refine Cache.map_updateEntry _ (fun entry => ?_) _
    cases entry.item <;> rfl
  · exact labels_of_face (face_bodyAt_selectAt ho)

variable {change : Selector → Cache Selector → Cache Selector} {move : Nat → Nat → Nat}
  {name : Bytes}

theorem labels_selectEach (stops : List Stop) (path : List Bytes) :
    ((root.selectEach change name stops).bodyAt path).labels Node.text =
      (root.bodyAt path).labels Node.text := by
  induction stops generalizing root with
  | nil => rfl
  | cons stop rest ih =>
    rw [selectEach_cons, ih]
    cases stop with
    | block rules selector declarations => exact labels_selectAt _ path
    | atRule rules rule => rfl

/-- A stop changes the selectors of its own block and of no other. -/
theorem selectorsAt_selectStop (h : root.WellFormed) {stop : Stop}
    (hh : root.holds stop.path stop.key = true) (path : List Bytes) (key : Bytes) :
    (selectStop change name root stop).selectorsAt path key = root.selectorsAt path key ∨
      ∃ selector, (selectStop change name root stop).selectorsAt path key =
        change selector (root.selectorsAt path key) := by
  cases stop with
  | atRule rules rule => exact .inl rfl
  | block rules text declarations =>
    have hsel := @selectorsAt_selectAt root _ (change (.below name text)) h _ hh path key
    split at hsel
    · exact .inr ⟨.below name text, hsel⟩
    · exact .inl hsel

theorem labels_selectorsAt_selectEach (h : root.WellFormed) {stops : List Stop}
    (hh : ∀ stop ∈ stops, root.holds stop.path stop.key = true) (path : List Bytes) (key : Bytes) :
    (((root.selectEach revoke name stops).selectorsAt path key).labels Selector.text).Sublist
      ((root.selectorsAt path key).labels Selector.text) := by
  induction stops generalizing root with
  | nil => exact .refl _
  | cons stop rest ih =>
    have hrest : ∀ s ∈ rest, (selectStop revoke name root stop).holds s.path s.key = true := by
      intro s hs
      rw [holds_selectStop]
      exact hh s (List.mem_cons_of_mem _ hs)
    have hfirst : (((selectStop revoke name root stop).selectorsAt path key).labels
        Selector.text).Sublist ((root.selectorsAt path key).labels Selector.text) := by
      rcases selectorsAt_selectStop h (hh stop List.mem_cons_self) path key with he | ⟨text, he⟩
      · rw [he]
      · rw [he]
        exact Cache.labels_release_sublist Selector.text _ _
    exact (ih (h.selectStop moves_revoke stop) hrest).trans hfirst

end Labels

/-! ## What is left -/

theorem WellFormed.isSome_bodyIn?_concat_iff (h : root.WellFormed) {path : List Bytes}
    {key : Bytes} : (bodyIn? root (path ++ [key])).isSome ↔
      root.holds path key = true ∧ ∃ rule, key = Key.atRule rule := by
  constructor
  · intro hs
    have hh := holds_of_isSome_bodyIn? hs
    obtain ⟨body, node, hb, hn⟩ := item?_of_holds hh
    have hkey := h.node_key hb hn
    rw [Forest.bodyIn?_concat, hb, Option.bind_some, hn, Option.bind_some] at hs
    cases node with
    | style declarations selectors => cases hs
    | atRule rule inner => exact ⟨hh, rule, hkey.symm⟩
  · rintro ⟨hh, rule, rfl⟩
    exact h.isSome_bodyIn? hh

/-- The at-rules on the way have more references than the tree gives back. -/
def Outlasts (root : Container) (styles : Layer) (path : List Bytes) : Prop :=
  ∀ way rule, way ++ [rule] <+: path → styles.references way rule < root.countAt way rule

theorem outlasts_nil (root : Container) (styles : Layer) : root.Outlasts styles [] := by
  intro way rule hp
  cases way <;> cases List.prefix_nil.mp hp

theorem outlasts_concat_iff {styles : Layer} {path : List Bytes} {key : Bytes} :
    root.Outlasts styles (path ++ [key]) ↔
      root.Outlasts styles path ∧ styles.references path key < root.countAt path key := by
  constructor
  · intro ho
    exact ⟨fun way rule hp => ho way rule (hp.trans (List.prefix_append ..)),
      ho path key List.prefix_rfl⟩
  · rintro ⟨ho, hlast⟩ way rule hp
    rcases List.prefix_concat_iff.mp hp with he | hp
    · obtain ⟨rfl, hrule⟩ := List.append_inj' he rfl
      obtain rfl := List.singleton_inj.mp hrule
      exact hlast
    · exact ho way rule hp

section Undone

variable (h : root.WellFormed) (styles : Layer)
include h

theorem holds_undone_iff {path : List Bytes} {key : Bytes} :
    (root.undone styles).holds path key = true ↔
      (bodyIn? (root.undone styles) path).isSome ∧
        styles.references path key < root.countAt path key := by
  constructor
  · intro hh
    have hs := isSome_bodyIn?_of_holds hh
    have hcount := ((h.undone styles).holds_iff path key).mp hh
    rw [countAt_undone h styles hs] at hcount
    exact ⟨hs, Nat.lt_of_sub_pos hcount⟩
  · rintro ⟨hs, hlt⟩
    refine ((h.undone styles).holds_iff path key).mpr ?_
    rw [countAt_undone h styles hs]
    exact Nat.sub_pos_of_lt hlt

/-- A container stays if the at-rules on the way to it do. -/
theorem isSome_bodyIn?_undone_iff (path : List Bytes) :
    (bodyIn? (root.undone styles) path).isSome ↔
      (bodyIn? root path).isSome ∧ root.Outlasts styles path := by
  induction path using List.reverseRecOn with
  | nil => exact ⟨fun _ => ⟨rfl, outlasts_nil root styles⟩, fun _ => rfl⟩
  | append_singleton path key ih =>
    rw [(h.undone styles).isSome_bodyIn?_concat_iff, holds_undone_iff h styles, ih,
      h.isSome_bodyIn?_concat_iff, outlasts_concat_iff]
    constructor
    · rintro ⟨⟨⟨hs, ho⟩, hlt⟩, hrule⟩
      have hh := (h.holds_iff path key).mpr (Nat.zero_lt_of_lt hlt)
      exact ⟨⟨hh, hrule⟩, ho, hlt⟩
    · rintro ⟨⟨hh, hrule⟩, ho, hlt⟩
      exact ⟨⟨⟨isSome_bodyIn?_of_holds hh, ho⟩, hlt⟩, hrule⟩

/-- The nodes of a container that stays. -/
theorem labels_undone {path : List Bytes} (hs : (bodyIn? (root.undone styles) path).isSome) :
    ((root.undone styles).bodyAt path).labels Node.text =
      ((root.bodyAt path).labels Node.text).filter fun entry =>
        styles.references path entry.1 < root.countAt path entry.1 := by
  have hcleared : WellFormed (root.selectEach revoke styles.className (root.held styles.stops)) :=
    h.selectEach moves_revoke _
  have hsub := labels_releaseEach hcleared hs
  rw [labels_selectEach] at hsub
  refine (h.bodyAt path).tidy.sound.labels_eq_filter Node.text hsub
    (fun key => styles.references path key < root.countAt path key) fun key => ?_
  rw [decide_eq_true_iff]
  exact (holds_undone_iff h styles).trans (and_iff_right hs)

/-- The selectors of a block that stays. -/
theorem labels_selectorsAt_undone {path : List Bytes} {key : Bytes}
    (hh : (root.undone styles).holds path key = true) :
    ((root.undone styles).selectorsAt path key).labels Selector.text =
      ((root.selectorsAt path key).labels Selector.text).filter fun entry =>
        styles.selectorReferences path key entry.1 <
          (root.selectorsAt path key).count entry.1 := by
  have hcleared : WellFormed (root.selectEach revoke styles.className (root.held styles.stops)) :=
    h.selectEach moves_revoke _
  have hsub := @labels_selectorsAt_selectEach root styles.className h (root.held styles.stops)
    (fun _ => holds_of_mem_held) path key
  rw [← selectorsAt_releaseEach hcleared hh] at hsub
  refine (h.sound_selectorsAt path key).labels_eq_filter Selector.text hsub
    (fun name => styles.selectorReferences path key name <
      (root.selectorsAt path key).count name) fun name => ?_
  have hcount := count_selectorsAt_undone h styles hh name
  have hpos := ((h.undone styles).sound_selectorsAt path key).contains_iff name
  rw [hcount] at hpos
  rw [decide_eq_true_iff]
  exact hpos.trans Nat.sub_pos_iff_lt

end Undone

end Container

/-! ## Any tree -/

namespace Forest

variable {forest : Forest}

/-- **Undoing subtracts.** In any well-formed container, whatever was registered
in it, undoing a tree leaves the containers whose at-rules all have more
references than the tree gives back. In each of these a node's count is what it
was less the tree's references to it, as far as there are any, and the node is
there if that is positive; and of a block that is there, the same holds of each
selector. What is left keeps its text and its order, and nothing else is there. -/
theorem unregister_subtracts (h : forest.root.WellFormed) (styles : Layer) :
    let before := forest.root
    let after := (forest.unregister (forest.place .root) styles).forest.root
    (∀ path, (bodyIn? after path).isSome ↔
      (bodyIn? before path).isSome ∧ before.Outlasts styles path) ∧
    (∀ path, (bodyIn? after path).isSome →
      (∀ key, after.countAt path key = before.countAt path key - styles.references path key ∧
        (after.holds path key = true ↔
          0 < before.countAt path key - styles.references path key)) ∧
      (after.bodyAt path).labels Node.text = ((before.bodyAt path).labels Node.text).filter
        fun entry => styles.references path entry.1 < before.countAt path entry.1) ∧
    (∀ path key, after.holds path key = true →
      (∀ selector, (after.selectorsAt path key).count selector =
          (before.selectorsAt path key).count selector -
            styles.selectorReferences path key selector ∧
        ((after.selectorsAt path key).contains selector = true ↔
          0 < (before.selectorsAt path key).count selector -
            styles.selectorReferences path key selector)) ∧
      (after.selectorsAt path key).labels Selector.text =
        ((before.selectorsAt path key).labels Selector.text).filter fun entry =>
          styles.selectorReferences path key entry.1 <
            (before.selectorsAt path key).count entry.1) := by
  intro before after
  have hafter : after = before.undone styles := root_unregister h styles
  have hw : after.WellFormed := hafter ▸ h.undone styles
  rw [hafter] at hw ⊢
  refine ⟨Container.isSome_bodyIn?_undone_iff h styles, fun path hs => ⟨fun key => ?_, ?_⟩,
    fun path key hh => ⟨fun selector => ?_, ?_⟩⟩
  · have hcount := Container.countAt_undone h styles hs key
    exact ⟨hcount, hcount ▸ hw.holds_iff path key⟩
  · exact Container.labels_undone h styles hs
  · have hcount := Container.count_selectorsAt_undone h styles hh selector
    exact ⟨hcount, hcount ▸ (hw.sound_selectorsAt path key).contains_iff selector⟩
  · exact Container.labels_selectorsAt_undone h styles hh

/-- A tree that names an at-rule twice, in two spellings. -/
def doubled : Layer :=
  [(ascii "@media print", .nested [(ascii "display", .scalar (.text (ascii "none")))]),
    (ascii "@media print ", .nested [(ascii "display", .scalar (.text (ascii "none")))]),
    (ascii "color", .scalar (.text (ascii "red")))]

/-- A tree that names it once and two blocks that are equal. -/
def single : Layer :=
  [(ascii "@media print", .nested [(ascii "display", .scalar (.text (ascii "none")))]),
    (ascii ".x", .nested [(ascii "color", .scalar (.text (ascii "red")))]),
    (ascii "color", .scalar (.text (ascii "red")))]

/-- The at-rule goes, with references into its body still to be given back, and
one of the equal blocks stays, with both of its selectors. -/
theorem unregister_subtracts_doubled :
    let forest := Forest.ofContainer (Container.registered .empty single)
    let after := (forest.unregister (forest.place .root) doubled).forest.root
    bodyIn? after [Key.atRule (ascii "@media print")] = none ∧
    after.countAt [] (Key.style (ascii "color:red;")) = 1 ∧
    (after.selectorsAt [] (Key.style (ascii "color:red;"))).labels Selector.text =
      (forest.root.selectorsAt [] (Key.style (ascii "color:red;"))).labels Selector.text := by
  intro forest after
  have h : forest.root.WellFormed := Container.WellFormed.empty.registered single
  obtain ⟨hways, hnodes, hselectors⟩ := unregister_subtracts h doubled
  have hred := ((hnodes [] rfl).1 (Key.style (ascii "color:red;")))
  refine ⟨?_, hred.1.trans (by decide +kernel), ?_⟩
  · rw [← Option.not_isSome_iff_eq_none, hways]
    rintro ⟨-, ho⟩
    exact absurd (ho [] _ List.prefix_rfl) (by decide +kernel)
  · have hh := hred.2.mpr (by decide +kernel)
    refine (hselectors [] _ hh).2.trans (List.filter_eq_self.mpr ?_)
    decide +kernel

end Forest
end StyleRegistry
