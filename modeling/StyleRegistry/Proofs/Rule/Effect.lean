import StyleRegistry.Proofs.Rule.Reference
import StyleRegistry.Proofs.Rule.Stop

/-! # What stops do to a container

The references of a tree's stops can be taken in any well-formed container,
since every at-rule is there before its body is entered. Taking them raises
each count by the number of stops that refer to its slot, and giving them back
lowers it by as much, as long as the container is left. Selectors follow the
same law. -/
namespace StyleRegistry

open Forest (bodyIn?)

/-! ## Ground -/

namespace Container

/-- Takes the references of stops, one after another. -/
def acquireEach (root : Container) (stops : List Stop) : Container :=
  stops.foldl (fun root stop => root.acquireAt stop.path stop.node) root

/-- The container of each stop is there when its turn comes. -/
def Grounded (root : Container) : List Stop → Prop
  | [] => True
  | stop :: rest =>
    (bodyIn? root stop.path).isSome ∧ (root.acquireAt stop.path stop.node).Grounded rest

variable {root : Container}

@[simp] theorem acquireEach_nil : root.acquireEach [] = root := rfl

theorem acquireEach_cons (stop : Stop) (stops : List Stop) :
    root.acquireEach (stop :: stops) = (root.acquireAt stop.path stop.node).acquireEach stops := rfl

theorem grounded_append_iff {first second : List Stop} : root.Grounded (first ++ second) ↔
    root.Grounded first ∧ (root.acquireEach first).Grounded second := by
  induction first generalizing root with
  | nil => exact (iff_of_eq (true_and _)).symm
  | cons stop rest ih =>
    rw [List.cons_append, Grounded, ih, Grounded, and_assoc]
    rfl

theorem WellFormed.acquireEach (h : root.WellFormed) (stops : List Stop) :
    (root.acquireEach stops).WellFormed := by
  induction stops generalizing root with
  | nil => exact h
  | cons stop rest ih => exact ih (h.acquireAt stop.fresh_node stop.path)

theorem isSome_bodyIn?_acquireEach {path : List Bytes} (h : (bodyIn? root path).isSome)
    (stops : List Stop) : (bodyIn? (root.acquireEach stops) path).isSome := by
  induction stops generalizing root with
  | nil => exact h
  | cons stop rest ih => exact ih (isSome_bodyIn?_acquireAt h)

/-- An at-rule has a body once it is referred to. -/
theorem WellFormed.isSome_bodyIn?_acquireAt_atRule (h : root.WellFormed) {path : List Bytes}
    (hp : (bodyIn? root path).isSome) (rule : Bytes) :
    (bodyIn? (root.acquireAt path (Node.freshAtRule rule)) (path ++ [Key.atRule rule])).isSome := by
  have hf : (Node.freshAtRule rule).Fresh := (Stop.atRule [] rule).fresh_node
  have hw := h.acquireAt hf path
  refine hw.isSome_bodyIn? ((hw.holds_iff _ _).mpr ?_)
  rw [countAt_acquireAt hp hf, if_pos ⟨rfl, rfl⟩]
  exact Nat.succ_pos _

mutual

/-- The stops of a tree stand on the containers that are there and on those of
the tree's own at-rules. -/
theorem WellFormed.grounded_stops {root : Container} (h : root.WellFormed) {rules : List Bytes}
    (hr : (bodyIn? root (rules.map Key.atRule)).isSome) (selector : Bytes) :
    ∀ block : Block, root.Grounded (block.stops rules selector)
  | .mk declarations children => by
    unfold Block.stops
    refine ⟨hr, ?_⟩
    exact WellFormed.grounded_stopsAll (h.acquireAt (Stop.fresh_node _) _)
      (isSome_bodyIn?_acquireAt hr) selector children

theorem WellFormed.grounded_stopsAll {root : Container} (h : root.WellFormed)
    {rules : List Bytes} (hr : (bodyIn? root (rules.map Key.atRule)).isSome) (selector : Bytes) :
    ∀ children : List (Bytes × Block), root.Grounded (Block.stopsAll rules selector children)
  | [] => trivial
  | (key, block) :: rest => by
    unfold Block.stopsAll
    refine grounded_append_iff.mpr ⟨?_, WellFormed.grounded_stopsAll (h.acquireEach _)
      (isSome_bodyIn?_acquireEach hr _) selector rest⟩
    split
    · refine ⟨hr, WellFormed.grounded_stops (h.acquireAt (Stop.fresh_node _) _) ?_ selector block⟩
      rw [List.map_append]
      exact h.isSome_bodyIn?_acquireAt_atRule hr key
    · exact WellFormed.grounded_stops h hr _ block

end

/-! ## What stops add -/

theorem countAt_acquireEach {stops : List Stop} (hg : root.Grounded stops) (path : List Bytes)
    (key : Bytes) : (root.acquireEach stops).countAt path key =
      root.countAt path key + (stops.map Stop.slot).count (path, key) := by
  induction stops generalizing root with
  | nil => rfl
  | cons stop rest ih =>
    obtain ⟨hstop, hrest⟩ := hg
    rw [acquireEach_cons, ih hrest, countAt_acquireAt hstop stop.fresh_node,
      Stop.count_slot_cons, Nat.add_assoc, Stop.key]

theorem selectorsAt_acquireEach {stops : List Stop} (hg : root.Grounded stops)
    (path : List Bytes) (key : Bytes) :
    (root.acquireEach stops).selectorsAt path key = root.selectorsAt path key := by
  induction stops generalizing root with
  | nil => rfl
  | cons stop rest ih =>
    obtain ⟨hstop, hrest⟩ := hg
    rw [acquireEach_cons, ih hrest, selectorsAt_acquireAt hstop stop.fresh_node]

/-! ## Selectors of stops -/

/-- A block's selectors once it is given one more reference to a selector. -/
def grant (selector : Selector) (selectors : Cache Selector) : Cache Selector :=
  selectors.acquire selector

def revoke (selector : Selector) (selectors : Cache Selector) : Cache Selector :=
  selectors.release (Keyed.key selector)

/-- Changes that move the count of their selector by one, in the way of `move`,
and leave the other counts alone. -/
structure Moves (change : Selector → Cache Selector → Cache Selector) (move : Nat → Nat → Nat) :
    Prop where
  zero : ∀ count, move count 0 = count
  add : ∀ count m n, move (move count m) n = move count (m + n)
  sound : ∀ selector (selectors : Cache Selector), selectors.Sound →
    (change selector selectors).Sound
  count : ∀ selector (selectors : Cache Selector) key, selectors.Sound →
    (change selector selectors).count key =
      move (selectors.count key) (if key = Keyed.key selector then 1 else 0)

theorem moves_grant : Moves grant (· + ·) where
  zero _ := rfl
  add := Nat.add_assoc
  sound selector _ h := h.acquire selector
  count _ _ _ _ := Cache.count_acquire ..

theorem moves_revoke : Moves revoke (· - ·) where
  zero _ := rfl
  add := Nat.sub_sub
  sound _ _ h := h.release _
  count _ _ _ h := h.count_release _ _

/-- Changes the selectors of the block that a stop refers to. -/
def selectStop (change : Selector → Cache Selector → Cache Selector) (name : Bytes)
    (root : Container) (stop : Stop) : Container :=
  match stop.selector? with
  | some selector => root.selectAt stop.path stop.key (change (Selector.below name selector))
  | none => root

def selectEach (root : Container) (change : Selector → Cache Selector → Cache Selector)
    (name : Bytes) (stops : List Stop) : Container := stops.foldl (selectStop change name) root

section Select

variable {change : Selector → Cache Selector → Cache Selector} {move : Nat → Nat → Nat}
  {name : Bytes}

theorem selectEach_cons (stop : Stop) (stops : List Stop) :
    root.selectEach change name (stop :: stops) =
      (selectStop change name root stop).selectEach change name stops := rfl

theorem WellFormed.selectStop (hc : Moves change move) (h : root.WellFormed) (stop : Stop) :
    (selectStop change name root stop).WellFormed := by
  cases stop with
  | block rules selector declarations => exact h.selectAt (hc.sound _) _ _
  | atRule rules rule => exact h

theorem WellFormed.selectEach (hc : Moves change move) (h : root.WellFormed)
    (stops : List Stop) : (root.selectEach change name stops).WellFormed := by
  induction stops generalizing root with
  | nil => exact h
  | cons stop rest ih => exact ih (h.selectStop hc stop)

theorem countAt_selectStop (stop : Stop) (path : List Bytes) (key : Bytes) :
    (selectStop change name root stop).countAt path key = root.countAt path key := by
  cases stop with
  | block rules selector declarations => exact countAt_selectAt path key
  | atRule rules rule => rfl

theorem holds_selectStop (stop : Stop) (path : List Bytes) (key : Bytes) :
    (selectStop change name root stop).holds path key = root.holds path key := by
  cases stop with
  | block rules selector declarations => exact holds_selectAt path key
  | atRule rules rule => rfl

theorem countAt_selectEach (stops : List Stop) (path : List Bytes) (key : Bytes) :
    (root.selectEach change name stops).countAt path key = root.countAt path key := by
  induction stops generalizing root with
  | nil => rfl
  | cons stop rest ih => rw [selectEach_cons, ih, countAt_selectStop]

theorem holds_selectEach (stops : List Stop) (path : List Bytes) (key : Bytes) :
    (root.selectEach change name stops).holds path key = root.holds path key := by
  induction stops generalizing root with
  | nil => rfl
  | cons stop rest ih => rw [selectEach_cons, ih, holds_selectStop]

theorem WellFormed.sound_selectorsAt (h : root.WellFormed) (path : List Bytes) (key : Bytes) :
    (root.selectorsAt path key).Sound := by
  have ht := (h.bodyAt path).tidy
  unfold selectorsAt selectorsOf
  cases hi : (root.bodyAt path).item? key with
  | none => exact Cache.sound_empty
  | some node =>
    cases hs : node.selectors? with
    | none => simpa [hs] using Cache.sound_empty
    | some selectors => simpa [hs] using ht.selectors key node selectors hi hs

theorem count_selectorsAt_selectStop (hc : Moves change move) (h : root.WellFormed) {stop : Stop}
    (hh : root.holds stop.path stop.key = true) (path : List Bytes) (key selector : Bytes) :
    ((selectStop change name root stop).selectorsAt path key).count selector =
      move ((root.selectorsAt path key).count selector)
        ((stop.mark? name).toList.count ((path, key), selector)) := by
  cases stop with
  | atRule rules rule => exact (hc.zero _).symm
  | block rules text declarations =>
    have hmark : (Stop.block rules text declarations).mark? name =
        some ((rules.map Key.atRule, Key.style declarations),
          Keyed.key (Selector.below name text)) := rfl
    have hsel :
        (selectStop change name root (.block rules text declarations)).selectorsAt path key =
        if path = rules.map Key.atRule ∧ key = Key.style declarations then
          change (Selector.below name text) (root.selectorsAt path key)
        else root.selectorsAt path key := selectorsAt_selectAt h hh path key
    rw [hsel, hmark, Option.toList_some, List.count_singleton]
    by_cases hp : path = rules.map Key.atRule ∧ key = Key.style declarations
    · obtain ⟨rfl, rfl⟩ := hp
      rw [if_pos ⟨rfl, rfl⟩, hc.count _ _ _ (h.sound_selectorsAt _ _)]
      refine congrArg (move _) (if_congr ?_ rfl rfl)
      rw [beq_iff_eq, Prod.mk.injEq]
      exact ⟨fun he => ⟨rfl, he.symm⟩, fun he => he.2.symm⟩
    · rw [if_neg hp, if_neg, hc.zero]
      simp only [beq_iff_eq, Prod.mk.injEq]
      exact fun he => hp ⟨he.1.1.symm, he.1.2.symm⟩

theorem count_selectorsAt_selectEach (hc : Moves change move) (h : root.WellFormed)
    {stops : List Stop} (hh : ∀ stop ∈ stops, root.holds stop.path stop.key = true)
    (path : List Bytes) (key selector : Bytes) :
    ((root.selectEach change name stops).selectorsAt path key).count selector =
      move ((root.selectorsAt path key).count selector)
        ((stops.filterMap (Stop.mark? name)).count ((path, key), selector)) := by
  induction stops generalizing root with
  | nil => exact (hc.zero _).symm
  | cons stop rest ih =>
    have hstop := hh stop List.mem_cons_self
    have hrest : ∀ s ∈ rest, (selectStop change name root stop).holds s.path s.key = true := by
      intro s hs
      rw [holds_selectStop]
      exact hh s (List.mem_cons_of_mem _ hs)
    rw [selectEach_cons, ih (h.selectStop hc stop) hrest,
      count_selectorsAt_selectStop hc h hstop, hc.add, List.filterMap_eq_flatMap_toList,
      List.filterMap_eq_flatMap_toList, List.flatMap_cons, List.count_append]

end Select

/-! ## What stops take back -/

/-- Gives the references of stops back, one after another. -/
def releaseEach (root : Container) (stops : List Stop) : Container :=
  stops.foldl (fun root stop => root.releaseAt stop.path stop.key) root

theorem releaseEach_cons (stop : Stop) (stops : List Stop) :
    root.releaseEach (stop :: stops) = (root.releaseAt stop.path stop.key).releaseEach stops := rfl

theorem WellFormed.releaseEach (h : root.WellFormed) (stops : List Stop) :
    (root.releaseEach stops).WellFormed := by
  induction stops generalizing root with
  | nil => exact h
  | cons stop rest ih => exact ih (h.releaseAt stop.path stop.key)

theorem isSome_bodyIn?_of_releaseEach (h : root.WellFormed) {path : List Bytes}
    {stops : List Stop} (hs : (bodyIn? (root.releaseEach stops) path).isSome) :
    (bodyIn? root path).isSome := by
  induction stops generalizing root with
  | nil => exact hs
  | cons stop rest ih => exact isSome_bodyIn?_of_releaseAt h (ih (h.releaseAt _ _) hs)

/-- Where a container is left, its counts went down by what was given back. -/
theorem countAt_releaseEach (h : root.WellFormed) {path : List Bytes} {stops : List Stop}
    (hs : (bodyIn? (root.releaseEach stops) path).isSome) (key : Bytes) :
    (root.releaseEach stops).countAt path key =
      root.countAt path key - (stops.map Stop.slot).count (path, key) := by
  induction stops generalizing root with
  | nil => rfl
  | cons stop rest ih =>
    have hw := h.releaseAt stop.path stop.key
    have hleft := isSome_bodyIn?_of_releaseEach hw hs
    rw [releaseEach_cons, ih hw hs, countAt_releaseAt h hleft, Stop.count_slot_cons, Nat.sub_sub]

theorem holds_of_releaseEach (h : root.WellFormed) {path : List Bytes} {key : Bytes}
    {stops : List Stop} (hh : (root.releaseEach stops).holds path key = true) :
    root.holds path key = true := by
  induction stops generalizing root with
  | nil => exact hh
  | cons stop rest ih => exact holds_of_releaseAt h (ih (h.releaseAt _ _) hh)

theorem selectorsAt_releaseEach (h : root.WellFormed) {path : List Bytes} {key : Bytes}
    {stops : List Stop} (hh : (root.releaseEach stops).holds path key = true) :
    (root.releaseEach stops).selectorsAt path key = root.selectorsAt path key := by
  induction stops generalizing root with
  | nil => rfl
  | cons stop rest ih =>
    have hw := h.releaseAt stop.path stop.key
    have hleft := holds_of_releaseEach hw hh
    rw [releaseEach_cons, ih hw hh, selectorsAt_releaseAt h hleft]

end Container
end StyleRegistry
