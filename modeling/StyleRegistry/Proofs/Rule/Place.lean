import StyleRegistry.Proofs.Rule.Reference

/-! # Places through changes

A place that is taken in the root container stays good until its container is
evicted. From then on it names an evicted container, and the root container
has nothing at the old way. So a reference that is given back at a place is
given back along the way the place was taken at, or nowhere in the root. -/
namespace StyleRegistry

open Forest (bodyIn? updateIn)

/-- What a listener learns from a change of presence. -/
def Event.told (event : Event) : Address × Change × Bytes × Node :=
  (event.container.address, event.change, event.key, event.node)

namespace Forest

variable {forest : Forest}

/-! ## Forwarding -/

theorem forwardAll_append (first second : List Eviction) (address : Address) (number : Nat) :
    forwardAll address number (first ++ second) =
      forwardAll (forwardAll address number first) (number + first.length) second := by
  induction first generalizing address number with
  | nil => rfl
  | cons eviction first ih =>
    rw [List.cons_append, forwardAll, ih, List.length_cons, forwardAll, Nat.add_right_comm,
      Nat.add_assoc]

/-- Only the addresses of evictions forward anything. -/
theorem forwardAll_congr {first second : List Eviction}
    (h : first.map (·.address) = second.map (·.address)) (address : Address) (number : Nat) :
    forwardAll address number first = forwardAll address number second := by
  induction first generalizing second address number with
  | nil => rw [List.map_eq_nil_iff.mp h.symm]
  | cons eviction first ih =>
    obtain ⟨eviction', second, rfl, ha, ht⟩ := List.map_eq_cons_iff.mp h.symm
    rw [forwardAll, forwardAll, ha, ih ht.symm]

theorem locate_congr {other : Forest}
    (h : forest.evictions.map (·.address) = other.evictions.map (·.address)) (place : Place) :
    forest.locate place = other.locate place := by
  refine forwardAll_congr ?_ _ _
  rw [List.map_drop, List.map_drop, h]

theorem locate_of_le {place : Place} (h : forest.evictions.length ≤ place.since) :
    forest.locate place = place.address := by
  rw [locate, List.drop_eq_nil_of_le h, forwardAll]

@[simp] theorem locate_place (address : Address) :
    forest.locate (forest.place address) = address := locate_of_le (Nat.le_refl _)

/-- One more eviction forwards every earlier place once more. -/
theorem locate_append {after : Forest} {gone : Address} {place : Place}
    (ha : after.evictions.map (·.address) = forest.evictions.map (·.address) ++ [gone])
    (h : place.since ≤ forest.evictions.length) :
    after.locate place = gone.forward forest.evictions.length (forest.locate place) := by
  obtain ⟨first, last, he, hf, hl⟩ := List.map_eq_append_iff.mp ha
  obtain ⟨eviction, rfl, rfl⟩ := List.map_eq_singleton_iff.mp hl
  have hlen : first.length = forest.evictions.length := by
    simpa only [List.length_map] using congrArg List.length hf
  have hd : (first.drop place.since).map (·.address) =
      (forest.evictions.drop place.since).map (·.address) := by
    rw [List.map_drop, List.map_drop, hf]
  rw [locate, he, List.drop_append_of_le_length (hlen ▸ h), forwardAll_append, List.length_drop,
    hlen, Nat.add_sub_cancel' h, forwardAll_congr hd]
  rfl

/-! ## Containers that change -/

theorem addresses_updateEvicted (number : Nat) (change : Node → Node) :
    (forest.updateEvicted number change).evictions.map (·.address) =
      forest.evictions.map (·.address) := by
  refine List.ext_getElem? fun i => ?_
  simp only [updateEvicted, List.getElem?_map, List.getElem?_modify, Option.map_eq_map,
    Option.map_map]
  congr 1
  split <;> rfl

theorem addresses_updateContainerAt (address : Address) (change : Container → Container) :
    (forest.updateContainerAt address change).evictions.map (·.address) =
      forest.evictions.map (·.address) := by
  unfold updateContainerAt
  split
  · rfl
  · exact addresses_updateEvicted _ _

theorem root_updateContainerAt_of_evicted (forest : Forest) {address : Address}
    (h : address.origin.isSome) (change : Container → Container) :
    (forest.updateContainerAt address change).root = forest.root := by
  obtain ⟨number, hn⟩ := Option.isSome_iff_exists.mp h
  rw [updateContainerAt, hn]
  rfl

/-! ## Places of the root container -/

theorem container?_place (path : List Bytes) :
    forest.container? (forest.place ⟨none, path⟩) = bodyIn? forest.root path := by
  rw [container?, locate_place]
  rfl

theorem childPlace_place (path : List Bytes) (key : Bytes) :
    forest.childPlace (forest.place ⟨none, path⟩) key = forest.place ⟨none, path ++ [key]⟩ := by
  rw [childPlace, locate_place]
  rfl

theorem mapSelectors_place (path : List Bytes) (key : Bytes)
    (change : Cache Selector → Cache Selector) :
    forest.updateNode (forest.place ⟨none, path ++ [key]⟩) (Node.mapSelectors change) =
      ⟨forest.root.selectAt path key change, forest.evictions⟩ := by
  simp only [updateNode, locate_place, updateNodeAt, List.getLast?_concat, Address.parent,
    List.dropLast_concat, updateContainerAt, Container.selectAt]

/-! ## Taking a reference -/

/-- A way that ends early takes no reference. -/
theorem acquire_place (path : List Bytes) (node : Node) :
    (forest.acquire (forest.place ⟨none, path⟩) node).1 =
      ⟨forest.root.acquireAt path node, forest.evictions⟩ := by
  rw [acquire, locate_place, containerAt?]
  cases hb : bodyIn? forest.root path with
  | none =>
    rw [Container.acquireAt, updateIn_self fun body h => absurd (hb.symm.trans h) (by simp)]
  | some body =>
    simp only
    split <;> rfl

/-- The first reference to a key is told of. -/
theorem told_acquire {path : List Bytes} (h : (bodyIn? forest.root path).isSome) (node : Node) :
    (forest.acquire (forest.place ⟨none, path⟩) node).2.map Event.told =
      if forest.root.holds path node.key then none
      else some (⟨none, path⟩, .add, node.key, node) := by
  obtain ⟨body, hb⟩ := Option.isSome_iff_exists.mp h
  rw [Container.holds, Container.bodyAt_of_some hb]
  simp only [acquire, locate_place, containerAt?, hb]
  split <;> rfl

/-! ## Giving a reference back -/

/-- The place names the container at the way, or an evicted one where the root
container has nothing at the way. -/
structure Tracks (forest : Forest) (place : Place) (path : List Bytes) : Prop where
  since : place.since ≤ forest.evictions.length
  locate : forest.locate place = ⟨none, path⟩ ∨
    (forest.locate place).origin.isSome ∧ bodyIn? forest.root path = none

theorem tracks_place (forest : Forest) (path : List Bytes) :
    forest.Tracks (forest.place ⟨none, path⟩) path :=
  ⟨Nat.le_refl _, .inl (locate_place _)⟩

section Release

variable {place : Place} {key : Bytes} {container : Container}

theorem release_of_none (h : forest.containerAt? (forest.locate place) = none) :
    forest.release place key = (forest, none) := by
  rw [release, h]

theorem release_of_stays (h : forest.containerAt? (forest.locate place) = some container)
    (he : container.evicted? key = none) :
    forest.release place key =
      (forest.updateContainerAt (forest.locate place) (·.release key), none) := by
  rw [release, h]
  simp only [he]

theorem release_of_evicted (h : forest.containerAt? (forest.locate place) = some container)
    {node : Node} (he : container.evicted? key = some node) :
    forest.release place key =
      let changed := forest.updateContainerAt (forest.locate place) (·.release key)
      let kept : Forest := ⟨changed.root,
        changed.evictions ++ [⟨(forest.locate place).child key, node⟩]⟩
      (kept, some ⟨.remove, kept.place (forest.locate place), key,
        kept.place (.evicted forest.evictions.length), node⟩) := by
  rw [release, h]
  simp only [he]

/-- The root container changes as it does without places. -/
theorem root_release {path : List Bytes} (ht : forest.Tracks place path) (key : Bytes) :
    (forest.release place key).1.root = forest.root.releaseAt path key := by
  rcases ht.locate with hl | ⟨ho, hn⟩
  · cases hb : bodyIn? forest.root path with
    | none =>
      have hc : forest.containerAt? (forest.locate place) = none := by rw [hl]; exact hb
      rw [release_of_none hc, Container.releaseAt,
        updateIn_self fun body h => absurd (hb.symm.trans h) (by simp)]
    | some body =>
      have hc : forest.containerAt? (forest.locate place) = some body := by rw [hl]; exact hb
      cases he : body.evicted? key with
      | none => rw [release_of_stays hc he, hl]; rfl
      | some node => rw [release_of_evicted hc he, hl]; rfl
  · have hr : forest.root.releaseAt path key = forest.root :=
      updateIn_self fun body h => absurd (hn.symm.trans h) (by simp)
    rw [hr]
    cases hc : forest.containerAt? (forest.locate place) with
    | none => rw [release_of_none hc]
    | some body =>
      have hu := root_updateContainerAt_of_evicted forest ho (·.release key)
      cases he : body.evicted? key with
      | none => rw [release_of_stays hc he, hu]
      | some node => rw [release_of_evicted hc he]; exact hu

theorem wellFormed_release {path : List Bytes} (ht : forest.Tracks place path)
    (hw : forest.root.WellFormed) (key : Bytes) :
    (forest.release place key).1.root.WellFormed := by
  rw [root_release ht]
  exact hw.releaseAt path key

/-- What is told of a release along a way of the root container. -/
theorem told_release {path : List Bytes} (ht : forest.Tracks place path)
    (h : (bodyIn? forest.root path).isSome) :
    (forest.release place key).2.map Event.told =
      ((forest.root.bodyAt path).evicted? key).map fun node =>
        (⟨none, path⟩, .remove, key, node) := by
  obtain ⟨body, hb⟩ := Option.isSome_iff_exists.mp h
  have hl : forest.locate place = ⟨none, path⟩ :=
    ht.locate.resolve_right fun hd => absurd (hb.symm.trans hd.2) (by simp)
  have hc : forest.containerAt? (forest.locate place) = some body := by rw [hl]; exact hb
  rw [Container.bodyAt_of_some hb]
  cases he : body.evicted? key with
  | none => rw [release_of_stays hc he]; rfl
  | some node => rw [release_of_evicted hc he, hl]; rfl

end Release

/-! ## Places after a release -/

section Tracks

variable {after : Forest} {track : Place} {other : List Bytes}

theorem Tracks.of_same (ht : forest.Tracks track other)
    (ha : after.evictions.map (·.address) = forest.evictions.map (·.address))
    (hn : bodyIn? forest.root other = none → bodyIn? after.root other = none) :
    after.Tracks track other := by
  have hlen : after.evictions.length = forest.evictions.length := by
    simpa only [List.length_map] using congrArg List.length ha
  refine ⟨hlen ▸ ht.since, ?_⟩
  rw [locate_congr ha]
  exact ht.locate.imp id (And.imp id hn)

/-- A way that an eviction cuts off has to be gone. -/
theorem Tracks.of_evicted (ht : forest.Tracks track other) {gone : Address}
    (ha : after.evictions.map (·.address) = forest.evictions.map (·.address) ++ [gone])
    (hn : bodyIn? forest.root other = none → bodyIn? after.root other = none)
    (hg : gone.origin = none → gone.path <+: other → bodyIn? after.root other = none) :
    after.Tracks track other := by
  have hlen : after.evictions.length = forest.evictions.length + 1 := by
    simpa using congrArg List.length ha
  refine ⟨hlen ▸ Nat.le_succ_of_le ht.since, ?_⟩
  rw [locate_append ha ht.since, Address.forward]
  split
  · rename_i hf
    refine .inr ⟨rfl, ?_⟩
    rcases ht.locate with hl | ⟨-, hd⟩
    · rw [hl] at hf
      exact hg hf.1.symm (List.isPrefixOf_iff_prefix.mp hf.2)
    · exact hn hd
  · exact ht.locate.imp id (And.imp id hn)

theorem Tracks.release {place : Place} {path : List Bytes} (hp : forest.Tracks place path)
    (hw : forest.root.WellFormed) (ht : forest.Tracks track other) (key : Bytes) :
    (forest.release place key).1.Tracks track other := by
  have hroot := root_release hp key
  have hn : bodyIn? forest.root other = none →
      bodyIn? (forest.release place key).1.root other = none := by
    rw [hroot, ← Option.not_isSome_iff_eq_none, ← Option.not_isSome_iff_eq_none]
    exact mt (Container.isSome_bodyIn?_of_releaseAt hw)
  cases hc : forest.containerAt? (forest.locate place) with
  | none => exact ht.of_same (by rw [release_of_none hc]) hn
  | some body =>
    cases he : body.evicted? key with
    | none =>
      refine ht.of_same ?_ hn
      rw [release_of_stays hc he, addresses_updateContainerAt]
    | some node =>
      have ha : (forest.release place key).1.evictions.map (·.address) =
          forest.evictions.map (·.address) ++ [(forest.locate place).child key] := by
        rw [release_of_evicted hc he]
        simp only [List.map_append, addresses_updateContainerAt, List.map_cons, List.map_nil]
      refine ht.of_evicted ha hn ?_
      -- An eviction in the root container takes the bodies below it out of reach.
      rintro ho ⟨rest, rfl⟩
      rcases hp.locate with hl | ⟨hs, -⟩
      · rw [hl] at hc ⊢
        rw [hroot, Address.child, List.append_assoc]
        exact Container.bodyIn?_releaseAt_of_evicted hw hc he rest
      · unfold Address.child at ho
        rw [ho] at hs
        cases hs

end Tracks

end Forest
end StyleRegistry
