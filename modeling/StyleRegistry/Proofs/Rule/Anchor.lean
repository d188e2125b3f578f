import StyleRegistry.Proofs.Rule.Place

/-! # Anchored places

A call that waits for listeners holds places that were taken before they ran.
Such a place is anchored while it still leads to the root container's node at
the way it was taken at; what is done at it is then done along that way. Only
an eviction on the way unties it, so a place whose way is still held after a
release has stayed anchored. -/
namespace StyleRegistry.Forest

structure Anchored (forest : Forest) (place : Place) (way : List Bytes) : Prop where
  since : place.since ≤ forest.evictions.length
  locate : forest.locate place = ⟨none, way⟩

variable {forest after : Forest} {place held : Place} {way path : List Bytes}

theorem anchored_place (forest : Forest) (way : List Bytes) :
    forest.Anchored (forest.place ⟨none, way⟩) way :=
  ⟨Nat.le_refl _, locate_place _⟩

namespace Anchored

theorem tracks (h : forest.Anchored place way) : forest.Tracks place way :=
  ⟨h.since, .inl h.locate⟩

theorem of_same (h : forest.Anchored place way)
    (ha : after.evictions.map (·.address) = forest.evictions.map (·.address)) :
    after.Anchored place way := by
  have hlen : after.evictions.length = forest.evictions.length := by
    simpa only [List.length_map] using congrArg List.length ha
  exact ⟨hlen ▸ h.since, (locate_congr ha place).trans h.locate⟩

/-! ## What is done at the place -/

theorem acquire (h : forest.Anchored place way) (node : Node) :
    forest.acquire place node = forest.acquire (forest.place ⟨none, way⟩) node := by
  rw [Forest.acquire, Forest.acquire, h.locate, locate_place]

theorem childPlace (h : forest.Anchored place way) (key : Bytes) :
    forest.childPlace place key = forest.place ⟨none, way ++ [key]⟩ := by
  rw [Forest.childPlace, h.locate]
  rfl

theorem updateNode (h : forest.Anchored place way) (change : Node → Node) :
    forest.updateNode place change = forest.updateNode (forest.place ⟨none, way⟩) change := by
  rw [Forest.updateNode, Forest.updateNode, h.locate, locate_place]

/-! ## Places through a release -/

/-- What an eviction does to an anchored place that is not on its way. -/
theorem of_evicted (h : forest.Anchored place way) {gone : Address}
    (ha : after.evictions.map (·.address) = forest.evictions.map (·.address) ++ [gone])
    (hg : ¬ gone.path <+: way) : after.Anchored place way := by
  have hlen : after.evictions.length = forest.evictions.length + 1 := by
    simpa using congrArg List.length ha
  refine ⟨hlen ▸ Nat.le_succ_of_le h.since, ?_⟩
  rw [locate_append ha h.since, h.locate, Address.forward, if_neg]
  rintro ⟨-, hp⟩
  exact hg (List.isPrefixOf_iff_prefix.mp hp)

theorem release (h : forest.Anchored place path) (hw : forest.root.WellFormed) (key : Bytes)
    (hheld : forest.Anchored held way)
    (hh : path ++ [key] <+: way → (forest.root.releaseAt path key).holds path key = true) :
    (forest.release place key).1.Anchored held way := by
  cases hc : forest.containerAt? (forest.locate place) with
  | none =>
    rw [release_of_none hc]
    exact hheld
  | some body =>
    cases he : body.evicted? key with
    | none =>
      refine hheld.of_same ?_
      rw [release_of_stays hc he, addresses_updateContainerAt]
    | some node =>
      have ha : (forest.release place key).1.evictions.map (·.address) =
          forest.evictions.map (·.address) ++ [⟨none, path ++ [key]⟩] := by
        rw [release_of_evicted hc he, h.locate]
        simp only [List.map_append, addresses_updateContainerAt, List.map_cons, List.map_nil]
        rfl
      refine hheld.of_evicted ha fun hp => ?_
      have hb : bodyIn? forest.root path = some body := by
        rw [h.locate] at hc
        exact hc
      have hholds := hh hp
      rw [Container.holds, Container.bodyAt_releaseAt_self, Container.bodyAt_of_some hb,
        ← Cache.item?_isSome, (hw path body hb).sound.item?_release_of_evicted he] at hholds
      cases hholds

end Anchored

end StyleRegistry.Forest
