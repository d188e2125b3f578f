import StyleRegistry.Proofs.Cache.Trace

/-! # What listeners can rebuild

The changes that a cache makes known, taken in the order in which their
emissions start, are enough to rebuild the list of its keys: append each key
that is added and delete each that is removed. Each change is made before its
emission starts and before anything else is done, so this holds in the middle
of nested emissions too, and an exception cannot come between. -/
namespace StyleRegistry.CacheSession

open Bytes (ascii)

/-! ## Replaying emissions -/

def Emission.replay (keys : List Bytes) (emission : Emission) : List Bytes :=
  match emission.change with
  | .add => keys ++ [emission.item.key]
  | .remove => keys.erase emission.item.key

def replay (emissions : List Emission) : List Bytes := emissions.foldl Emission.replay []

/-- The changes of one key, in order. -/
def changesOf (emissions : List Emission) (key : Bytes) : List Change :=
  (emissions.filter fun emission => emission.item.key == key).map (·.change)

/-- Additions and removals take turns, and an addition is first. -/
def Alternating (changes : List Change) : Prop :=
  ∀ i change, changes[i]? = some change → change = if i % 2 = 0 then .add else .remove

/-- The count of an item when the emission of its change starts. -/
def countAtStart : Change → Nat
  | .add => 1
  | .remove => 0

theorem Alternating.append {changes : List Change} (h : Alternating changes) {change : Change}
    (hc : change = if changes.length % 2 = 0 then .add else .remove) :
    Alternating (changes ++ [change]) := by
  intro i other hi
  by_cases hlt : i < changes.length
  · rw [List.getElem?_append_left hlt] at hi
    exact h i other hi
  · rw [List.getElem?_append_right (Nat.le_of_not_lt hlt)] at hi
    have hzero : i - changes.length = 0 := by
      have hbound := (List.getElem?_eq_some_iff.mp hi).1
      rw [List.length_singleton] at hbound
      omega
    have hlength : i = changes.length := by omega
    rw [hzero] at hi
    rw [hlength, ← hc]
    exact (Option.some.inj hi).symm

/-! ## One act -/

theorem replay_append (emissions : List Emission) (emission : Emission) :
    replay (emissions ++ [emission]) = emission.replay (replay emissions) := List.foldl_append

theorem changesOf_append (emissions : List Emission) (emission : Emission) (key : Bytes) :
    changesOf (emissions ++ [emission]) key = changesOf emissions key ++
      if emission.item.key = key then [emission.change] else [] := by
  unfold changesOf
  by_cases hk : emission.item.key = key
  · simp [hk]
  · simp [hk]

/-- Which keys are there after a change of one of them. -/
theorem Emission.mem_replay {keys : List Bytes} (h : keys.Nodup) (emission : Emission)
    (key : Bytes) : key ∈ emission.replay keys ↔
      if emission.item.key = key then emission.change = .add else key ∈ keys := by
  obtain ⟨change, item, count⟩ := emission
  cases change with
  | add =>
    simp only [replay, List.mem_append, List.mem_singleton, eq_comm (a := key)]
    by_cases he : item.key = key
    · simp [he]
    · simp [he]
  | remove =>
    simp only [replay, h.mem_erase_iff, ne_eq, eq_comm (a := key)]
    by_cases he : item.key = key
    · simp [he]
    · simp [he]

/-- The emissions rebuild the keys of the cache. -/
structure Rebuilt (cache : Cache Item) (emissions : List Emission) : Prop where
  sound : cache.Sound
  keys : replay emissions = cache.keys
  alternating : ∀ key, Alternating (changesOf emissions key)
  parity : ∀ key, (changesOf emissions key).length % 2 = if key ∈ cache.keys then 1 else 0
  count : ∀ emission ∈ emissions, emission.count = countAtStart emission.change

namespace Rebuilt

variable {cache after : Cache Item} {emissions : List Emission}

theorem start : Rebuilt .empty [] where
  sound := Cache.sound_empty
  keys := rfl
  alternating _ _ _ h := by cases h
  parity _ := rfl
  count _ hm := absurd hm List.not_mem_nil

theorem untold (h : Rebuilt cache emissions) (hs : after.Sound) (hk : after.keys = cache.keys) :
    Rebuilt after emissions where
  sound := hs
  keys := h.keys.trans hk.symm
  alternating := h.alternating
  parity key := hk ▸ h.parity key
  count := h.count

/-- A key that is there goes next, and one that is not there comes. -/
theorem turn (h : Rebuilt cache emissions) {emission : Emission}
    (hp : emission.item.key ∈ cache.keys ↔ emission.change = .remove) : emission.change =
      if (changesOf emissions emission.item.key).length % 2 = 0 then .add else .remove := by
  have hparity := h.parity emission.item.key
  cases hc : emission.change with
  | add =>
    have hn : emission.item.key ∉ cache.keys := fun hm => by cases hc.symm.trans (hp.mp hm)
    rw [if_neg hn] at hparity
    rw [if_pos hparity]
  | remove =>
    rw [if_pos (hp.mpr hc)] at hparity
    rw [if_neg (by omega)]

theorem parity_told (h : Rebuilt cache emissions) {emission : Emission}
    (hturn : emission.change =
      if (changesOf emissions emission.item.key).length % 2 = 0 then .add else .remove)
    (key : Bytes) : (changesOf (emissions ++ [emission]) key).length % 2 =
      if key ∈ emission.replay cache.keys then 1 else 0 := by
  have hparity := h.parity key
  rw [changesOf_append]
  simp only [emission.mem_replay h.sound.nodup]
  by_cases he : emission.item.key = key
  · rw [he] at hturn
    simp only [if_pos he, List.length_append, List.length_singleton, hturn]
    by_cases hz : (changesOf emissions key).length % 2 = 0
    · rw [if_pos hz, if_pos rfl]
      omega
    · rw [if_neg hz, if_neg Change.noConfusion]
      omega
  · simpa only [if_neg he, List.append_nil] using hparity

/-- A change of presence that is told when it is made. -/
theorem told (h : Rebuilt cache emissions) (hs : after.Sound) {emission : Emission}
    (hk : after.keys = emission.replay cache.keys)
    (hp : emission.item.key ∈ cache.keys ↔ emission.change = .remove)
    (hc : emission.count = countAtStart emission.change) :
    Rebuilt after (emissions ++ [emission]) where
  sound := hs
  keys := by rw [replay_append, h.keys, hk]
  alternating key := by
    rw [changesOf_append]
    split
    · rename_i he
      obtain rfl := he
      exact (h.alternating _).append (h.turn hp)
    · rw [List.append_nil]
      exact h.alternating key
  parity key := by
    rw [hk]
    exact h.parity_told (h.turn hp) key
  count told hm := by
    rcases List.mem_append.mp hm with hm | hm
    · exact h.count told hm
    · rw [List.mem_singleton.mp hm]
      exact hc

theorem add (h : Rebuilt cache emissions) (item : Item) (present : Bool) :
    Rebuilt (cache.acquire item)
      (emissions ++ ((Act.add item present).emission? cache).toList) := by
  have hkeys : (cache.acquire item).keys =
      if cache.contains item.key = true then cache.keys else cache.keys ++ [item.key] :=
    Cache.keys_acquire cache item
  have hs := h.sound.acquire item
  rw [Act.emission?]
  by_cases hc : cache.contains item.key = true
  · rw [if_pos hc] at hkeys ⊢
    rw [Option.toList_none, List.append_nil]
    exact h.untold hs hkeys
  · rw [if_neg hc] at hkeys ⊢
    refine h.told hs hkeys ?_ ?_
    · rw [← Cache.contains_iff_mem]
      simp [hc]
    · have hzero := Cache.count_eq_zero (Bool.eq_false_iff.mpr hc)
      have hk : Keyed.key item = item.key := rfl
      simp [Cache.count_acquire, hzero, hk, countAtStart]

theorem remove (h : Rebuilt cache emissions) (key : Bytes) (present : Bool) :
    Rebuilt (cache.release key)
      (emissions ++ ((Act.remove key present).emission? cache).toList) := by
  have hkeys := cache.keys_release key
  have hs := h.sound.release key
  rw [Act.emission?]
  cases he : cache.evicted? key with
  | none =>
    rw [he] at hkeys
    rw [Option.map_none, Option.toList_none, List.append_nil]
    exact h.untold hs hkeys
  | some item =>
    rw [he] at hkeys
    obtain ⟨entry, hf, hle, rfl⟩ := Cache.evicted?_eq_some he
    have hitem : entry.item.key = key := h.sound.key_of_item? (by rw [Cache.item?, hf]; rfl)
    refine h.told hs ?_ ?_ ?_
    · rw [hkeys, Emission.replay, hitem]
      rfl
    · rw [hitem, ← Cache.contains_iff_mem, Cache.contains, hf]
      simp
    · have hcount : (cache.release key).count entry.item.key = 0 := by
        rw [hitem, h.sound.count_release, if_pos rfl, Cache.count, hf]
        exact Nat.sub_eq_zero_of_le hle
      exact hcount

end Rebuilt

/-! ## All acts -/

namespace Trace

variable {run : Run} {acts : List Act} {emissions : List Emission}

theorem rebuilt (h : Trace run acts emissions) : Rebuilt run.state.cache emissions :=
  h.invariant (fun cache _ emissions => Rebuilt cache emissions) .start
    (fun _ _ _ item hr => hr.add item _) fun _ _ _ key hr => hr.remove key _

/-- **What is told rebuilds what is there.** At every moment of every trace the
emissions that have started, replayed in that order from the empty list, give
the keys of the cache in order. The emissions of one key are an addition, a
removal, an addition and so on, and each starts when the count of its item is
one, for an addition, or zero. -/
theorem replay_eq_keys (h : Trace run acts emissions) :
    replay emissions = run.state.cache.items.map Item.key ∧
    (∀ key, Alternating (changesOf emissions key)) ∧
    (∀ emission ∈ emissions, emission.count = countAtStart emission.change) := by
  have hr := h.rebuilt
  refine ⟨?_, hr.alternating, hr.count⟩
  rw [hr.keys]
  exact hr.sound.map_key_items.symm

theorem replay_of_swapper :
    let listening := (State.initial.run (.listen swapper)).1
    let begun := listening.start (.add ⟨ascii "a", ascii "1"⟩)
    (begun.openings begun.bound).length = 3 ∧
      replay (begun.openings begun.bound) = [ascii "b"] := by
  have hlisten := start.session rfl (.listen swapper)
  have hadd := hlisten.1.session rfl (.add ⟨ascii "a", ascii "1"⟩)
  -- to subscribe makes nothing known
  have hsilent : (State.initial.start (.listen swapper)).openings
      (State.initial.start (.listen swapper)).bound = [] := by decide +kernel
  have hreplay := (replay_eq_keys hadd.1).1
  rw [List.nil_append, hsilent, List.nil_append] at hreplay
  exact ⟨by decide +kernel, hreplay.trans (by decide +kernel)⟩

end Trace
end StyleRegistry.CacheSession
