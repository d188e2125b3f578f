import StyleRegistry.Proofs.Cache.Trace

/-! # What a cache remembers

At every moment of every trace the cache says what was done so far, as far as
it matters. The count of a key is the number of its additions less the number
of the removals that found it present. The items that are listed are those
whose key is present, each once, in the order in which their keys became
present for the last time, and each is the item of the addition that did so. -/
namespace StyleRegistry.CacheSession

open Bytes (ascii)

/-! ## Counting acts -/

def additions (acts : List Act) (key : Bytes) : Nat :=
  acts.countP fun
    | .add item _ => item.key == key
    | .remove _ _ => false

/-- The removals that found the key present. -/
def removals (acts : List Act) (key : Bytes) : Nat := acts.count (.remove key true)

theorem additions_append (acts : List Act) (act : Act) (key : Bytes) :
    additions (acts ++ [act]) key = additions acts key + additions [act] key := List.countP_append

theorem removals_append (acts : List Act) (act : Act) (key : Bytes) :
    removals (acts ++ [act]) key = removals acts key + removals [act] key := List.count_append

/-! ## Arrivals -/

/-- At this time the item's key became present, for the last time, by the
addition of the item. -/
structure Arrival (acts : List Act) (item : Item) (time : Nat) : Prop where
  arrived : acts[time]? = some (.add item false)
  last : ∀ later other, time < later → acts[later]? = some (.add other false) →
    other.key ≠ item.key

namespace Arrival

variable {acts : List Act} {act : Act} {item : Item} {time : Nat}

theorem lt_length (h : Arrival acts item time) : time < acts.length :=
  (List.getElem?_eq_some_iff.mp h.arrived).1

/-- An act changes nothing about the arrival of another key. -/
theorem append_iff (hn : ∀ other, act = .add other false → other.key ≠ item.key) :
    Arrival (acts ++ [act]) item time ↔ Arrival acts item time := by
  have hold (i : Nat) (other : Item) (hi : i < acts.length) :
      (acts ++ [act])[i]? = some (.add other false) ↔ acts[i]? = some (.add other false) := by
    rw [List.getElem?_append_left hi]
  constructor
  · intro h
    have ht : time < acts.length := by
      by_contra hle
      have harrived := h.arrived
      rw [List.getElem?_append_right (Nat.le_of_not_lt hle)] at harrived
      exact hn item (List.mem_singleton.mp (List.mem_of_getElem? harrived)).symm rfl
    refine ⟨(hold time item ht).mp h.arrived, fun later other hlt hl => ?_⟩
    have hlater := (List.getElem?_eq_some_iff.mp hl).1
    exact h.last later other hlt ((hold later other hlater).mpr hl)
  · intro h
    refine ⟨(hold time item h.lt_length).mpr h.arrived, fun later other hlt hl => ?_⟩
    by_cases hlater : later < acts.length
    · exact h.last later other hlt ((hold later other hlater).mp hl)
    · rw [List.getElem?_append_right (Nat.le_of_not_lt hlater)] at hl
      exact hn other (List.mem_singleton.mp (List.mem_of_getElem? hl)).symm

/-- What arrives arrives now. -/
theorem of_fresh : Arrival (acts ++ [.add item false]) item time ↔ time = acts.length := by
  constructor
  · intro h
    by_contra hne
    have hlt : time < acts.length := by
      have hle := h.lt_length
      rw [List.length_append, List.length_singleton] at hle
      omega
    exact h.last acts.length item hlt (by simp) rfl
  · rintro rfl
    refine ⟨by simp, fun later other hlt hl => ?_⟩
    have hle := (List.getElem?_eq_some_iff.mp hl).1
    rw [List.length_append, List.length_singleton] at hle
    omega

end Arrival

/-! ## One act -/

/-- The cache says what was done. -/
structure Recorded (cache : Cache Item) (acts : List Act) : Prop where
  sound : cache.Sound
  count : ∀ key, cache.count key + removals acts key = additions acts key
  arrived : ∀ item ∈ cache.items, ∃ time, Arrival acts item time
  ordered : cache.items.Pairwise fun a b => ∀ s t, Arrival acts a s → Arrival acts b t → s < t

namespace Recorded

variable {cache : Cache Item} {acts : List Act}

theorem start : Recorded .empty [] where
  sound := Cache.sound_empty
  count _ := rfl
  arrived _ hm := absurd hm List.not_mem_nil
  ordered := .nil

/-- An act by which nothing arrives leaves the arrivals of what stays. -/
theorem arrivals_of_sublist (h : Recorded cache acts) {after : Cache Item} (act : Act)
    (hs : after.items.Sublist cache.items) (ha : ∀ other, act ≠ .add other false) :
    (∀ item ∈ after.items, ∃ time, Arrival (acts ++ [act]) item time) ∧
      after.items.Pairwise fun a b =>
        ∀ s t, Arrival (acts ++ [act]) a s → Arrival (acts ++ [act]) b t → s < t := by
  have hsame (item : Item) (time : Nat) :
      Arrival (acts ++ [act]) item time ↔ Arrival acts item time :=
    Arrival.append_iff fun other ho => absurd ho (ha other)
  simp only [hsame]
  exact ⟨fun item hm => h.arrived item (hs.subset hm), h.ordered.sublist hs⟩

/-- What arrives does so after all that is there. -/
theorem arrivals_of_fresh (h : Recorded cache acts) {item : Item}
    (hc : cache.contains item.key = false) :
    let acts' := acts ++ [.add item false]
    (∀ stored ∈ cache.items ++ [item], ∃ time, Arrival acts' stored time) ∧
      (cache.items ++ [item]).Pairwise fun a b =>
        ∀ s t, Arrival acts' a s → Arrival acts' b t → s < t := by
  intro acts'
  have hold (old : Item) (hm : old ∈ cache.items) (time : Nat) :
      Arrival acts' old time ↔ Arrival acts old time := by
    refine Arrival.append_iff ?_
    rintro other ho hk
    cases ho
    have hmem : old.key ∈ cache.keys := by
      rw [← h.sound.map_key_items]
      exact List.mem_map_of_mem hm
    rw [← hk, ← Cache.contains_iff_mem, hc] at hmem
    cases hmem
  refine ⟨fun stored hm => ?_, List.pairwise_append.mpr ⟨?_, List.pairwise_singleton _ _, ?_⟩⟩
  · rcases List.mem_append.mp hm with hm | hm
    · obtain ⟨time, ht⟩ := h.arrived stored hm
      exact ⟨time, (hold stored hm time).mpr ht⟩
    · rw [List.mem_singleton.mp hm]
      exact ⟨acts.length, Arrival.of_fresh.mpr rfl⟩
  · refine h.ordered.imp_of_mem fun {a b} ha hb hab s t hs ht => ?_
    exact hab s t ((hold a ha s).mp hs) ((hold b hb t).mp ht)
  · intro a ha b hb s t hs ht
    rw [List.mem_singleton.mp hb] at ht
    rw [Arrival.of_fresh.mp ht]
    exact ((hold a ha s).mp hs).lt_length

theorem count_add (h : Recorded cache acts) (item : Item) (key : Bytes) :
    let acts' := acts ++ [.add item (cache.contains item.key)]
    (cache.acquire item).count key + removals acts' key = additions acts' key := by
  intro acts'
  have hk : Keyed.key item = item.key := rfl
  rw [Cache.count_acquire, removals_append, additions_append, ← h.count key, hk]
  by_cases he : key = item.key
  · subst he
    simp [removals, additions]
    omega
  · have hne : (item.key == key) = false := by simpa using Ne.symm he
    simp [removals, additions, he, hne]

theorem add (h : Recorded cache acts) (item : Item) :
    Recorded (cache.acquire item) (acts ++ [.add item (cache.contains item.key)]) := by
  have hcount := h.count_add item
  have hitems : (cache.acquire item).items = if cache.contains item.key = true then cache.items
      else cache.items ++ [item] := Cache.items_acquire cache item
  cases hc : cache.contains item.key with
  | true =>
    rw [hc] at hcount
    rw [if_pos hc] at hitems
    have hsub : (cache.acquire item).items.Sublist cache.items := by rw [hitems]
    obtain ⟨harrived, hordered⟩ := h.arrivals_of_sublist (.add item true) hsub (by simp)
    exact ⟨h.sound.acquire item, hcount, harrived, hordered⟩
  | false =>
    rw [hc] at hcount
    rw [hc, if_neg Bool.false_ne_true] at hitems
    obtain ⟨harrived, hordered⟩ := h.arrivals_of_fresh hc
    rw [← hitems] at harrived hordered
    exact ⟨h.sound.acquire item, hcount, harrived, hordered⟩

theorem remove (h : Recorded cache acts) (key : Bytes) :
    Recorded (cache.release key) (acts ++ [.remove key (cache.contains key)]) := by
  obtain ⟨harrived, hordered⟩ := h.arrivals_of_sublist (.remove key (cache.contains key))
    (cache.items_release_sublist key) (by simp)
  refine ⟨h.sound.release key, fun k => ?_, harrived, hordered⟩
  have hcount := h.count k
  rw [h.sound.count_release, removals_append, additions_append]
  by_cases hk : k = key
  · subst hk
    cases hc : cache.contains k with
    | true =>
      have hpos := (h.sound.contains_iff k).mp hc
      simp [removals, additions] at hcount ⊢
      omega
    | false =>
      have hzero := Cache.count_eq_zero hc
      simp [removals, additions, hzero] at hcount ⊢
      omega
  · have hne : ¬ key = k := Ne.symm hk
    simpa [removals, additions, hk, hne] using hcount

end Recorded

/-! ## All acts -/

namespace Trace

variable {run : Run} {acts : List Act} {emissions : List Emission}

theorem recorded (h : Trace run acts emissions) : Recorded run.state.cache acts :=
  h.invariant (fun cache acts _ => Recorded cache acts) .start
    (fun _ _ _ item hr => hr.add item) fun _ _ _ key hr => hr.remove key

/-- **The cache says what was done.** At every moment of every trace, also in
the middle of calls and after an exception: no key is there twice and none
without a reference; the items are listed once each, and a look-up finds what
is listed; an item is listed after those whose keys became present before its
own did, for the last time each, and it is the item that was added then; and a
key's count is the number of its additions less the number of the removals
that found it. -/
theorem history (h : Trace run acts emissions) :
    let cache := run.state.cache
    cache.keys.Nodup ∧ (∀ entry ∈ cache.entries, 0 < entry.count) ∧
    cache.items.map Item.key = cache.keys ∧
    (∀ key item, cache.item? key = some item ↔ item ∈ cache.items ∧ item.key = key) ∧
    (∀ item ∈ cache.items, ∃ time, Arrival acts item time) ∧
    (cache.items.Pairwise fun a b => ∀ s t, Arrival acts a s → Arrival acts b t → s < t) ∧
    (∀ key, removals acts key ≤ additions acts key ∧
      cache.count key = additions acts key - removals acts key) := by
  intro cache
  have hr := h.recorded
  refine ⟨hr.sound.nodup, hr.sound.count_pos, hr.sound.map_key_items,
    fun key item => hr.sound.item?_eq_some_iff, hr.arrived, hr.ordered, fun key => ?_⟩
  have hcount := hr.count key
  change cache.count key + _ = _ at hcount
  omega

theorem history_of_swapper :
    let listening := (State.initial.run (.listen swapper)).1
    let last := (listening.run (.add ⟨ascii "a", ascii "1"⟩)).1
    last.cache.count (ascii "a") = 0 ∧ last.cache.count (ascii "b") = 1 := by
  have hlisten := start.session rfl (.listen swapper)
  have hadd := hlisten.1.session rfl (.add ⟨ascii "a", ascii "1"⟩)
  have hcount := (history hadd.1).2.2.2.2.2.2
  exact ⟨(hcount (ascii "a")).2.trans (by decide +kernel),
    (hcount (ascii "b")).2.trans (by decide +kernel)⟩

end Trace
end StyleRegistry.CacheSession
