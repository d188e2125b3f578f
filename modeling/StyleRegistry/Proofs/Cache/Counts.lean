import Mathlib.Data.List.Nodup
import Mathlib.Tactic.ByContra
import StyleRegistry.Cache.Basic

/-! # Counts in a cache

What taking and giving back a reference does to the entries of a cache, seen
key by key. In a sound cache, where every entry has a key and references of
its own, giving back undoes taking exactly, and what is given back counts
down to zero. -/
namespace StyleRegistry.Cache

variable {α : Type}

/-- Keys are unique, every item stands under its own key, and every entry is
referred to. -/
structure Sound [Keyed α] (cache : Cache α) : Prop where
  nodup : cache.keys.Nodup
  key_eq : ∀ entry ∈ cache.entries, entry.key = Keyed.key entry.item
  count_pos : ∀ entry ∈ cache.entries, 0 < entry.count

theorem sound_empty [Keyed α] : Sound (empty : Cache α) :=
  ⟨by simp [keys, empty], by simp [empty], by simp [empty]⟩

@[simp] theorem find?_empty (key : Bytes) : (empty : Cache α).find? key = none := rfl
@[simp] theorem item?_empty (key : Bytes) : (empty : Cache α).item? key = none := rfl
@[simp] theorem count_empty (key : Bytes) : (empty : Cache α).count key = 0 := rfl
@[simp] theorem contains_empty (key : Bytes) : (empty : Cache α).contains key = false := rfl

theorem key_of_find? {cache : Cache α} {key : Bytes} {entry : Entry α}
    (h : cache.find? key = some entry) : entry.key = key := by
  simpa using List.find?_some h

theorem mem_of_find? {cache : Cache α} {key : Bytes} {entry : Entry α}
    (h : cache.find? key = some entry) : entry ∈ cache.entries := List.mem_of_find?_eq_some h

theorem find?_eq_none_iff {cache : Cache α} {key : Bytes} :
    cache.find? key = none ↔ key ∉ cache.keys := by
  simp only [find?, List.find?_eq_none, beq_iff_eq, keys, List.mem_map, not_exists, not_and]

theorem contains_iff_mem {cache : Cache α} {key : Bytes} :
    cache.contains key = true ↔ key ∈ cache.keys := by
  rw [← not_iff_not, ← find?_eq_none_iff, contains]
  cases cache.find? key <;> simp

theorem item?_isSome (cache : Cache α) (key : Bytes) :
    (cache.item? key).isSome = cache.contains key := by simp [item?, contains]

/-- What a release evicts is the item of the last reference. -/
theorem evicted?_eq_some {cache : Cache α} {key : Bytes} {item : α}
    (h : cache.evicted? key = some item) :
    ∃ entry, cache.find? key = some entry ∧ entry.count ≤ 1 ∧ entry.item = item := by
  unfold evicted? at h
  split at h
  · rename_i entry he
    split at h
    · rename_i hc
      exact ⟨entry, he, hc, Option.some.inj h⟩
    · cases h
  · cases h

theorem count_eq_zero {cache : Cache α} {key : Bytes} (h : cache.contains key = false) :
    cache.count key = 0 := by
  simp only [contains, Option.isSome_eq_false_iff, Option.isNone_iff_eq_none] at h
  simp [count, h]

namespace Sound

variable [Keyed α] {cache : Cache α}

/-- An entry is there exactly while it is referred to. -/
theorem contains_iff (h : cache.Sound) (key : Bytes) :
    cache.contains key = true ↔ 0 < cache.count key := by
  constructor
  · intro hc
    obtain ⟨entry, he⟩ := Option.isSome_iff_exists.mp hc
    simpa [count, he] using h.count_pos entry (mem_of_find? he)
  · intro hp
    by_contra hc
    rw [count_eq_zero (by simpa using hc)] at hp
    exact Nat.lt_irrefl 0 hp

theorem key_of_item? (h : cache.Sound) {key : Bytes} {item : α}
    (hi : cache.item? key = some item) : Keyed.key item = key := by
  obtain ⟨entry, he, rfl⟩ := Option.map_eq_some_iff.mp hi
  rw [← h.key_eq entry (mem_of_find? he), key_of_find? he]

end Sound

/-! ## Changing one entry -/

section Update

variable {key : Bytes} {change : Entry α → Entry α}

theorem find?_updateEntry (hk : ∀ entry, (change entry).key = entry.key) (k : Bytes)
    (entries : List (Entry α)) :
    (updateEntry key change entries).find? (fun entry => entry.key == k) =
      if k = key then (entries.find? fun entry => entry.key == k).map change
      else entries.find? fun entry => entry.key == k := by
  induction entries with
  | nil => simp [updateEntry]
  | cons entry rest ih =>
    unfold updateEntry
    by_cases he : entry.key = key
    · rw [if_pos he, List.find?_cons, List.find?_cons, hk, he]
      by_cases hkey : k = key
      · simp [hkey]
      · have hb : (key == k) = false := by simpa using Ne.symm hkey
        simp [hkey, hb]
    · rw [if_neg he, List.find?_cons, List.find?_cons, ih]
      by_cases hkey : k = key
      · have hb : (entry.key == key) = false := by simpa using he
        simp [hkey, hb]
      · simp [hkey]

theorem find?_update (hk : ∀ entry, (change entry).key = entry.key) (cache : Cache α) (k : Bytes) :
    (cache.update key change).find? k =
      if k = key then (cache.find? k).map change else cache.find? k :=
  find?_updateEntry hk k cache.entries

theorem map_updateEntry {β : Type} (view : Entry α → β)
    (hv : ∀ entry, view (change entry) = view entry) (entries : List (Entry α)) :
    (updateEntry key change entries).map view = entries.map view := by
  induction entries with
  | nil => rfl
  | cons entry rest ih =>
    unfold updateEntry
    split
    · simp [hv]
    · simp [ih]

theorem mem_updateEntry {entry : Entry α} {entries : List (Entry α)}
    (h : entry ∈ updateEntry key change entries) :
    entry ∈ entries ∨ ∃ old ∈ entries, old.key = key ∧ entry = change old := by
  induction entries with
  | nil => exact absurd h List.not_mem_nil
  | cons first rest ih =>
    unfold updateEntry at h
    split at h
    · rename_i hk
      rcases List.mem_cons.mp h with rfl | h
      · exact .inr ⟨first, by simp, hk, rfl⟩
      · exact .inl (List.mem_cons_of_mem _ h)
    · rcases List.mem_cons.mp h with rfl | h
      · exact .inl (by simp)
      · rcases ih h with h | ⟨old, ho, hk, he⟩
        · exact .inl (List.mem_cons_of_mem _ h)
        · exact .inr ⟨old, List.mem_cons_of_mem _ ho, hk, he⟩

theorem updateEntry_updateEntry (other : Entry α → Entry α)
    (hk : ∀ entry, (change entry).key = entry.key) (entries : List (Entry α)) :
    updateEntry key other (updateEntry key change entries) =
      updateEntry key (fun entry => other (change entry)) entries := by
  induction entries with
  | nil => rfl
  | cons entry rest ih =>
    by_cases he : entry.key = key
    · simp [updateEntry, he, hk]
    · simp [updateEntry, he, ih]

theorem updateEntry_comm {other : Bytes} {alter : Entry α → Entry α} (hne : key ≠ other)
    (hk : ∀ entry, (change entry).key = entry.key) (ha : ∀ entry, (alter entry).key = entry.key)
    (entries : List (Entry α)) :
    updateEntry key change (updateEntry other alter entries) =
      updateEntry other alter (updateEntry key change entries) := by
  induction entries with
  | nil => rfl
  | cons entry rest ih =>
    by_cases he : entry.key = key
    · have ho : entry.key ≠ other := he ▸ hne
      simp [updateEntry, he, hk, hne]
    · by_cases ho : entry.key = other
      · simp [updateEntry, ho, ha, Ne.symm hne]
      · simp [updateEntry, he, ho, ih]

/-- A change that leaves the entry of the key as it is leaves all as it is. -/
theorem updateEntry_self {entries : List (Entry α)}
    (h : ∀ entry, (entries.find? fun entry => entry.key == key) = some entry →
      change entry = entry) :
    updateEntry key change entries = entries := by
  induction entries with
  | nil => rfl
  | cons entry rest ih =>
    by_cases he : entry.key = key
    · have hs : change entry = entry := h entry (by simp [he])
      simp [updateEntry, he, hs]
    · rw [updateEntry, if_neg he, ih]
      intro found hf
      exact h found (by simpa [he] using hf)

end Update

/-- Sound changes of the entries under one key. -/
theorem Sound.update [Keyed α] {cache : Cache α} {key : Bytes} {change : Entry α → Entry α}
    (h : cache.Sound) (hk : ∀ entry, (change entry).key = entry.key)
    (hi : ∀ entry, Keyed.key (change entry).item = Keyed.key entry.item)
    (hp : ∀ entry ∈ cache.entries, entry.key = key → 0 < (change entry).count) :
    (cache.update key change).Sound := by
  refine ⟨?_, ?_, ?_⟩
  · rw [keys, Cache.update, map_updateEntry _ hk]
    exact h.nodup
  · intro entry he
    rcases mem_updateEntry he with he | ⟨old, ho, -, rfl⟩
    · exact h.key_eq entry he
    · rw [hk, hi, h.key_eq old ho]
  · intro entry he
    rcases mem_updateEntry he with he | ⟨old, ho, hkey, rfl⟩
    · exact h.count_pos entry he
    · exact hp old ho hkey

section UpdateItem

variable (cache : Cache α) (key k : Bytes) (change : α → α)

theorem find?_updateItem : (cache.updateItem key change).find? k =
    if k = key then (cache.find? k).map fun entry => { entry with item := change entry.item }
    else cache.find? k := by
  rw [updateItem, find?_update]
  exact fun _ => rfl

theorem item?_updateItem : (cache.updateItem key change).item? k =
    if k = key then (cache.item? k).map change else cache.item? k := by
  simp only [item?, find?_updateItem]
  split <;> simp [Option.map_map, Function.comp_def]

@[simp] theorem count_updateItem : (cache.updateItem key change).count k = cache.count k := by
  simp only [count, find?_updateItem]
  split <;> simp [Option.map_map, Function.comp_def]

@[simp] theorem contains_updateItem :
    (cache.updateItem key change).contains k = cache.contains k := by
  simp only [contains, find?_updateItem]
  split <;> simp

@[simp] theorem keys_updateItem : (cache.updateItem key change).keys = cache.keys := by
  rw [keys, updateItem, Cache.update, map_updateEntry, keys]
  exact fun _ => rfl

theorem Sound.updateItem [Keyed α] {cache : Cache α} (h : cache.Sound)
    (hc : ∀ item, Keyed.key (change item) = Keyed.key item) :
    (cache.updateItem key change).Sound :=
  h.update (fun _ => rfl) (fun entry => hc entry.item) fun entry he _ => h.count_pos entry he

theorem updateItem_updateItem (other : α → α) :
    (cache.updateItem key change).updateItem key other =
      cache.updateItem key fun item => other (change item) := by
  unfold Cache.updateItem Cache.update
  rw [updateEntry_updateEntry]
  exact fun _ => rfl

theorem updateItem_comm {other : Bytes} {alter : α → α}
    (h : key = other → ∀ item, change (alter item) = alter (change item)) :
    (cache.updateItem other alter).updateItem key change =
      (cache.updateItem key change).updateItem other alter := by
  by_cases hk : key = other
  · subst hk
    rw [updateItem_updateItem, updateItem_updateItem]
    congr 1
    funext item
    exact h rfl item
  · unfold Cache.updateItem Cache.update
    rw [updateEntry_comm hk]
    · exact fun _ => rfl
    · exact fun _ => rfl

theorem updateItem_self (h : ∀ item, cache.item? key = some item → change item = item) :
    cache.updateItem key change = cache := by
  rw [Cache.updateItem, Cache.update, updateEntry_self]
  intro entry he
  rw [h entry.item (by simp [item?, find?, he])]

end UpdateItem

/-! ## Taking a reference -/

theorem find?_append_entry (cache : Cache α) (entry : Entry α) (k : Bytes) :
    (⟨cache.entries ++ [entry]⟩ : Cache α).find? k =
      (cache.find? k).or (if k = entry.key then some entry else none) := by
  simp only [find?, List.find?_append]
  by_cases h : k = entry.key
  · simp [h]
  · have hb : (entry.key == k) = false := by simpa using Ne.symm h
    simp [h, hb]

section Acquire

variable [Keyed α] (cache : Cache α) (item : α) (k : Bytes)

theorem find?_acquire : (cache.acquire item).find? k =
    if k = Keyed.key item then
      some (((cache.find? k).map fun entry => { entry with count := entry.count + 1 }).getD
        ⟨k, item, 1⟩)
    else cache.find? k := by
  by_cases hc : cache.contains (Keyed.key item) = true
  · obtain ⟨entry, he⟩ := Option.isSome_iff_exists.mp hc
    rw [acquire, if_pos hc, find?_update]
    · by_cases hk : k = Keyed.key item
      · simp [hk, he]
      · simp [hk]
    · exact fun _ => rfl
  · have hn : cache.find? (Keyed.key item) = none := by simpa [contains] using hc
    rw [acquire, if_neg hc, find?_append_entry]
    by_cases hk : k = Keyed.key item
    · simp [hk, hn]
    · simp [hk]

@[simp] theorem count_acquire : (cache.acquire item).count k =
    cache.count k + if k = Keyed.key item then 1 else 0 := by
  rw [count, find?_acquire, count]
  split
  · cases cache.find? k <;> simp
  · simp

/-- A stored item stays; the new one is stored under an absent key. -/
theorem item?_acquire : (cache.acquire item).item? k =
    (cache.item? k).or (if k = Keyed.key item then some item else none) := by
  rw [item?, find?_acquire, item?]
  split
  · cases cache.find? k <;> simp
  · simp

theorem Sound.acquire {cache : Cache α} (h : cache.Sound) : (cache.acquire item).Sound := by
  by_cases hc : cache.contains (Keyed.key item) = true
  · rw [Cache.acquire, if_pos hc]
    exact h.update (fun _ => rfl) (fun _ => rfl) fun _ _ _ => Nat.succ_pos _
  · have hn : Keyed.key item ∉ cache.keys := fun hm => hc (contains_iff_mem.mpr hm)
    rw [Cache.acquire, if_neg hc]
    refine ⟨?_, ?_, ?_⟩
    · rw [keys, List.map_append, List.nodup_append]
      refine ⟨h.nodup, by simp, ?_⟩
      intro a ha b hb hab
      simp only [List.map_cons, List.map_nil, List.mem_singleton] at hb
      exact hn (hb ▸ hab ▸ ha)
    · intro entry he
      rcases List.mem_append.mp he with he | he
      · exact h.key_eq entry he
      · rw [List.mem_singleton.mp he]
    · intro entry he
      rcases List.mem_append.mp he with he | he
      · exact h.count_pos entry he
      · rw [List.mem_singleton.mp he]
        exact Nat.one_pos

end Acquire

/-! ## Giving a reference back -/

/-- The entries after one reference to a key is given back, in one pass. -/
def released (key : Bytes) : List (Entry α) → List (Entry α)
  | [] => []
  | entry :: rest =>
    if entry.key = key then
      if entry.count ≤ 1 then rest else { entry with count := entry.count - 1 } :: rest
    else entry :: released key rest

theorem released_eq (key : Bytes) (entries : List (Entry α)) :
    released key entries =
      if (evicted? ⟨entries⟩ key).isSome then entries.eraseP fun entry => entry.key == key
      else updateEntry key (fun entry => { entry with count := entry.count - 1 }) entries := by
  induction entries with
  | nil => rfl
  | cons entry rest ih =>
    by_cases he : entry.key = key
    · by_cases hc : entry.count ≤ 1
      · simp [released, evicted?, find?, he, hc]
      · simp [released, evicted?, find?, updateEntry, he, hc]
    · have hb : (entry.key == key) = false := by simpa using he
      have hv : evicted? ⟨entry :: rest⟩ key = evicted? ⟨rest⟩ key := by
        simp [evicted?, find?, hb]
      rw [released, if_neg he, ih, hv]
      split
      · simp [hb]
      · simp [updateEntry, he]

theorem release_eq (cache : Cache α) (key : Bytes) :
    cache.release key = ⟨released key cache.entries⟩ := by
  rw [released_eq, release]
  split <;> rfl

theorem released_sublist (key : Bytes) (entries : List (Entry α)) :
    ((released key entries).map (·.key)).Sublist (entries.map (·.key)) := by
  induction entries with
  | nil => exact .slnil
  | cons entry rest ih =>
    unfold released
    split
    · split
      · exact .cons _ (.refl _)
      · exact .refl _
    · exact ih.cons_cons _

theorem mem_released {key : Bytes} {entry : Entry α} {entries : List (Entry α)}
    (h : entry ∈ released key entries) :
    ∃ old ∈ entries, entry.key = old.key ∧ entry.item = old.item ∧
      (entry.count = old.count ∨ 1 < old.count ∧ entry.count = old.count - 1) := by
  induction entries with
  | nil => exact absurd h List.not_mem_nil
  | cons first rest ih =>
    unfold released at h
    split at h
    · split at h
      · exact ⟨entry, List.mem_cons_of_mem _ h, rfl, rfl, .inl rfl⟩
      · rename_i hc
        rcases List.mem_cons.mp h with rfl | h
        · exact ⟨first, by simp, rfl, rfl, .inr ⟨by omega, rfl⟩⟩
        · exact ⟨entry, List.mem_cons_of_mem _ h, rfl, rfl, .inl rfl⟩
    · rcases List.mem_cons.mp h with rfl | h
      · exact ⟨entry, by simp, rfl, rfl, .inl rfl⟩
      · obtain ⟨old, ho, he⟩ := ih h
        exact ⟨old, List.mem_cons_of_mem _ ho, he⟩

theorem find?_released {entries : List (Entry α)} (h : (entries.map (·.key)).Nodup)
    (key k : Bytes) :
    (released key entries).find? (fun entry => entry.key == k) =
      if k = key then
        ((entries.find? fun entry => entry.key == k).filter fun entry => 1 < entry.count).map
          fun entry => { entry with count := entry.count - 1 }
      else entries.find? fun entry => entry.key == k := by
  induction entries with
  | nil => simp [released]
  | cons entry rest ih =>
    obtain ⟨hn, ht⟩ := List.nodup_cons.mp h
    by_cases he : entry.key = key
    · have hr : rest.find? (fun entry => entry.key == key) = none := by
        simp only [List.find?_eq_none, beq_iff_eq]
        intro other ho hk
        exact hn (List.mem_map.mpr ⟨other, ho, hk.trans he.symm⟩)
      by_cases hk : k = key
      · by_cases hc : entry.count ≤ 1
        · simp [released, he, hk, hc, hr, Option.filter_some]
        · simp [released, he, hk, hc, Option.filter_some]
      · have hb : (key == k) = false := by simpa using Ne.symm hk
        by_cases hc : entry.count ≤ 1
        · simp [released, he, hk, hc, hb]
        · simp [released, he, hk, hc, hb]
    · rw [released, if_neg he, List.find?_cons, List.find?_cons, ih ht]
      by_cases hk : k = key
      · have hb : (entry.key == key) = false := by simpa using he
        simp [hk, hb]
      · simp [hk]

theorem released_comm (key other : Bytes) (entries : List (Entry α)) :
    released key (released other entries) = released other (released key entries) := by
  induction entries with
  | nil => rfl
  | cons entry rest ih =>
    by_cases hko : key = other
    · rw [hko]
    · by_cases he : entry.key = key
      · have ho : entry.key ≠ other := he ▸ hko
        by_cases hc : entry.count ≤ 1
        · simp [released, he, hc, hko]
        · simp [released, he, hc, hko]
      · by_cases ho : entry.key = other
        · by_cases hc : entry.count ≤ 1
          · simp [released, ho, hc, Ne.symm hko]
          · simp [released, ho, hc, Ne.symm hko]
        · simp [released, he, ho, ih]

/-- The order of two releases does not matter. -/
theorem release_comm (cache : Cache α) (key other : Bytes) :
    (cache.release other).release key = (cache.release key).release other := by
  simp only [release_eq, released_comm]

namespace Sound

variable [Keyed α] {cache : Cache α}

theorem find?_release (h : cache.Sound) (key k : Bytes) :
    (cache.release key).find? k =
      if k = key then
        ((cache.find? k).filter fun entry => 1 < entry.count).map
          fun entry => { entry with count := entry.count - 1 }
      else cache.find? k := by
  rw [release_eq]
  exact find?_released h.nodup key k

theorem count_release (h : cache.Sound) (key k : Bytes) :
    (cache.release key).count k = cache.count k - if k = key then 1 else 0 := by
  rw [count, h.find?_release, count]
  split
  · cases hf : cache.find? k with
    | none => simp
    | some entry =>
      by_cases hc : 1 < entry.count
      · simp [hc, Option.filter_some]
      · simp [hc, Option.filter_some]
        omega
  · simp

/-- What is still there is the item that was there. -/
theorem item?_release (h : cache.Sound) (key k : Bytes) :
    (cache.release key).item? k =
      if (cache.release key).contains k then cache.item? k else none := by
  rw [contains, item?, h.find?_release, item?]
  split
  · cases hf : cache.find? k with
    | none => simp
    | some entry => by_cases hc : 1 < entry.count <;> simp [hc, Option.filter_some]
  · cases cache.find? k <;> simp

/-- What is evicted is gone. -/
theorem item?_release_of_evicted (h : cache.Sound) {key : Bytes} {item : α}
    (he : cache.evicted? key = some item) : (cache.release key).item? key = none := by
  rw [item?, h.find?_release, if_pos rfl]
  unfold evicted? at he
  cases hf : cache.find? key with
  | none => simp
  | some entry =>
    have hc : ¬ 1 < entry.count := by
      intro hc
      simp [hf, Nat.not_le.mpr hc] at he
    simp [Option.filter_some, hc]

theorem release (h : cache.Sound) (key : Bytes) : (cache.release key).Sound := by
  rw [release_eq]
  refine ⟨(released_sublist key _).nodup h.nodup, ?_, ?_⟩
  · intro entry he
    obtain ⟨old, ho, hk, hi, -⟩ := mem_released he
    rw [hk, hi, h.key_eq old ho]
  · intro entry he
    obtain ⟨old, ho, -, -, hc | ⟨hl, hc⟩⟩ := mem_released he
    · rw [hc]
      exact h.count_pos old ho
    · omega

end Sound

/-! ## Taking and giving back -/

section

variable [Keyed α] {cache : Cache α}

/-- The release of a reference just taken evicts the item it stored, if any. -/
theorem evicted?_acquire (h : cache.Sound) (item : α) :
    (cache.acquire item).evicted? (Keyed.key item) =
      if cache.contains (Keyed.key item) then none else some item := by
  rw [evicted?, find?_acquire, if_pos rfl, contains]
  cases hf : cache.find? (Keyed.key item) with
  | none => simp
  | some entry =>
    have hp := h.count_pos entry (mem_of_find? hf)
    have hc : ¬ entry.count + 1 ≤ 1 := by omega
    simp [hc]

/-- Giving back the reference that was taken last restores the cache. -/
theorem release_acquire (h : cache.Sound) (item : α) :
    (cache.acquire item).release (Keyed.key item) = cache := by
  have hv := evicted?_acquire h item
  by_cases hc : cache.contains (Keyed.key item) = true
  · rw [if_pos hc] at hv
    rw [release, hv, acquire, if_pos hc, update, update, updateEntry_updateEntry]
    · simp only [Option.isSome_none, Bool.false_eq_true, if_false]
      rw [updateEntry_self]
      intro entry _
      rfl
    · exact fun _ => rfl
  · rw [if_neg hc] at hv
    rw [release, hv, acquire, if_neg hc]
    have hn : ∀ entry ∈ cache.entries, ¬ entry.key == Keyed.key item := by
      intro entry he hk
      exact hc (contains_iff_mem.mpr (List.mem_map.mpr ⟨entry, he, by simpa using hk⟩))
    simp only [Option.isSome_some, if_true, erase]
    rw [List.eraseP_append_right _ hn]
    simp

end

/-! ## Listing -/

theorem items_acquire [Keyed α] (cache : Cache α) (item : α) : (cache.acquire item).items =
    if cache.contains (Keyed.key item) then cache.items else cache.items ++ [item] := by
  unfold acquire
  dsimp only
  split
  · rw [items, Cache.update, map_updateEntry, items]
    exact fun _ => rfl
  · simp [items]

theorem keys_acquire [Keyed α] (cache : Cache α) (item : α) : (cache.acquire item).keys =
    if cache.contains (Keyed.key item) then cache.keys else cache.keys ++ [Keyed.key item] := by
  unfold acquire
  dsimp only
  split
  · rw [keys, Cache.update, map_updateEntry, keys]
    exact fun _ => rfl
  · simp [keys]

/-- A view that does not show counts loses at most an entry. -/
theorem map_release_sublist {β : Type} (view : Entry α → β)
    (hv : ∀ entry count, view { entry with count } = view entry) (cache : Cache α) (key : Bytes) :
    ((cache.release key).entries.map view).Sublist (cache.entries.map view) := by
  unfold release
  split
  · exact List.eraseP_sublist.map view
  · rw [Cache.update, map_updateEntry]
    exact fun entry => hv entry _

theorem items_release_sublist (cache : Cache α) (key : Bytes) :
    (cache.release key).items.Sublist cache.items :=
  map_release_sublist (·.item) (fun _ _ => rfl) cache key

theorem keys_release (cache : Cache α) (key : Bytes) : (cache.release key).keys =
    if (cache.evicted? key).isSome then cache.keys.erase key else cache.keys := by
  unfold release
  split
  · have hp : (fun entry : Entry α => entry.key == key) = (key == ·) ∘ (·.key) := by
      funext entry
      exact BEq.comm
    rw [keys, keys, erase, List.erase_eq_eraseP, List.eraseP_map, hp]
  · rw [keys, Cache.update, map_updateEntry, keys]
    exact fun _ => rfl

theorem Sound.map_key_items [Keyed α] {cache : Cache α} (h : cache.Sound) :
    cache.items.map Keyed.key = cache.keys := by
  rw [items, List.map_map, keys]
  exact List.map_congr_left fun entry he => (h.key_eq entry he).symm

/-- Sound caches with the same counts list the same keys. -/
theorem Sound.keys_perm [Keyed α] {cache other : Cache α} (h : cache.Sound) (ho : other.Sound)
    (hc : ∀ key, cache.count key = other.count key) : cache.keys.Perm other.keys := by
  refine (List.perm_ext_iff_of_nodup h.nodup ho.nodup).mpr fun key => ?_
  rw [← contains_iff_mem, ← contains_iff_mem, h.contains_iff, ho.contains_iff, hc]

/-- Every entry is the one that is found under its key. -/
theorem Sound.find?_of_mem [Keyed α] {cache : Cache α} (h : cache.Sound) {entry : Entry α}
    (he : entry ∈ cache.entries) : cache.find? entry.key = some entry := by
  have hc : cache.contains entry.key = true := contains_iff_mem.mpr (List.mem_map_of_mem he)
  obtain ⟨found, hf⟩ := Option.isSome_iff_exists.mp hc
  rw [hf, List.inj_on_of_nodup_map h.nodup (mem_of_find? hf) he (key_of_find? hf)]

/-- A look-up finds what is listed under the key. -/
theorem Sound.item?_eq_some_iff [Keyed α] {cache : Cache α} (h : cache.Sound) {key : Bytes}
    {item : α} : cache.item? key = some item ↔ item ∈ cache.items ∧ Keyed.key item = key := by
  constructor
  · intro hi
    obtain ⟨entry, he, rfl⟩ := Option.map_eq_some_iff.mp hi
    exact ⟨List.mem_map_of_mem (mem_of_find? he), h.key_of_item? hi⟩
  · rintro ⟨hm, rfl⟩
    obtain ⟨entry, he, rfl⟩ := List.mem_map.mp hm
    rw [item?, ← h.key_eq entry he, h.find?_of_mem he]
    rfl

/-- A cache that counts no references has no entries. -/
theorem Sound.eq_empty [Keyed α] {cache : Cache α} (h : cache.Sound)
    (hz : ∀ key, cache.count key = 0) : cache = .empty := by
  obtain ⟨entries⟩ := cache
  cases entries with
  | nil => rfl
  | cons entry rest =>
    have hpos := h.count_pos entry List.mem_cons_self
    have hcount := hz entry.key
    rw [count, h.find?_of_mem List.mem_cons_self] at hcount
    exact absurd hcount (Nat.pos_iff_ne_zero.mp hpos)

end StyleRegistry.Cache
