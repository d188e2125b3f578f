import StyleRegistry.Proofs.Rule.Undo

/-! # Clearing

A clearing gives back all references to one key after another. A key's
references are counted when its turn comes, and those to other keys stay as
they are until then, so in the end nothing is left. It makes no difference
whether a key's references are given back at once or as so many single ones. -/
namespace StyleRegistry.Forest

variable {forest : Forest} {place : Place}

/-! ## One key -/

/-- The root container is never evicted. -/
theorem Tracks.locate_root (ht : forest.Tracks place []) : forest.locate place = .root :=
  ht.locate.resolve_right fun hd => absurd hd.2 (by simp)

theorem Tracks.slotCount_root (ht : forest.Tracks place []) (key : Bytes) :
    forest.slotCount ⟨place, key⟩ = forest.root.count key := by
  rw [slotCount, container?, ht.locate_root]
  rfl

theorem releaseTimes_root {key : Bytes} (hw : forest.root.WellFormed)
    (ht : forest.Tracks place []) (times : Nat) :
    let after := (forest.releaseTimes ⟨place, key⟩ times).1
    after.root.WellFormed ∧ after.Tracks place [] ∧
      ∀ k, after.root.count k = forest.root.count k - if k = key then times else 0 := by
  induction times generalizing forest with
  | zero => exact ⟨hw, ht, fun k => by rw [ite_self]; rfl⟩
  | succ times ih =>
    obtain ⟨hwell, htracks, hcount⟩ :=
      ih (wellFormed_release ht hw key) (ht.release hw ht key)
    refine ⟨hwell, htracks, fun k => ?_⟩
    have hroot : (forest.release place key).1.root = forest.root.release key :=
      root_release ht key
    have hone := hw.tidy.sound.count_release key k
    rw [releaseTimes, hcount, hroot, hone, Nat.sub_sub]
    split
    · rw [Nat.add_comm]
    · rfl

/-! ## All keys -/

theorem removeEach_keys (keys : List Bytes) (hw : forest.root.WellFormed)
    (ht : forest.Tracks place []) :
    let after := (forest.removeEach (keys.map fun key => .all ⟨place, key⟩)).1
    after.root.WellFormed ∧
      ∀ k, after.root.count k = if k ∈ keys then 0 else forest.root.count k := by
  induction keys generalizing forest with
  | nil => exact ⟨hw, fun k => (if_neg List.not_mem_nil).symm⟩
  | cons key rest ih =>
    obtain ⟨hwell, htracks, hcount⟩ :=
      @releaseTimes_root _ _ key hw ht (forest.slotCount ⟨place, key⟩)
    obtain ⟨hlast, hall⟩ := ih hwell htracks
    refine ⟨hlast, fun k => (hall k).trans ?_⟩
    rw [hcount, ht.slotCount_root]
    by_cases hr : k ∈ rest
    · rw [if_pos hr, if_pos (List.mem_cons_of_mem _ hr)]
    · rw [if_neg hr]
      by_cases hk : k = key
      · rw [if_pos hk, hk, Nat.sub_self, if_pos List.mem_cons_self]
      · rw [if_neg hk, if_neg (by simp [hk, hr]), Nat.sub_zero]

/-- A clearing leaves the root container empty. -/
theorem root_clear (hw : forest.root.WellFormed) :
    (forest.clear (forest.place .root)).1.root = .empty := by
  obtain ⟨hwell, hcount⟩ := removeEach_keys forest.root.keys hw (forest.tracks_place [])
  have hclear : forest.clearance (forest.place .root) =
      forest.root.keys.map fun key => .all ⟨forest.place .root, key⟩ := by
    rw [clearance, Address.root, container?_place]
    rfl
  rw [clear, hclear]
  refine hwell.tidy.sound.eq_empty fun key => (hcount key).trans ?_
  split
  · rfl
  · rename_i hk
    rw [← Cache.contains_iff_mem] at hk
    exact Cache.count_eq_zero (Bool.eq_false_iff.mpr hk)

/-! ## One reference after another -/

theorem removeEach_replicate (slot : Slot) (times : Nat) (forest : Forest) :
    forest.removeEach (List.replicate times (.one slot)) = forest.releaseTimes slot times := by
  induction times generalizing forest with
  | zero => rfl
  | succ times ih =>
    rw [List.replicate_succ, removeEach, remove_one]
    simp only [ih]
    rfl

theorem removeEach_all (slot : Slot) (left : List Removal) (forest : Forest) :
    forest.removeEach (.all slot :: left) =
      forest.removeEach (List.replicate (forest.slotCount slot) (.one slot) ++ left) := by
  rw [removeEach_append, removeEach_replicate]
  rfl

end StyleRegistry.Forest
