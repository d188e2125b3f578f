import StyleRegistry.Proofs.Mass
import StyleRegistry.Proofs.Rule.Place
import StyleRegistry.Rule.Registration

/-! # What a forest weighs

Only the root container of a forest has mass, one for each entry and one for each
reference. A walk takes one reference at a time, so at most one entry comes to it,
and giving back brings nothing. The root container is never evicted: its place
stays where it is, and the references to one of its keys are part of its mass. -/
namespace StyleRegistry.Forest

variable {forest after : Forest}

/-! ## The seat of the root container -/

/-- Nothing was ever evicted from where the root container is. -/
def Seated (forest : Forest) : Prop := .root ∉ forest.evictions.map (·.address)

theorem seated_ofContainer (root : Container) : (ofContainer root).Seated := List.not_mem_nil

theorem forwardAll_root {evictions : List Eviction} (h : .root ∉ evictions.map (·.address))
    (number : Nat) : forwardAll .root number evictions = .root := by
  induction evictions generalizing number with
  | nil => rfl
  | cons eviction rest ih =>
    have hfirst := List.ne_of_not_mem_cons h
    have hrest := List.not_mem_of_not_mem_cons h
    have hstays : eviction.address.forward number .root = .root := by
      refine if_neg fun ⟨horigin, hpath⟩ => hfirst ?_
      obtain ⟨⟨origin, path⟩, node⟩ := eviction
      obtain rfl : none = origin := horigin
      obtain rfl : path = [] := List.prefix_nil.mp (List.isPrefixOf_iff_prefix.mp hpath)
      rfl
    rw [forwardAll, hstays]
    exact ih hrest (number + 1)

theorem Seated.locate_root (h : forest.Seated) (since : Nat) :
    forest.locate ⟨since, .root⟩ = .root := by
  refine forwardAll_root (fun hm => h ?_) since
  rw [List.map_drop] at hm
  exact List.mem_of_mem_drop hm

/-- A key has no more references than the root container has mass. -/
theorem Seated.slotCount_le (h : forest.Seated) {slot : Slot}
    (hs : slot.container.address = .root) : forest.slotCount slot ≤ forest.root.mass := by
  obtain ⟨⟨since, address⟩, key⟩ := slot
  obtain rfl : address = .root := hs
  rw [slotCount, container?, h.locate_root]
  exact forest.root.count_le_mass key

theorem length_clearance_le (forest : Forest) :
    (forest.clearance (forest.place .root)).length ≤ forest.root.mass := by
  rw [clearance, container?, locate_place, List.length_map]
  show forest.root.keys.length ≤ _
  rw [Cache.keys, List.length_map]
  exact forest.root.size_le_mass

/-! ## What changes bring -/

/-- The change brings at most so much mass into the root container, and does not
unseat it. -/
structure Adds (forest after : Forest) (more : Nat) : Prop where
  seated : forest.Seated → after.Seated
  mass : after.root.mass ≤ forest.root.mass + more

theorem Adds.refl (forest : Forest) : forest.Adds forest 0 := ⟨id, Nat.le_refl _⟩

theorem mass_updateIn_le {change : Container → Container} {more : Nat}
    (h : ∀ container, (change container).mass ≤ container.mass + more) (path : List Bytes)
    (container : Container) : (updateIn change path container).mass ≤ container.mass + more := by
  cases path with
  | nil => exact h container
  | cons key path =>
    -- A body changes inside its entry, which has the references that it had.
    exact (container.mass_updateItem_le key _).trans (Nat.le_add_right _ _)

theorem adds_updateContainerAt {change : Container → Container} {more : Nat}
    (h : ∀ container, (change container).mass ≤ container.mass + more) (forest : Forest)
    (address : Address) : forest.Adds (forest.updateContainerAt address change) more where
  seated hs := by rwa [Seated, addresses_updateContainerAt]
  mass := by
    unfold updateContainerAt
    split
    · exact mass_updateIn_le h address.path forest.root
    · exact Nat.le_add_right _ _

theorem adds_updateNode (forest : Forest) (place : Place) (change : Node → Node) :
    forest.Adds (forest.updateNode place change) 0 := by
  unfold updateNode updateNodeAt
  split
  · exact adds_updateContainerAt (fun container => container.mass_updateItem_le _ _) ..
  · exact ⟨fun hs => by rwa [Seated, addresses_updateEvicted], Nat.le_refl _⟩
  · exact .refl forest

/-- Selectors weigh nothing. -/
theorem adds_selectors {change : Styled → Node → Node} (styled : List Styled) (forest : Forest) :
    forest.Adds (styled.foldl
      (fun forest style => forest.updateNode style.place (change style)) forest) 0 := by
  induction styled generalizing forest with
  | nil => exact .refl forest
  | cons style rest ih =>
    have hfirst := forest.adds_updateNode style.place (change style)
    have hrest := ih (forest.updateNode style.place (change style))
    exact ⟨fun hs => hrest.seated (hfirst.seated hs), hrest.mass.trans hfirst.mass⟩

theorem adds_acquire (forest : Forest) (place : Place) (node : Node) :
    forest.Adds (forest.acquire place node).1 2 := by
  unfold acquire
  dsimp only
  split
  · exact ⟨id, Nat.le_add_right _ _⟩
  · split
    · exact adds_updateContainerAt (fun container => container.mass_acquire_le node) ..
    · exact adds_updateContainerAt (fun container => container.mass_acquire_le node) ..

theorem adds_release (forest : Forest) (place : Place) (key : Bytes) :
    forest.Adds (forest.release place key).1 0 := by
  have hchanged : forest.Adds
      (forest.updateContainerAt (forest.locate place) (·.release key)) 0 :=
    adds_updateContainerAt (fun container => container.mass_release_le key) ..
  cases hc : forest.containerAt? (forest.locate place) with
  | none =>
    rw [release_of_none hc]
    exact .refl forest
  | some container =>
    cases he : container.evicted? key with
    | none =>
      rw [release_of_stays hc he]
      exact hchanged
    | some node =>
      rw [release_of_evicted hc he]
      refine ⟨fun hs => ?_, hchanged.mass⟩
      -- What is evicted stood under a key.
      have hchild : Address.root ≠ (forest.locate place).child key := fun hroot =>
        List.append_ne_nil_of_right_ne_nil _ (List.cons_ne_nil _ _)
          (congrArg Address.path hroot).symm
      simpa [Seated, hchild] using hchanged.seated hs

theorem adds_step (forest : Forest) (walk : Walk) : forest.Adds (walk.step forest).1 2 := by
  unfold Walk.step
  split
  · exact ⟨id, Nat.le_add_right _ _⟩
  · exact adds_acquire ..
  · exact adds_acquire ..

/-! ## What an undoing finds -/

theorem length_meetBlock_le (forest : Forest) (container : Option Place) (selector : Bytes)
    (block : Block) (found : Found) :
    (forest.meetBlock container selector block found).slots.length ≤ found.slots.length + 1 := by
  unfold meetBlock
  dsimp only
  split
  · simp
  · exact Nat.le_add_right _ _

mutual

/-- A layer has at most two slots, its own and that of its at-rule. -/
theorem length_replay_lt (forest : Forest) (container : Option Place) (selector : Bytes)
    (found : Found) : ∀ block : Block,
      (forest.replay container selector found block).slots.length <
        found.slots.length + 2 * block.size
  | .mk declarations children => by
    have hblock := forest.length_meetBlock_le container selector (.mk declarations children) found
    have hrest := length_replayAll_le forest container selector
      (forest.meetBlock container selector (.mk declarations children) found) children
    rw [replay, Block.size]
    omega

theorem length_replayAll_le (forest : Forest) (container : Option Place) (selector : Bytes)
    (found : Found) : ∀ children : List (Bytes × Block),
      (forest.replayAll container selector found children).slots.length ≤
        found.slots.length + 2 * Block.sizeAll children
  | [] => Nat.le_refl _
  | (key, block) :: rest => by
    rw [replayAll, Block.sizeAll]
    split
    · have hslot : (forest.slot? container (Key.atRule key)).toList.length ≤ 1 := by
        cases forest.slot? container (Key.atRule key) <;> simp
      have hblock := length_replay_lt forest
        ((forest.slot? container (Key.atRule key)).map forest.slotPlace) selector
        { found with
          slots := found.slots ++ (forest.slot? container (Key.atRule key)).toList } block
      refine (length_replayAll_le forest container selector _ rest).trans ?_
      rw [List.length_append] at hblock
      omega
    · have hblock := length_replay_lt forest container (Selector.interpolate key selector) found
        block
      refine (length_replayAll_le forest container selector _ rest).trans ?_
      omega

end

end StyleRegistry.Forest
