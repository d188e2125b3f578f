import StyleRegistry.Proofs.Rule.Clear

/-! # What comes and goes at the top level

A change of presence in the root container is told of by one event, and events
of other containers do not touch its keys. So the top-level events of a walk or
of removals lead from the keys before to the keys after, one key at a time,
wherever their places are. A call that only takes references tells of each key
that has come, and one that only gives back of each key that has gone, once. -/
namespace StyleRegistry

/-! ## Keys that come and go -/

/-- Events that lead from keys to keys, one for each that comes or goes, in the
order in which they do. -/
inductive Turnover : List Bytes → List Event → List Bytes → Prop
  | nil (keys : List Bytes) : Turnover keys [] keys
  | add {keys after : List Bytes} {event : Event} {events : List Event} :
    event.change = .add → event.key ∉ keys → Turnover (keys ++ [event.key]) events after →
      Turnover keys (event :: events) after
  | remove {keys after : List Bytes} {event : Event} {events : List Event} :
    event.change = .remove → event.key ∈ keys → Turnover (keys.erase event.key) events after →
      Turnover keys (event :: events) after

namespace Turnover

variable {keys between after : List Bytes} {events more : List Event}

theorem append (h : Turnover keys events between) (hm : Turnover between more after) :
    Turnover keys (events ++ more) after := by
  induction h with
  | nil => exact hm
  | add hc hk _ ih => exact .add hc hk (ih hm)
  | remove hc hk _ ih => exact .remove hc hk (ih hm)

theorem nodup (h : Turnover keys events after) (hn : keys.Nodup) : after.Nodup := by
  induction h with
  | nil => exact hn
  | add _ hk _ ih =>
    refine ih (List.nodup_append.mpr ⟨hn, List.nodup_singleton _, fun key hkey other ho he => ?_⟩)
    rw [List.mem_singleton.mp ho] at he
    exact hk (he ▸ hkey)
  | remove _ _ _ ih => exact ih (hn.erase _)

theorem eq_append_of_add (h : Turnover keys events after)
    (hc : ∀ event ∈ events, event.change = .add) : after = keys ++ events.map (·.key) := by
  induction h with
  | nil => simp
  | add _ _ _ ih =>
    rw [ih fun event he => hc event (List.mem_cons_of_mem _ he), List.append_assoc]
    rfl
  | remove hr _ _ _ =>
    have ha := hc _ List.mem_cons_self
    rw [hr] at ha
    cases ha

theorem perm_of_remove (h : Turnover keys events after)
    (hc : ∀ event ∈ events, event.change = .remove) :
    keys.Perm (events.map (·.key) ++ after) := by
  induction h with
  | nil => exact .refl _
  | add ha _ _ _ =>
    have hr := hc _ List.mem_cons_self
    rw [ha] at hr
    cases hr
  | remove _ hk _ ih =>
    refine (List.perm_cons_erase hk).trans ?_
    exact (ih fun event he => hc event (List.mem_cons_of_mem _ he)).cons _

/-- Events that are all of one kind tell of each key that came or went, once. -/
theorem exact {change : Change} (h : Turnover keys events after) (hn : keys.Nodup)
    (hc : ∀ event ∈ events, event.change = change) : (events.map (·.key)).Nodup ∧
      ∀ key, key ∈ events.map (·.key) ↔
        (key ∉ keys ∧ key ∈ after) ∨ (key ∈ keys ∧ key ∉ after) := by
  have hafter := h.nodup hn
  cases change with
  | add =>
    obtain rfl := h.eq_append_of_add hc
    obtain ⟨-, hevents, hdisjoint⟩ := List.nodup_append.mp hafter
    refine ⟨hevents, fun key => ?_⟩
    have hnew : key ∈ events.map (·.key) → key ∉ keys := fun he hk => hdisjoint key hk key he rfl
    rw [List.mem_append]
    tauto
  | remove =>
    have hperm := h.perm_of_remove hc
    obtain ⟨hevents, -, hdisjoint⟩ := List.nodup_append.mp (hperm.nodup hn)
    refine ⟨hevents, fun key => ?_⟩
    have hgone : key ∈ events.map (·.key) → key ∉ after := fun he hk => hdisjoint key he key hk rfl
    rw [hperm.mem_iff, List.mem_append]
    tauto

end Turnover

/-! ## Single changes -/

namespace Forest

variable {forest : Forest}

theorem keys_updateContainerAt_of_ne {address : Address} (h : address ≠ .root)
    (change : Container → Container) :
    (forest.updateContainerAt address change).root.keys = forest.root.keys := by
  obtain ⟨origin, path⟩ := address
  cases origin with
  | some number => rfl
  | none =>
    cases path with
    | nil => exact absurd rfl h
    | cons key path => exact Cache.keys_updateItem ..

theorem keys_updateContainerAt {change : Container → Container}
    (hc : ∀ container, (change container).keys = container.keys) (address : Address) :
    (forest.updateContainerAt address change).root.keys = forest.root.keys := by
  by_cases h : address = .root
  · rw [h]
    exact hc forest.root
  · exact keys_updateContainerAt_of_ne h change

theorem keys_updateNode (place : Place) (change : Node → Node) :
    (forest.updateNode place change).root.keys = forest.root.keys := by
  unfold updateNode updateNodeAt
  split
  · exact keys_updateContainerAt (fun _ => Cache.keys_updateItem ..) _
  · rfl
  · rfl

theorem keys_addSelectors (name : Bytes) (styled : List Styled) :
    (forest.addSelectors name styled).root.keys = forest.root.keys := by
  unfold addSelectors
  induction styled generalizing forest with
  | nil => rfl
  | cons style styled ih =>
    rw [List.foldl_cons, ih]
    exact keys_updateNode _ _

theorem keys_removeSelectors (name : Bytes) (styled : List Styled) :
    (forest.removeSelectors name styled).root.keys = forest.root.keys := by
  unfold removeSelectors
  induction styled generalizing forest with
  | nil => rfl
  | cons style styled ih =>
    rw [List.foldl_cons, ih]
    exact keys_updateNode _ _

theorem acquire_eq_some {place : Place} {node : Node} {event : Event}
    (h : (forest.acquire place node).2 = some event) :
    event.change = .add ∧ event.key = node.key := by
  unfold acquire at h
  simp only at h
  split at h
  · cases h
  · split at h
    · cases h
    · obtain rfl := Option.some.inj h
      exact ⟨rfl, rfl⟩

theorem release_eq_some {place : Place} {key : Bytes} {event : Event}
    (h : (forest.release place key).2 = some event) :
    event.change = .remove ∧ event.key = key := by
  unfold release at h
  simp only at h
  split at h
  · cases h
  · split at h
    · cases h
    · obtain rfl := Option.some.inj h
      exact ⟨rfl, rfl⟩

/-- What is told of the top level. -/
def topLevel (events : List Event) : List Event := events.filter Event.isTopLevel

theorem topLevel_append (first second : List Event) :
    topLevel (first ++ second) = topLevel first ++ topLevel second := List.filter_append ..

/-- Below the top level nothing is told of, and no key comes or goes. -/
theorem turnover_elsewhere {keys after : List Bytes} {event : Option Event} (hk : after = keys)
    (he : ∀ e, event = some e → e.isTopLevel = false) :
    Turnover keys (topLevel event.toList) after := by
  rw [hk]
  cases event with
  | none => exact .nil _
  | some e =>
    rw [topLevel, Option.toList_some, List.filter_cons_of_neg (by simp [he e rfl])]
    exact .nil _

theorem isTopLevel_eq_false {address : Address} (h : address ≠ .root) (change : Change)
    (key : Bytes) (place : Place) (node : Node) :
    Event.isTopLevel ⟨change, forest.place address, key, place, node⟩ = false := by
  simpa [Event.isTopLevel, Forest.place] using h

theorem turnover_acquire (forest : Forest) (place : Place) (node : Node) :
    let made := forest.acquire place node
    Turnover forest.root.keys (topLevel made.2.toList) made.1.root.keys := by
  simp only [acquire]
  split
  · exact .nil _
  · rename_i container hc
    by_cases h : forest.locate place = .root
    · rw [h] at hc ⊢
      obtain rfl : forest.root = container := Option.some.inj hc
      have hkeys := Cache.keys_acquire forest.root node
      have hroot : (forest.updateContainerAt .root (·.acquire node)).root =
        forest.root.acquire node := rfl
      rw [Node.keyed_key] at hkeys
      cases hcontains : forest.root.contains node.key with
      | true =>
        rw [hcontains, if_pos rfl] at hkeys
        simp only [if_true, hroot, hkeys]
        exact .nil _
      | false =>
        rw [hcontains, if_neg Bool.false_ne_true] at hkeys
        simp only [Bool.false_eq_true, if_false, hroot, hkeys]
        refine .add rfl ?_ (.nil _)
        rw [← Cache.contains_iff_mem, hcontains]
        exact Bool.false_ne_true
    · have hkeys := @keys_updateContainerAt_of_ne forest _ h (·.acquire node)
      split
      · exact turnover_elsewhere hkeys fun _ he => by cases he
      · refine turnover_elsewhere hkeys fun e he => ?_
        obtain rfl := Option.some.inj he
        exact isTopLevel_eq_false h ..

theorem turnover_release (forest : Forest) (place : Place) (key : Bytes) :
    let made := forest.release place key
    Turnover forest.root.keys (topLevel made.2.toList) made.1.root.keys := by
  intro made
  cases hc : forest.containerAt? (forest.locate place) with
  | none =>
    simp only [made, release_of_none hc]
    exact .nil _
  | some container =>
    by_cases h : forest.locate place = .root
    · rw [h] at hc
      obtain rfl : forest.root = container := Option.some.inj hc
      rw [← h] at hc
      have hkeys := Cache.keys_release forest.root key
      have hroot : (forest.updateContainerAt .root (·.release key)).root =
        forest.root.release key := rfl
      cases he : forest.root.evicted? key with
      | none =>
        simp only [he, Option.isSome_none, Bool.false_eq_true, if_false] at hkeys
        simp only [made, release_of_stays hc he, h, hroot, hkeys]
        exact .nil _
      | some node =>
        simp only [he, Option.isSome_some, if_true] at hkeys
        simp only [made, release_of_evicted hc he, h, hroot, hkeys]
        refine .remove rfl ?_ (.nil _)
        obtain ⟨entry, hf, -, -⟩ := Cache.evicted?_eq_some he
        rw [← Cache.contains_iff_mem, Cache.contains, hf]
        rfl
    · have hkeys := @keys_updateContainerAt_of_ne forest _ h (·.release key)
      cases he : container.evicted? key with
      | none =>
        simp only [made, release_of_stays hc he]
        exact turnover_elsewhere hkeys fun _ he => by cases he
      | some node =>
        simp only [made, release_of_evicted hc he]
        refine turnover_elsewhere hkeys fun e he => ?_
        obtain rfl := Option.some.inj he
        exact isTopLevel_eq_false h ..

/-! ## Walks and removals -/

/-- A step of a walk takes a reference or does nothing. -/
theorem step_eq_acquire (forest : Forest) (walk : Walk) :
    (Walk.step forest walk).2.2 = none ∧ (Walk.step forest walk).1 = forest ∨
    ∃ place node, (Walk.step forest walk).2.2 = (forest.acquire place node).2 ∧
      (Walk.step forest walk).1 = (forest.acquire place node).1 := by
  unfold Walk.step
  split
  · exact .inl ⟨rfl, rfl⟩
  · exact .inr ⟨_, _, rfl, rfl⟩
  · exact .inr ⟨_, _, rfl, rfl⟩

theorem turnover_run (forest : Forest) (walk : Walk) (fuel : Nat) :
    let ran := walk.run forest fuel
    Turnover forest.root.keys (topLevel ran.2.2) ran.1.root.keys := by
  induction fuel generalizing forest walk with
  | zero => exact .nil _
  | succ fuel ih =>
    have hrest := ih (Walk.step forest walk).1 (Walk.step forest walk).2.1
    have hstep : Turnover forest.root.keys (topLevel (Walk.step forest walk).2.2.toList)
        (Walk.step forest walk).1.root.keys := by
      rcases step_eq_acquire forest walk with ⟨hevent, hforest⟩ | ⟨place, node, hevent, hforest⟩
      · rw [hevent, hforest]
        exact .nil _
      · rw [hevent, hforest]
        exact turnover_acquire forest place node
    rw [Walk.run]
    simp only [topLevel_append]
    exact hstep.append hrest

theorem change_run (forest : Forest) (walk : Walk) (fuel : Nat) :
    ∀ event ∈ (walk.run forest fuel).2.2, event.change = .add := by
  induction fuel generalizing forest walk with
  | zero => exact fun _ hm => absurd hm List.not_mem_nil
  | succ fuel ih =>
    intro event hm
    rw [Walk.run] at hm
    rcases List.mem_append.mp hm with hm | hm
    · have hevent := Option.mem_toList.mp hm
      rcases step_eq_acquire forest walk with ⟨hnone, -⟩ | ⟨place, node, hsome, -⟩
      · cases hnone.symm.trans hevent
      · exact (acquire_eq_some (hsome.symm.trans hevent)).1
    · exact ih _ _ event hm

theorem turnover_releaseTimes (forest : Forest) (slot : Slot) (times : Nat) :
    let made := forest.releaseTimes slot times
    Turnover forest.root.keys (topLevel made.2) made.1.root.keys := by
  induction times generalizing forest with
  | zero => exact .nil _
  | succ times ih =>
    rw [releaseTimes]
    simp only [topLevel_append]
    exact (turnover_release forest slot.container slot.key).append (ih _)

theorem change_releaseTimes (forest : Forest) (slot : Slot) (times : Nat) :
    ∀ event ∈ (forest.releaseTimes slot times).2, event.change = .remove := by
  induction times generalizing forest with
  | zero => exact fun _ hm => absurd hm List.not_mem_nil
  | succ times ih =>
    intro event hm
    rw [releaseTimes] at hm
    rcases List.mem_append.mp hm with hm | hm
    · exact (release_eq_some (Option.mem_toList.mp hm)).1
    · exact ih _ event hm

theorem turnover_removeEach (forest : Forest) (left : List Removal) :
    let made := forest.removeEach left
    Turnover forest.root.keys (topLevel made.2) made.1.root.keys := by
  induction left generalizing forest with
  | nil => exact .nil _
  | cons removal left ih =>
    rw [removeEach]
    simp only [topLevel_append]
    refine Turnover.append ?_ (ih _)
    cases removal with
    | one slot => exact turnover_releaseTimes forest slot 1
    | all slot => exact turnover_releaseTimes forest slot (forest.slotCount slot)

theorem change_removeEach (forest : Forest) (left : List Removal) :
    ∀ event ∈ (forest.removeEach left).2, event.change = .remove := by
  induction left generalizing forest with
  | nil => exact fun _ hm => absurd hm List.not_mem_nil
  | cons removal left ih =>
    intro event hm
    rw [removeEach] at hm
    rcases List.mem_append.mp hm with hm | hm
    · cases removal with
      | one slot => exact change_releaseTimes forest slot 1 event hm
      | all slot => exact change_releaseTimes forest slot (forest.slotCount slot) event hm
    · exact ih _ event hm

/-! ## Calls -/

theorem turnover_register (forest : Forest) (place : Place) (styles : Layer) :
    let made := forest.register place styles
    Turnover forest.root.keys (topLevel made.events) made.forest.root.keys := by
  simp only [register, keys_addSelectors]
  exact turnover_run forest (.start place styles.compile) (Walk.bound styles.compile)

theorem turnover_unregister (forest : Forest) (place : Place) (styles : Layer) :
    let made := forest.unregister place styles
    Turnover forest.root.keys (topLevel made.events) made.forest.root.keys := by
  simp only [unregister]
  rw [← @keys_removeSelectors forest]
  exact turnover_removeEach _ _

theorem turnover_clear (forest : Forest) (place : Place) :
    let made := forest.clear place
    Turnover forest.root.keys (topLevel made.2) made.1.root.keys := turnover_removeEach forest _

end Forest
end StyleRegistry
