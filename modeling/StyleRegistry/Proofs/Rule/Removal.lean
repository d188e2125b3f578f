import StyleRegistry.Proofs.Rule.Registration

/-! # What undoing does

The undoing walk looks up the stops of its tree and finds those that the
container holds; it names the class from all of them, as registering does.
What it found it gives back in reverse. It cannot see who took a reference, so
undoing lowers each count by the number of the tree's references as far as
there are any. -/
namespace StyleRegistry

open Forest (bodyIn?)

/-! ## Looking up -/

/-- The stops whose references a container has. -/
def Container.held (root : Container) (stops : List Stop) : List Stop :=
  stops.filter fun stop => root.holds stop.path stop.key

def Forest.slotOf (forest : Forest) (stop : Stop) : Slot :=
  ⟨forest.place ⟨none, stop.path⟩, stop.key⟩

/-- What is found once more stops are looked up. -/
def Found.meet (found : Found) (forest : Forest) (stops : List Stop) : Found :=
  ⟨found.slots ++ (forest.root.held stops).map forest.slotOf,
    found.styled ++ (forest.root.held stops).filterMap forest.styled?,
    Hash.chain found.hash (stops.flatMap Stop.texts)⟩

theorem Found.meet_nil (found : Found) (forest : Forest) : found.meet forest [] = found := by
  simp [meet, Container.held, Hash.chain]

theorem Found.meet_append (found : Found) (forest : Forest) (first second : List Stop) :
    found.meet forest (first ++ second) = (found.meet forest first).meet forest second := by
  simp [meet, Container.held, Hash.chain, List.append_assoc]

namespace Forest

/-- Where the undoing walk is, it has the container's place, or the container
is missing. -/
def Sees (forest : Forest) (container : Option Place) (path : List Bytes) : Prop :=
  container = some (forest.place ⟨none, path⟩) ∨ container = none ∧ bodyIn? forest.root path = none

variable {forest : Forest} {container : Option Place} {path : List Bytes}

theorem Sees.slot? (h : forest.Sees container path) (key : Bytes) :
    forest.slot? container key =
      if forest.root.holds path key then some ⟨forest.place ⟨none, path⟩, key⟩ else none := by
  unfold Container.holds
  rcases h with rfl | ⟨rfl, hn⟩
  · rw [Forest.slot?, container?_place, Container.bodyAt]
    cases bodyIn? forest.root path <;> rfl
  · rw [Container.bodyAt_of_none hn]
    rfl

theorem Sees.child (h : forest.Sees container path) (key : Bytes) :
    forest.Sees ((forest.slot? container key).map forest.slotPlace) (path ++ [key]) := by
  rw [h.slot?]
  by_cases hk : forest.root.holds path key = true
  · rw [if_pos hk]
    exact .inl (congrArg some (childPlace_place path key))
  · rw [if_neg hk]
    refine .inr ⟨rfl, ?_⟩
    rw [← Option.not_isSome_iff_eq_none]
    exact fun hs => hk (Container.holds_of_isSome_bodyIn? hs)

theorem Sees.meetBlock {rules : List Bytes} (h : forest.Sees container (rules.map Key.atRule))
    (selector : Bytes) (block : Block) (found : Found) :
    forest.meetBlock container selector block found =
      found.meet forest [.block rules selector block.declarations] := by
  rw [Forest.meetBlock, h.slot?]
  by_cases hk : forest.root.holds (rules.map Key.atRule) (Key.style block.declarations) = true
  · rw [if_pos hk]
    have hh : forest.root.held [.block rules selector block.declarations] =
        [.block rules selector block.declarations] := List.filter_cons_of_pos hk
    have hp := @childPlace_place forest (rules.map Key.atRule) (Key.style block.declarations)
    simp only [Found.meet, hh, List.map_cons, List.map_nil, slotPlace, hp]
    rfl
  · rw [if_neg hk]
    have hh : forest.root.held [.block rules selector block.declarations] = [] :=
      List.filter_cons_of_neg hk
    simp only [Found.meet, hh, List.map_nil, List.filterMap_nil, List.append_nil]
    rfl

theorem Sees.meetAtRule {rules : List Bytes} (h : forest.Sees container (rules.map Key.atRule))
    (rule : Bytes) (found : Found) :
    { found with slots := found.slots ++ (forest.slot? container (Key.atRule rule)).toList } =
      found.meet forest [.atRule rules rule] := by
  rw [h.slot?]
  by_cases hk : forest.root.holds (rules.map Key.atRule) (Key.atRule rule) = true
  · have hh : forest.root.held [.atRule rules rule] = [.atRule rules rule] :=
      List.filter_cons_of_pos hk
    simp only [Found.meet, hh, if_pos hk, List.map_cons, List.map_nil]
    simp [styled?, Stop.selector?, Stop.texts, Hash.chain, slotOf, Stop.path, Stop.rules, Stop.key,
      Stop.node, Node.key, Node.freshAtRule]
  · have hh : forest.root.held [.atRule rules rule] = [] := List.filter_cons_of_neg hk
    simp only [Found.meet, hh, if_neg hk, List.map_nil, List.filterMap_nil, List.append_nil]
    simp [Stop.texts, Hash.chain]

mutual

/-- The undoing walk looks up the stops of its tree. -/
theorem Sees.replay {container : Option Place} {rules : List Bytes}
    (h : forest.Sees container (rules.map Key.atRule)) (selector : Bytes) (found : Found) :
    ∀ block : Block, forest.replay container selector found block =
      found.meet forest (block.stops rules selector)
  | .mk declarations children => by
    rw [Forest.replay, h.meetBlock, Sees.replayAll h selector _ children, ← Found.meet_append]
    rfl

theorem Sees.replayAll {container : Option Place} {rules : List Bytes}
    (h : forest.Sees container (rules.map Key.atRule)) (selector : Bytes) (found : Found) :
    ∀ children : List (Bytes × Block), forest.replayAll container selector found children =
      found.meet forest (Block.stopsAll rules selector children)
  | [] => (Found.meet_nil found forest).symm
  | (key, block) :: rest => by
    rw [Forest.replayAll, Block.stopsAll, Found.meet_append]
    split
    · have hc : forest.Sees ((forest.slot? container (Key.atRule key)).map forest.slotPlace)
          ((rules ++ [key]).map Key.atRule) := by
        rw [List.map_append]
        exact h.child (Key.atRule key)
      simp only
      rw [h.meetAtRule, Sees.replayAll h selector _ rest, Sees.replay hc selector _ block,
        ← Found.meet_append found]
      rfl
    · rw [Sees.replayAll h selector _ rest, Sees.replay h _ _ block]

end

end Forest

/-! ## Giving back -/

/-- A container once a tree is undone: of the stops that it holds, the blocks
lose the class's selectors, and then the references are given back in reverse. -/
def Container.undone (root : Container) (styles : Layer) : Container :=
  (root.selectEach revoke styles.className (root.held styles.stops)).releaseEach
    (root.held styles.stops).reverse

namespace Forest

variable {forest : Forest}

theorem remove_one (slot : Slot) : forest.remove (.one slot) =
    ((forest.release slot.container slot.key).1,
      (forest.release slot.container slot.key).2.toList) := by
  simp only [remove, releaseTimes, List.append_nil]

/-- The removals of stops that were met in an earlier forest. -/
def removalsOf (met : Forest) (stops : List Stop) : List Removal :=
  stops.map fun stop => .one (met.slotOf stop)

/-- The places of the stops track their ways. -/
def TracksEach (forest met : Forest) (stops : List Stop) : Prop :=
  ∀ stop ∈ stops, forest.Tracks (met.place ⟨none, stop.path⟩) stop.path

theorem TracksEach.release {met : Forest} {stop : Stop} {stops : List Stop}
    (h : forest.TracksEach met (stop :: stops)) (hw : forest.root.WellFormed) :
    (forest.release (met.place ⟨none, stop.path⟩) stop.key).1.TracksEach met stops :=
  fun s hs => (h stop List.mem_cons_self).release hw (h s (List.mem_cons_of_mem _ hs)) stop.key

theorem root_removeEach {met : Forest} {stops : List Stop} (hw : forest.root.WellFormed)
    (ht : forest.TracksEach met stops) :
    (forest.removeEach (met.removalsOf stops)).1.root = forest.root.releaseEach stops := by
  induction stops generalizing forest with
  | nil => rfl
  | cons stop rest ih =>
    have hstop := ht stop List.mem_cons_self
    rw [removalsOf, List.map_cons, removeEach, remove_one, Container.releaseEach_cons,
      ← root_release hstop stop.key]
    exact ih (wellFormed_release hstop hw _) (ht.release hw)

/-- What the undoing walk finds from the top. -/
theorem replay_top (forest : Forest) (styles : Layer) :
    forest.replay (some (forest.place .root)) Selector.root .nothing styles.compile =
      ⟨(forest.root.held styles.stops).map forest.slotOf,
        (forest.root.held styles.stops).filterMap forest.styled?, Hash.chain 0 styles.texts⟩ :=
  @Sees.replay forest _ [] (.inl rfl) Selector.root .nothing styles.compile

theorem unregister_eq (styles : Layer) :
    let held := forest.root.held styles.stops
    let cleared := forest.root.selectEach Container.revoke styles.className held
    let removed := removeEach ⟨cleared, forest.evictions⟩ (forest.removalsOf held.reverse)
    forest.unregister (forest.place .root) styles =
      ⟨removed.1, removed.2, styles.className⟩ := by
  have hn : Hash.text (Hash.chain 0 styles.texts) = styles.className := rfl
  simp only [unregister, replay_top, Found.className, hn, removeSelectors_styled, Found.removals,
    ← List.map_reverse, List.map_map]
  rfl

/-- What is left in the root container does not depend on places. -/
theorem root_unregister (hw : forest.root.WellFormed) (styles : Layer) :
    (forest.unregister (forest.place .root) styles).forest.root = forest.root.undone styles := by
  rw [unregister_eq]
  refine root_removeEach (hw.selectEach Container.moves_revoke _) ?_
  exact fun stop _ => tracks_place ⟨_, forest.evictions⟩ stop.path

end Forest

/-! ## Counts -/

namespace Container

variable {root : Container}

theorem holds_of_mem_held {stops : List Stop} {stop : Stop} (h : stop ∈ root.held stops) :
    root.holds stop.path stop.key = true := (List.mem_filter.mp h).2

theorem count_held (stops : List Stop) {path : List Bytes} {key : Bytes}
    (hh : root.holds path key = true) :
    ((root.held stops).map Stop.slot).count (path, key) =
      (stops.map Stop.slot).count (path, key) := by
  have hf : (root.held stops).map Stop.slot =
      (stops.map Stop.slot).filter fun slot => root.holds slot.1 slot.2 := by
    rw [List.filter_map]
    rfl
  rw [hf]
  exact List.count_filter hh

theorem count_marks_held (name : Bytes) (stops : List Stop) {path : List Bytes} {key : Bytes}
    (hh : root.holds path key = true) (selector : Bytes) :
    ((root.held stops).filterMap (Stop.mark? name)).count ((path, key), selector) =
      (stops.filterMap (Stop.mark? name)).count ((path, key), selector) := by
  have hf : (root.held stops).filterMap (Stop.mark? name) =
      (stops.filterMap (Stop.mark? name)).filter fun mark => root.holds mark.1.1 mark.1.2 := by
    rw [held, List.filterMap_filter, List.filter_filterMap]
    congr 1
    funext stop
    unfold Stop.mark?
    cases stop.selector? with
    | none => split <;> rfl
    | some text => simp [Option.filter_some, Stop.slot]
  rw [hf]
  exact List.count_filter hh

theorem WellFormed.undone (h : root.WellFormed) (styles : Layer) :
    (root.undone styles).WellFormed := (h.selectEach moves_revoke _).releaseEach _

/-- Undoing lowers each count by the references of the tree, whoever took them,
as far as there are any. -/
theorem countAt_undone (h : root.WellFormed) (styles : Layer) {path : List Bytes}
    (hs : (bodyIn? (root.undone styles) path).isSome) (key : Bytes) :
    (root.undone styles).countAt path key =
      root.countAt path key - styles.references path key := by
  have hw : (root.selectEach revoke styles.className (root.held styles.stops)).WellFormed :=
    h.selectEach moves_revoke _
  rw [undone, countAt_releaseEach hw hs, countAt_selectEach, List.map_reverse, List.count_reverse,
    Layer.references]
  by_cases hh : root.holds path key = true
  · rw [count_held _ hh]
  · rw [countAt_eq_zero hh, Nat.zero_sub, Nat.zero_sub]

/-- Where the container is gone there is nothing to count. -/
theorem countAt_undone_le (h : root.WellFormed) (styles : Layer) (path : List Bytes)
    (key : Bytes) : (root.undone styles).countAt path key ≤
      root.countAt path key - styles.references path key := by
  cases hb : bodyIn? (root.undone styles) path with
  | none =>
    rw [countAt, bodyAt_of_none hb, Cache.count_empty]
    exact Nat.zero_le _
  | some body => exact Nat.le_of_eq (countAt_undone h styles (by rw [hb]; rfl) key)

theorem count_selectorsAt_undone (h : root.WellFormed) (styles : Layer) {path : List Bytes}
    {key : Bytes} (hh : (root.undone styles).holds path key = true) (selector : Bytes) :
    ((root.undone styles).selectorsAt path key).count selector =
      (root.selectorsAt path key).count selector -
        styles.selectorReferences path key selector := by
  have hw : (root.selectEach revoke styles.className (root.held styles.stops)).WellFormed :=
    h.selectEach moves_revoke _
  have hheld : root.holds path key = true := by
    rw [← holds_selectEach (root.held styles.stops)]
    exact holds_of_releaseEach hw hh
  rw [undone, selectorsAt_releaseEach hw hh, count_selectorsAt_selectEach moves_revoke h
    (fun _ => holds_of_mem_held), count_marks_held _ _ hheld,
    Layer.selectorReferences]

/-- The tree refers to nothing in the container. -/
def Unheld (root : Container) (styles : Layer) : Prop :=
  ∀ path key, 0 < styles.references path key → root.countAt path key = 0

theorem undone_of_unheld (h : root.WellFormed) {styles : Layer} (hu : root.Unheld styles) :
    root.undone styles = root := by
  have hn : root.held styles.stops = [] := by
    refine List.filter_eq_nil_iff.mpr fun stop hs => ?_
    rw [h.holds_iff, hu _ _ (Layer.references_pos hs)]
    exact Nat.lt_irrefl 0
  rw [undone, hn]
  rfl

/-- Undoing changes no count just when the tree refers to nothing in the container. -/
theorem countAt_undone_eq_iff (h : root.WellFormed) (styles : Layer) :
    (∀ path key, (root.undone styles).countAt path key = root.countAt path key) ↔
      root.Unheld styles := by
  refine ⟨fun hsame path key hr => ?_, fun hu path key => by rw [undone_of_unheld h hu]⟩
  have hle := countAt_undone_le h styles path key
  rw [hsame] at hle
  omega

end Container
end StyleRegistry
