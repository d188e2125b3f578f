import StyleRegistry.Proofs.Rule.Identity
import StyleRegistry.Proofs.Rule.Registration

/-! # Every look-up finds its kind

The walks take blocks for blocks and at-rules for at-rules without a look at
what they are given. They may, since a key tells the kind of its node whatever
texts share the key, and since a place goes on naming a node of one key. So at
every task of a walk there is a container, and at every place for a selector
there is a block, also when listeners change the containers meanwhile. -/
namespace StyleRegistry

open Bytes (ascii)
open Forest (bodyIn?)

/-! ## Kinds -/

namespace Node

theorem body?_of_prefix {node : Node} (h : ascii "a" <+: node.key) : node.body?.isSome := by
  cases node with
  | style declarations selectors =>
    obtain ⟨rest, he⟩ := h
    cases he
  | atRule rule body => rfl

theorem selectors?_of_prefix {node : Node} (h : ascii "n" <+: node.key) :
    node.selectors?.isSome := by
  cases node with
  | style declarations selectors => rfl
  | atRule rule body =>
    obtain ⟨rest, he⟩ := h
    cases he

end Node

/-- One entry for a key, under the key of its node, whose first letter tells the
node's kind. -/
structure Container.Typed (body : Container) : Prop where
  nodup : body.keys.Nodup
  key : ∀ entry ∈ body.entries, entry.key = entry.item.key
  style : ∀ entry ∈ body.entries, ascii "n" <+: entry.key → entry.item.selectors?.isSome
  atRule : ∀ entry ∈ body.entries, ascii "a" <+: entry.key → entry.item.body?.isSome

theorem Container.Tidy.typed {body : Container} (h : body.Tidy) : body.Typed where
  nodup := h.sound.nodup
  key := h.sound.key_eq
  style entry he hk := by
    rw [h.sound.key_eq entry he] at hk
    exact Node.selectors?_of_prefix hk
  atRule entry he hk := by
    rw [h.sound.key_eq entry he] at hk
    exact Node.body?_of_prefix hk

namespace Forest

variable {forest : Forest} {walk : Walk} {found : Found} {place : Place}

/-! ## What calls keep -/

namespace Sound

theorem step (h : forest.Sound) (walk : Walk) : forest.Follows (Walk.step forest walk).1 := by
  unfold Walk.step
  split
  · exact .refl h
  · exact h.acquire _ (Stop.block [] [] _).fresh_node
  · exact h.acquire _ (Stop.atRule [] _).fresh_node

theorem run (h : forest.Sound) (walk : Walk) (steps : Nat) :
    forest.Follows (walk.run forest steps).1 := by
  induction steps generalizing forest walk with
  | zero => exact .refl h
  | succ steps ih =>
    have hstep := h.step walk
    exact hstep.trans (ih hstep.sound _)

theorem selectEach {change : Styled → Cache Selector → Cache Selector}
    (hc : ∀ style selectors, Cache.Sound selectors → Cache.Sound (change style selectors))
    (h : forest.Sound) (styled : List Styled) :
    forest.Follows (styled.foldl (fun forest style =>
      forest.updateNode style.place (Node.mapSelectors (change style))) forest) := by
  induction styled generalizing forest with
  | nil => exact .refl h
  | cons style rest ih =>
    have hfirst := h.select style.place (hc style)
    exact hfirst.trans (ih hfirst.sound)

theorem addSelectors (h : forest.Sound) (name : Bytes) (styled : List Styled) :
    forest.Follows (forest.addSelectors name styled) :=
  h.selectEach (fun _ _ hs => hs.acquire _) styled

theorem removeSelectors (h : forest.Sound) (name : Bytes) (styled : List Styled) :
    forest.Follows (forest.removeSelectors name styled) :=
  h.selectEach (fun _ _ hs => hs.release _) styled

theorem releaseTimes (h : forest.Sound) (slot : Slot) (times : Nat) :
    forest.Follows (forest.releaseTimes slot times).1 := by
  induction times generalizing forest with
  | zero => exact .refl h
  | succ times ih =>
    have hfirst := h.release slot.container slot.key
    exact hfirst.trans (ih hfirst.sound)

theorem remove (h : forest.Sound) (removal : Removal) :
    forest.Follows (forest.remove removal).1 := by
  cases removal with
  | one slot => exact h.releaseTimes slot 1
  | all slot => exact h.releaseTimes slot _

theorem removeEach (h : forest.Sound) (removals : List Removal) :
    forest.Follows (forest.removeEach removals).1 := by
  induction removals generalizing forest with
  | nil => exact .refl h
  | cons removal rest ih =>
    have hfirst := h.remove removal
    exact hfirst.trans (ih hfirst.sound)

theorem register (h : forest.Sound) (place : Place) (styles : Layer) :
    forest.Follows (forest.register place styles).forest := by
  have hrun := h.run (Walk.start place styles.compile) (Walk.bound styles.compile)
  exact hrun.trans (hrun.sound.addSelectors _ _)

theorem unregister (h : forest.Sound) (place : Place) (styles : Layer) :
    forest.Follows (forest.unregister place styles).forest := by
  have hremove := h.removeSelectors
    (forest.replay (some place) Selector.root .nothing styles.compile).className
    (forest.replay (some place) Selector.root .nothing styles.compile).styled
  exact hremove.trans (hremove.sound.removeEach _)

theorem clear (h : forest.Sound) (place : Place) : forest.Follows (forest.clear place).1 :=
  h.removeEach _

/-- Evicted nodes may be forgotten when nothing names them. -/
theorem settle (h : forest.Sound) : (ofContainer forest.root).Sound := by
  intro origin body hb
  cases origin with
  | none => exact h none body hb
  | some number => cases hb

theorem empty : (ofContainer .empty).Sound := by
  intro origin body hb
  cases origin with
  | none =>
    obtain rfl := Option.some.inj hb
    exact .empty
  | some number => cases hb

theorem typed (h : forest.Sound) {address : Address} {container : Container}
    (hc : forest.containerAt? address = some container) : container.Typed :=
  (h.container hc).tidy.typed

end Sound

/-! ## Places that calls take -/

/-- The node that a container has under a key is of that key. -/
theorem Sound.names_childPlace (h : forest.Sound) {key : Bytes} {container : Container}
    (hc : forest.container? place = some container) (hk : container.contains key = true) :
    forest.Names (forest.childPlace place key) key := by
  refine ⟨Nat.le_refl _, ?_⟩
  rw [← Cache.item?_isSome] at hk
  obtain ⟨node, hn⟩ := Option.isSome_iff_exists.mp hk
  rw [childPlace, locate_place, keyAt?, Address.child, nodeAt?_concat]
  have hnode : (forest.containerAt? (forest.locate place)).bind (·.item? key) = some node :=
    (congrArg (Option.bind · _) hc).trans hn
  exact (congrArg (Option.map Node.key) hnode).trans
    (congrArg some ((h.container hc).tidy.sound.key_of_item? hn))

/-- The place taken after a reference names the node that the reference is to. -/
theorem Sound.names_acquire (h : forest.Sound) (ho : forest.Opens place) {node : Node}
    (hf : node.Fresh) :
    (forest.acquire place node).1.Names ((forest.acquire place node).1.childPlace place node.key)
      node.key := by
  obtain ⟨container, hc⟩ := Option.isSome_iff_exists.mp ho.container?
  have hfollows := h.acquire place hf
  have hafter : (forest.acquire place node).1 =
      forest.updateContainerAt (forest.locate place) (·.acquire node) := by
    have hat : forest.containerAt? (forest.locate place) = some container := hc
    simp only [Forest.acquire, hat]
    split <;> rfl
  have hnow : (forest.acquire place node).1.container? place = some (container.acquire node) := by
    rw [hafter, Forest.container?, locate_congr (addresses_updateContainerAt _ _), containerAt?_eq,
      base?_updateContainerAt, if_pos rfl, Option.bind_map]
    have hat : forest.containerAt? (forest.locate place) = some container := hc
    rw [containerAt?_eq] at hat
    obtain ⟨body, hbase, hbody⟩ := Option.bind_eq_some_iff.mp hat
    rw [hbase, Option.bind_some, Function.comp_apply, bodyIn?_updateIn, hbody]
    rfl
  refine hfollows.sound.names_childPlace hnow ?_
  rw [← Cache.item?_isSome, Cache.item?_acquire, Node.keyed_key, if_pos rfl, Option.isSome_or]
  simp

/-- A container that a call can be made in. -/
theorem Sound.opens_place (h : forest.Sound) {rules : List Bytes}
    (hb : (bodyIn? forest.root (rules.map Key.atRule)).isSome) :
    forest.Opens (forest.place ⟨none, rules.map Key.atRule⟩) := by
  rcases List.eq_nil_or_concat rules with rfl | ⟨rules, rule, rfl⟩
  · exact .inl ⟨Nat.le_refl _, locate_place _⟩
  · rw [List.concat_eq_append, List.map_append] at hb ⊢
    have hheld := Container.holds_of_isSome_bodyIn? hb
    obtain ⟨body, node, hbody, hn⟩ := Container.item?_of_holds hheld
    refine .inr ⟨rule, ?_⟩
    have hc : forest.container? (forest.place ⟨none, rules.map Key.atRule⟩) = some body := by
      rw [container?_place, hbody]
    have hk : body.contains (Key.atRule rule) = true := by
      rw [← Cache.item?_isSome, hn]
      rfl
    have hnames := h.names_childPlace hc hk
    rwa [childPlace_place] at hnames

end Forest

/-! ## The registering walk -/

namespace Walk

variable {forest after : Forest} {walk : Walk}

/-- The places of a walk lead where the walk takes them to lead. -/
structure Kept (forest : Forest) (walk : Walk) : Prop where
  tasks : ∀ task ∈ walk.tasks, forest.Opens task.place
  styled : ∀ style ∈ walk.styled, ∃ declarations,
    forest.Names style.place (Key.style declarations)

/-- There is a container for each task, and a block for each selector when its
turn comes. -/
structure Gets (forest : Forest) (walk : Walk) : Prop where
  bodies : ∀ task ∈ walk.tasks, (forest.container? task.place).isSome
  styles : ∀ made style left, walk.styled = made ++ style :: left →
    (((forest.addSelectors walk.className made).node? style.place).bind Node.selectors?).isSome

namespace Kept

theorem start {place : Place} (h : forest.Opens place) (block : Block) :
    (Walk.start place block).Kept forest where
  tasks task hm := by
    rw [List.mem_singleton.mp hm]
    exact h
  styled style hm := absurd hm List.not_mem_nil

theorem follows (h : walk.Kept forest) (hf : forest.Follows after) : walk.Kept after where
  tasks task hm := hf.opens _ (h.tasks task hm)
  styled style hm := by
    obtain ⟨declarations, hn⟩ := h.styled style hm
    exact ⟨declarations, hf.names _ _ hn⟩

theorem step (hs : forest.Sound) (h : walk.Kept forest) :
    (Walk.step forest walk).2.1.Kept (Walk.step forest walk).1 := by
  have hkept := h.follows (hs.step walk)
  revert hkept
  unfold Walk.step
  split
  · exact id
  · rename_i place selector block rest htasks
    intro hkept
    have hfirst : .block place selector block ∈ walk.tasks := htasks ▸ List.mem_cons_self
    have hplace : forest.Opens place := h.tasks _ hfirst
    refine ⟨fun task hm => ?_, fun style hm => ?_⟩
    · rcases List.mem_append.mp hm with hm | hm
      · obtain ⟨child, -, rfl⟩ := List.mem_map.mp hm
        rw [Task.place_ofChild]
        exact hkept.tasks _ hfirst
      · exact hkept.tasks task (htasks ▸ List.mem_cons_of_mem _ hm)
    · rcases List.mem_append.mp hm with hm | hm
      · exact hkept.styled style hm
      · rw [List.mem_singleton.mp hm]
        exact ⟨_, hs.names_acquire hplace (Stop.block [] [] _).fresh_node⟩
  · rename_i place selector rule body rest htasks
    intro hkept
    have hfirst : .atRule place selector rule body ∈ walk.tasks := htasks ▸ List.mem_cons_self
    have hplace : forest.Opens place := h.tasks _ hfirst
    refine ⟨fun task hm => ?_, hkept.styled⟩
    rcases List.mem_cons.mp hm with rfl | hm
    · exact .inr ⟨rule, hs.names_acquire hplace (Stop.atRule [] rule).fresh_node⟩
    · exact hkept.tasks task (htasks ▸ List.mem_cons_of_mem _ hm)

theorem run (hs : forest.Sound) (h : walk.Kept forest) (steps : Nat) :
    (walk.run forest steps).2.1.Kept (walk.run forest steps).1 := by
  induction steps generalizing forest walk with
  | zero => exact h
  | succ steps ih => exact ih (hs.step walk).sound (h.step hs)

theorem gets (hs : forest.Sound) (h : walk.Kept forest) : walk.Gets forest where
  bodies task hm := (h.tasks task hm).container?
  styles made style left he := by
    have hm : style ∈ walk.styled := by simp [he]
    obtain ⟨declarations, hn⟩ := h.styled style hm
    exact ((hs.addSelectors walk.className made).names _ _ hn).selectors?

end Kept
end Walk

/-! ## The undoing walk -/

namespace Found

variable {forest : Forest} {found : Found}

/-- What was found is what it was looked up as. -/
structure Kept (forest : Forest) (found : Found) : Prop where
  slots : ∀ slot ∈ found.slots, forest.Names (forest.slotPlace slot) slot.key
  styled : ∀ style ∈ found.styled, ∃ declarations,
    forest.Names style.place (Key.style declarations)

/-- There is a body in each at-rule that was found, and a block for each
selector when its turn comes. -/
structure Gets (forest : Forest) (found : Found) : Prop where
  bodies : ∀ slot ∈ found.slots, ascii "a" <+: slot.key →
    ((forest.node? (forest.slotPlace slot)).bind Node.body?).isSome
  styles : ∀ made style left, found.styled = made ++ style :: left →
    (((forest.removeSelectors found.className made).node? style.place).bind Node.selectors?).isSome

namespace Kept

theorem nothing (forest : Forest) : Found.nothing.Kept forest :=
  ⟨fun _ hm => absurd hm List.not_mem_nil, fun _ hm => absurd hm List.not_mem_nil⟩

theorem slot? (hs : forest.Sound) {container : Option Place} {key : Bytes} {slot : Slot}
    (h : forest.slot? container key = some slot) :
    slot.key = key ∧ forest.Names (forest.slotPlace slot) key := by
  unfold Forest.slot? at h
  split at h
  · cases h
  · rename_i place
    obtain ⟨hany, hslot⟩ := Option.ite_none_right_eq_some.mp h
    obtain rfl := Option.some.inj hslot
    obtain ⟨body, hbody, hk⟩ := (Option.any_eq_true _ _).mp hany
    exact ⟨rfl, hs.names_childPlace hbody hk⟩

theorem meetBlock (hs : forest.Sound) (h : found.Kept forest) (container : Option Place)
    (selector : Bytes) (block : Block) :
    (forest.meetBlock container selector block found).Kept forest := by
  unfold Forest.meetBlock
  simp only
  split
  · rename_i slot hslot
    obtain ⟨hkey, hn⟩ := slot? hs hslot
    refine ⟨fun other hm => ?_, fun style hm => ?_⟩
    · rcases List.mem_append.mp hm with hm | hm
      · exact h.slots other hm
      · rw [List.mem_singleton.mp hm, hkey]
        exact hn
    · rcases List.mem_append.mp hm with hm | hm
      · exact h.styled style hm
      · rw [List.mem_singleton.mp hm]
        exact ⟨_, hn⟩
  · exact ⟨h.slots, h.styled⟩

theorem meetAtRule (hs : forest.Sound) (h : found.Kept forest) (container : Option Place)
    (key : Bytes) :
    Kept forest { found with slots := found.slots ++ (forest.slot? container key).toList } := by
  refine ⟨fun slot hm => ?_, h.styled⟩
  rcases List.mem_append.mp hm with hm | hm
  · exact h.slots slot hm
  · obtain ⟨hkey, hn⟩ := slot? hs (Option.mem_toList.mp hm)
    rw [hkey]
    exact hn

mutual

theorem replay (hs : forest.Sound) {container : Option Place} {selector : Bytes} {found : Found}
    (h : found.Kept forest) :
    ∀ block : Block, (forest.replay container selector found block).Kept forest
  | .mk declarations children => by
    rw [Forest.replay]
    exact replayAll hs (h.meetBlock hs container selector _) children

theorem replayAll (hs : forest.Sound) {container : Option Place} {selector : Bytes}
    {found : Found} (h : found.Kept forest) : ∀ children : List (Bytes × Block),
      (forest.replayAll container selector found children).Kept forest
  | [] => by
    rw [Forest.replayAll]
    exact h
  | (key, block) :: rest => by
    rw [Forest.replayAll]
    split
    · exact replayAll hs (replay hs (h.meetAtRule hs container _) block) rest
    · exact replayAll hs (replay hs h block) rest

end

theorem gets (hs : forest.Sound) (h : found.Kept forest) : found.Gets forest where
  bodies slot hm hk := by
    obtain ⟨node, hnode, hkey⟩ := Option.map_eq_some_iff.mp (h.slots slot hm).key
    rw [← hkey] at hk
    rw [Forest.node?, hnode]
    exact Node.body?_of_prefix hk
  styles made style left he := by
    have hm : style ∈ found.styled := by simp [he]
    obtain ⟨declarations, hn⟩ := h.styled style hm
    exact ((hs.removeSelectors found.className made).names _ _ hn).selectors?

end Kept
end Found
end StyleRegistry
