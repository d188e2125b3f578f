import StyleRegistry.Proofs.Rule.ClassName
import StyleRegistry.Proofs.Rule.Removal
import StyleRegistry.Proofs.Style.Preorder

/-! # Both walks name the class

The class of a tree is named by the walk that registers it and again by the
walk that undoes it. The first takes references as it goes and may find the
container changed by listeners after each; the second only looks up, and where
an at-rule is missing it goes on without a container. Neither lets what it finds
decide where it goes, so both pass through the layers of the tree in pre-order
and mix the same texts. -/
namespace StyleRegistry

open Bytes (ascii)
open Selector (rulesOf resolve)

theorem Hash.chain_append (seed : UInt32) (first second : List Bytes) :
    chain seed (first ++ second) = chain (chain seed first) second := List.foldl_append

/-! ## Blocks in pre-order -/

/-- What a walk meets at the end of a way: the at-rules on the way, the selector
relative to the tree, the layer's declarations. -/
def Layer.met (visit : List Bytes × Layer) : List Bytes × Bytes × Bytes :=
  (rulesOf visit.1, resolve Selector.root visit.1, visit.2.text)

namespace Layer

/-- A child's selector is that of its parent with its own key put in last. -/
theorem stops_ofChild (place : Place) (keys : List Bytes) (key : Bytes) (layer : Layer) :
    ((Task.ofChild place (resolve Selector.root keys) (key, layer.compile)).stops
        (rulesOf keys)).filterMap Stop.block? =
      (layer.compile.stops (rulesOf (keys ++ [key]))
        (resolve Selector.root (keys ++ [key]))).filterMap Stop.block? := by
  rw [Selector.rulesOf_concat, Selector.resolve_concat, Task.ofChild]
  split <;> rfl

/-- The blocks below a way stand in the tree's pre-order. -/
theorem blocks_stops (keys : List Bytes) (layer : Layer) :
    (layer.compile.stops (rulesOf keys) (resolve Selector.root keys)).filterMap Stop.block? =
      (layer.preorder keys).map met := by
  induction keys, layer using preorder.induct with
  | case1 keys layer ih =>
    have hchild : ∀ child ∈ layer.children,
        ((Task.ofChild ⟨0, .root⟩ (resolve Selector.root keys) (child.1, child.2.compile)).stops
            (rulesOf keys)).filterMap Stop.block? =
          (child.2.preorder (keys ++ [child.1])).map met := by
      intro child hm
      rw [stops_ofChild]
      exact ih ⟨child, hm⟩
    rw [compile_eq, Block.stops, Block.stopsAll_eq _ _ ⟨0, .root⟩, List.filterMap_cons, preorder_eq,
      List.map_cons, List.map_flatMap, List.map_map, List.flatMap_map, List.filterMap_flatMap]
    exact congrArg (_ :: ·) (List.flatMap_congr hchild)

theorem compiled_eq_preorder (styles : Layer) : styles.compiled = (styles.preorder []).map met :=
  blocks_stops [] styles

/-- The class name is mixed from the layers in pre-order: the selector of each
relative to the tree, then its declarations. -/
theorem texts_eq_preorder (styles : Layer) : styles.texts =
    (styles.preorder []).flatMap fun visit => [resolve Selector.root visit.1, visit.2.text] := by
  rw [texts_eq, pairs, compiled_eq_preorder, List.map_map, List.flatMap_map]
  rfl

end Layer

/-! ## The registering walk in any forests -/

namespace Walk

/-- The walk after a step in each of the forests, one after another. -/
def through (walk : Walk) (forests : List Forest) : Walk :=
  forests.foldl (fun walk forest => (step forest walk).2.1) walk

variable {walk : Walk}

/-- Whatever the forest holds, a step makes the first stop that is left. -/
theorem step_duty {duty : Duty} {duties : List Duty}
    (ht : walk.tasks = duty.2 :: duties.map Prod.snd) (forest : Forest) :
    ∃ (stop : Stop) (added : List Duty) (place : Place),
      duty.stops = stop :: added.flatMap Duty.stops ∧
      (step forest walk).2.1 =
        ⟨(added ++ duties).map Prod.snd,
          walk.styled ++ (stop.selector?.map fun selector => ⟨selector, place⟩).toList,
          Hash.chain walk.hash stop.texts⟩ := by
  obtain ⟨rules, task⟩ := duty
  rw [step, ht]
  cases task with
  | block place selector block =>
    obtain ⟨declarations, children⟩ := block
    let added := children.map fun child => (rules, Task.ofChild place selector child)
    let node := Node.fresh declarations
    let styled := (forest.acquire place node).1.childPlace place node.key
    refine ⟨.block rules selector declarations, added, styled, ?_, ?_⟩
    · rw [Duty.stops, Task.stops, Block.stops, Block.stopsAll_eq _ _ place, List.flatMap_map,
        List.flatMap_map]
      rfl
    · rw [List.map_append, List.map_map]
      rfl
  | atRule place selector rule body =>
    let inner := (forest.acquire place (Node.freshAtRule rule)).1.childPlace place (Key.atRule rule)
    refine ⟨.atRule rules rule, [(rules ++ [rule], .block inner selector body)], place, ?_, ?_⟩
    · rw [List.flatMap_singleton]
      rfl
    · exact congrArg (fun styled => (⟨_, styled, _⟩ : Walk)) (List.append_nil walk.styled).symm

/-- The selectors of the blocks that the walk has met, in order. -/
def selectors (walk : Walk) : List Bytes := walk.styled.map Styled.selector

theorem through_of_done (h : walk.tasks = []) (forests : List Forest) :
    walk.through forests = walk := by
  induction forests with
  | nil => rfl
  | cons forest rest ih =>
    rw [through, List.foldl_cons, step, h]
    exact ih

/-- Each step makes one of the stops that are left, while there are any. -/
theorem through_spec {duties : List Duty} (ht : walk.tasks = duties.map Prod.snd)
    (forests : List Forest) :
    ∃ (made : List Stop) (left : List Duty),
      duties.flatMap Duty.stops = made ++ left.flatMap Duty.stops ∧
      (walk.through forests).tasks = left.map Prod.snd ∧
      (walk.through forests).selectors = walk.selectors ++ made.filterMap Stop.selector? ∧
      (walk.through forests).hash = Hash.chain walk.hash (made.flatMap Stop.texts) ∧
      (left = [] ∨ made.length = forests.length) := by
  induction forests generalizing walk duties with
  | nil => exact ⟨[], duties, rfl, ht, (List.append_nil _).symm, rfl, .inr rfl⟩
  | cons forest rest ih =>
    cases duties with
    | nil =>
      rw [through_of_done ht]
      exact ⟨[], [], rfl, ht, (List.append_nil _).symm, rfl, .inl rfl⟩
    | cons duty duties =>
      obtain ⟨stop, added, place, hs, hstep⟩ := step_duty ht forest
      obtain ⟨made, left, hstops, htasks, hsel, hhash, hlen⟩ :=
        @ih (step forest walk).2.1 (added ++ duties) (by rw [hstep])
      rw [through, List.foldl_cons, ← through]
      refine ⟨stop :: made, left, ?_, htasks, ?_, ?_, hlen.imp id (congrArg (· + 1))⟩
      · rw [List.flatMap_cons, hs, List.cons_append, ← List.flatMap_append, hstops]
        rfl
      · rw [hsel, hstep, selectors, List.map_append, List.append_assoc, selectors]
        cases stop <;> rfl
      · rw [hhash, hstep, List.flatMap_cons, Hash.chain_append]

/-- A run of a walk steps through the forests that it leaves one after another. -/
theorem run_eq_through (forest : Forest) (walk : Walk) (steps : Nat) :
    ∃ forests : List Forest, forests.length = steps ∧
      (walk.run forest steps).2.1 = walk.through forests := by
  induction steps generalizing forest walk with
  | zero => exact ⟨[], rfl, rfl⟩
  | succ steps ih =>
    obtain ⟨forests, hl, hr⟩ := ih (step forest walk).1 (step forest walk).2.1
    exact ⟨forest :: forests, congrArg (· + 1) hl, hr⟩

/-- The walk of a tree, once it has no tasks left. -/
theorem through_done (place : Place) (styles : Layer) {forests : List Forest}
    (hd : ((start place styles.compile).through forests).tasks = []) :
    ((start place styles.compile).through forests).selectors =
        styles.stops.filterMap Stop.selector? ∧
      ((start place styles.compile).through forests).className = styles.className := by
  let duty : Duty := ([], .block place Selector.root styles.compile)
  obtain ⟨made, left, hs, ht, hsel, hhash, -⟩ :=
    @through_spec (start place styles.compile) [duty] rfl forests
  obtain rfl : left = [] := List.map_eq_nil_iff.mp (ht.symm.trans hd)
  obtain rfl : styles.stops = made := by
    rw [List.flatMap_nil, List.append_nil, List.flatMap_singleton] at hs
    exact hs
  exact ⟨hsel, congrArg Hash.text hhash⟩

/-- Twice as many steps as there are layers leave no tasks. -/
theorem through_bound (place : Place) (styles : Layer) {forests : List Forest}
    (hl : bound styles.compile ≤ forests.length) :
    ((start place styles.compile).through forests).tasks = [] := by
  let duty : Duty := ([], .block place Selector.root styles.compile)
  obtain ⟨made, left, hs, ht, -, -, hdone⟩ :=
    @through_spec (start place styles.compile) [duty] rfl forests
  rcases hdone with rfl | hmade
  · exact ht
  · have hlen := congrArg List.length hs
    have hb := Block.length_stops [] Selector.root styles.compile
    rw [List.flatMap_singleton, List.length_append, hmade] at hlen
    have : (Duty.stops duty).length + 1 ≤ bound styles.compile := hb
    omega

/-- A run of so many steps comes to its end and names the class. -/
theorem run_bound (forest : Forest) (place : Place) (styles : Layer) :
    let last := ((start place styles.compile).run forest (bound styles.compile)).2.1
    last.tasks = [] ∧ last.className = styles.className := by
  obtain ⟨forests, hl, hr⟩ :=
    run_eq_through forest (start place styles.compile) (bound styles.compile)
  have hdone := through_bound place styles (Nat.le_of_eq hl.symm)
  rw [hr]
  exact ⟨hdone, (through_done place styles hdone).2⟩

end Walk

/-! ## The undoing walk in any container -/

namespace Forest

variable (forest : Forest)

theorem hash_meetBlock (container : Option Place) (selector : Bytes) (block : Block)
    (found : Found) : (forest.meetBlock container selector block found).hash =
      Hash.chain found.hash [selector, block.declarations] := by
  unfold meetBlock
  split <;> rfl

mutual

theorem hash_replay (container : Option Place) (rules : List Bytes) (selector : Bytes)
    (found : Found) : ∀ block : Block, (forest.replay container selector found block).hash =
      Hash.chain found.hash ((block.stops rules selector).flatMap Stop.texts)
  | .mk declarations children => by
    rw [replay, hash_replayAll container rules selector _ children, hash_meetBlock, Block.stops,
      List.flatMap_cons, Hash.chain_append]
    rfl

theorem hash_replayAll (container : Option Place) (rules : List Bytes) (selector : Bytes)
    (found : Found) : ∀ children : List (Bytes × Block),
      (forest.replayAll container selector found children).hash =
        Hash.chain found.hash ((Block.stopsAll rules selector children).flatMap Stop.texts)
  | [] => by rw [replayAll, Block.stopsAll]; rfl
  | (key, block) :: rest => by
    rw [replayAll, Block.stopsAll, List.flatMap_append]
    split
    · simp only
      rw [hash_replayAll container rules selector _ rest, hash_replay _ (rules ++ [key]) selector,
        List.flatMap_cons, Hash.chain_append]
      rfl
    · rw [hash_replayAll container rules selector _ rest, hash_replay _ rules _, Hash.chain_append]

end

/-! ## Class names -/

theorem className_register (place : Place) (styles : Layer) :
    (forest.register place styles).className = styles.className :=
  (Walk.run_bound forest place styles).2

theorem className_unregister (place : Place) (styles : Layer) :
    (forest.unregister place styles).className = styles.className :=
  congrArg Hash.text (forest.hash_replay (some place) [] Selector.root .nothing styles.compile)

end Forest

/-- **Registering and undoing name one class.** It is the hash chained from zero
over the layers of the tree in pre-order, each by its selector relative to the
tree and then its declarations; nested layers come in the order of their raw
keys. What the containers hold has no part in it, also when listeners change
them between the steps of the registering walk. -/
theorem Layer.className_register_unregister (styles : Layer) :
    let name := Hash.text <| Hash.chain 0 <|
      (styles.preorder []).flatMap fun visit => [resolve Selector.root visit.1, visit.2.text]
    (∀ (forest other : Forest) (place place' : Place),
      (forest.register place styles).className = name ∧
        (other.unregister place' styles).className = name) ∧
    (∀ (place : Place) (forests : List Forest),
      let walk := (Walk.start place styles.compile).through forests
      (Walk.bound styles.compile ≤ forests.length → walk.tasks = []) ∧
        (walk.tasks = [] → walk.className = name)) ∧
    ∀ (keys : List Bytes) (layer : Layer), ∃ entries : List (Bytes × Layer),
      entries.Perm layer.nestedEntries ∧ entries.Pairwise (fun a b => a.1 ≤ b.1) ∧
        layer.preorder keys = (keys, layer) ::
          entries.flatMap fun entry => entry.2.preorder (keys ++ [Bytes.trim entry.1]) := by
  intro name
  have hname : styles.className = name :=
    congrArg (fun texts => Hash.text (Hash.chain 0 texts)) styles.texts_eq_preorder
  refine ⟨fun forest other place place' => ⟨?_, ?_⟩, fun place forests => ⟨?_, ?_⟩,
    preorder_sorted⟩
  · rw [forest.className_register place styles, hname]
  · rw [other.className_unregister place' styles, hname]
  · exact Walk.through_bound place styles
  · exact fun hd => (Walk.through_done place styles hd).2.trans hname

/-- A walk in a container that listeners keep empty, and a look-up in one that
never had anything. -/
theorem Layer.className_of_kept_empty :
    let red : Layer := [(ascii "color", .scalar (.text (ascii "red")))]
    let styles : Layer := [(ascii "@media print", .nested [(ascii " .x", .nested red)])]
    let empty := Forest.ofContainer .empty
    let walk := (Walk.start (empty.place .root) styles.compile).through (List.replicate 6 empty)
    walk.tasks = [] ∧ walk.className = (empty.unregister (empty.place .root) styles).className := by
  intro red styles empty walk
  obtain ⟨hcalls, hwalk, -⟩ := className_register_unregister styles
  obtain ⟨hdone, hname⟩ := hwalk (empty.place .root) (List.replicate 6 empty)
  have htasks := hdone (by decide)
  exact ⟨htasks, (hname htasks).trans (hcalls empty empty (empty.place .root) _).2.symm⟩

end StyleRegistry
