import StyleRegistry.Proofs.Rule.Anchor
import StyleRegistry.Proofs.Rule.Effect

/-! # What registering does

The registering walk takes the reference of every stop of its tree, in order,
and mixes the texts of all stops into one hash. Its steps and places come down
to one fold over the stops, so registering raises each count by the number of
the tree's references. -/
namespace StyleRegistry

open Forest (bodyIn?)

/-! ## One stop -/

namespace Forest

def visit (forest : Forest) (stop : Stop) : Forest × Option Event :=
  forest.acquire (forest.place ⟨none, stop.path⟩) stop.node

/-- What the walk tells of its stops. -/
def arrivals (forest : Forest) : List Stop → List Event
  | [] => []
  | stop :: rest =>
    (forest.visit stop).2.toList ++ (forest.visit stop).1.arrivals rest

/-- The block that a stop met, for its selector to be changed. -/
def styled? (forest : Forest) (stop : Stop) : Option Styled :=
  stop.selector?.map fun selector => ⟨selector, forest.place ⟨none, stop.path ++ [stop.key]⟩⟩

theorem visit_fst (forest : Forest) (stop : Stop) : (forest.visit stop).1 =
    ⟨forest.root.acquireAt stop.path stop.node, forest.evictions⟩ :=
  acquire_place stop.path stop.node

end Forest

/-! ## The registering walk -/

namespace Task

def place : Task → Place
  | .block place _ _ => place
  | .atRule place _ _ _ => place

def stops (rules : List Bytes) : Task → List Stop
  | .block _ selector tree => tree.stops rules selector
  | .atRule _ selector rule body => .atRule rules rule :: body.stops (rules ++ [rule]) selector

theorem place_ofChild (place : Place) (selector : Bytes) (child : Bytes × Block) :
    (ofChild place selector child).place = place := by
  unfold ofChild
  split <;> rfl

end Task

theorem Block.stopsAll_eq (rules : List Bytes) (selector : Bytes) (place : Place)
    (children : List (Bytes × Block)) : stopsAll rules selector children =
      (children.map (Task.ofChild place selector)).flatMap (Task.stops rules) := by
  induction children with
  | nil => rfl
  | cons child rest ih =>
    rw [stopsAll, ih, List.map_cons, List.flatMap_cons, Task.ofChild]
    split <;> rfl

namespace Walk

/-- A task with the texts of the at-rules that it stands below. -/
abbrev Duty := List Bytes × Task

def Duty.stops (duty : Duty) : List Stop := duty.2.stops duty.1

/-- The task's place is where those at-rules lead to. -/
def Duty.At (forest : Forest) (duty : Duty) : Prop :=
  duty.2.place = forest.place ⟨none, duty.1.map Key.atRule⟩

/-- The walk after a stop, with the tasks that are left. -/
def after (walk : Walk) (forest : Forest) (stop : Stop) (tasks : List Task) : Walk :=
  ⟨tasks, walk.styled ++ (forest.styled? stop).toList, Hash.chain walk.hash stop.texts⟩

variable {forest : Forest} {walk : Walk}

/-- A step makes the first stop that is left, wherever the walk's places were
taken. The tasks that it adds stand in the same container or in the stop's own. -/
theorem step_anchored {duty : Duty} {duties : List Duty}
    (ht : walk.tasks = duty.2 :: duties.map Prod.snd)
    (hd : forest.Anchored duty.2.place (duty.1.map Key.atRule)) :
    ∃ (stop : Stop) (added : List Duty), stop.rules = duty.1 ∧
      duty.stops = stop :: added.flatMap Duty.stops ∧
      (∀ d ∈ added, d.1 = duty.1 ∧ d.2.place = duty.2.place ∨
        d.1.map Key.atRule = stop.path ++ [stop.key] ∧ d.At forest) ∧
      Walk.step forest walk = ((forest.visit stop).1,
        walk.after forest stop ((added ++ duties).map Prod.snd), (forest.visit stop).2) := by
  obtain ⟨rules, task⟩ := duty
  rw [step, ht]
  cases task with
  | block place selector block =>
    obtain ⟨declarations, children⟩ := block
    let stop := Stop.block rules selector declarations
    refine ⟨stop, children.map fun child => (rules, Task.ofChild place selector child),
      rfl, ?_, ?_, ?_⟩
    · rw [Duty.stops, Task.stops, Block.stops, Block.stopsAll_eq _ _ place, List.flatMap_map,
        List.flatMap_map]
      rfl
    · intro duty hm
      obtain ⟨child, -, rfl⟩ := List.mem_map.mp hm
      exact .inl ⟨rfl, Task.place_ofChild _ _ _⟩
    · have hv : forest.acquire place (Node.fresh declarations) = forest.visit stop :=
        hd.acquire _
      have hc : (forest.visit stop).1.childPlace place (Key.style declarations) =
          forest.place ⟨none, stop.path ++ [stop.key]⟩ := by
        rw [Forest.visit_fst]
        exact (hd.of_same rfl).childPlace _
      simp only [Block.declarations, hv]
      rw [List.map_append, List.map_map]
      exact congrArg (fun place => ((forest.visit stop).1,
        (⟨_, walk.styled ++ [⟨selector, place⟩], _⟩ : Walk), (forest.visit stop).2)) hc
  | atRule place selector rule body =>
    let stop := Stop.atRule rules rule
    let inner := forest.place ⟨none, (rules ++ [rule]).map Key.atRule⟩
    refine ⟨stop, [(rules ++ [rule], .block inner selector body)], rfl, ?_, ?_, ?_⟩
    · rw [List.flatMap_singleton]
      rfl
    · intro duty hm
      rw [List.mem_singleton.mp hm]
      exact .inr ⟨List.map_append, rfl⟩
    · have hv : forest.acquire place (Node.freshAtRule rule) = forest.visit stop := hd.acquire _
      have hc : (forest.visit stop).1.childPlace place (Key.atRule rule) = inner := by
        rw [Forest.visit_fst]
        refine ((hd.of_same rfl).childPlace _).trans ?_
        simp only [inner, List.map_append]
        rfl
      have hn : (Node.freshAtRule rule).key = Key.atRule rule := rfl
      simp only [hv, hn, hc]
      rw [after, Forest.styled?, Stop.selector?, Option.map_none, Option.toList_none,
        List.append_nil]
      rfl

/-- A step whose places were taken just now adds such places. -/
theorem step_spec {duty : Duty} {duties : List Duty}
    (ht : walk.tasks = duty.2 :: duties.map Prod.snd) (hd : duty.At forest) :
    ∃ (stop : Stop) (added : List Duty),
      duty.stops = stop :: added.flatMap Duty.stops ∧ (∀ duty ∈ added, duty.At forest) ∧
      Walk.step forest walk = ((forest.visit stop).1,
        walk.after forest stop ((added ++ duties).map Prod.snd), (forest.visit stop).2) := by
  have ha : forest.Anchored duty.2.place (duty.1.map Key.atRule) := by
    rw [show duty.2.place = _ from hd]
    exact Forest.anchored_place _ _
  obtain ⟨stop, added, -, hs, hadded, hstep⟩ := step_anchored ht ha
  refine ⟨stop, added, hs, fun d hm => ?_, hstep⟩
  rcases hadded d hm with ⟨hr, hp⟩ | ⟨-, hat⟩
  · rw [Duty.At, hr, hp]
    exact hd
  · exact hat

theorem run_of_done (h : walk.tasks = []) (forest : Forest) (steps : Nat) :
    walk.run forest steps = (forest, walk, []) := by
  induction steps with
  | zero => rfl
  | succ steps ih =>
    have hstep : Walk.step forest walk = (forest, walk, none) := by
      rw [step, h]
    rw [run, hstep]
    simp only [ih]
    rfl

/-- A run that is long enough makes the stops that are left, in order. -/
theorem run_spec {duties : List Duty} {steps : Nat} (ht : walk.tasks = duties.map Prod.snd)
    (hd : ∀ duty ∈ duties, duty.At forest)
    (hl : (duties.flatMap Duty.stops).length ≤ steps) :
    let stops := duties.flatMap Duty.stops
    walk.run forest steps = (⟨forest.root.acquireEach stops, forest.evictions⟩,
      ⟨[], walk.styled ++ stops.filterMap forest.styled?,
        Hash.chain walk.hash (stops.flatMap Stop.texts)⟩, forest.arrivals stops) := by
  intro stops
  induction steps generalizing forest walk duties with
  | zero =>
    cases duties with
    | nil =>
      obtain ⟨tasks, styled, hash⟩ := walk
      obtain rfl : tasks = [] := ht
      simp [stops, run, Hash.chain, Forest.arrivals]
    | cons duty duties =>
      obtain ⟨stop, added, hs, -, -⟩ := step_spec ht (hd duty List.mem_cons_self)
      rw [List.flatMap_cons, hs] at hl
      exact absurd hl (Nat.not_succ_le_zero _)
  | succ steps ih =>
    cases duties with
    | nil =>
      obtain ⟨tasks, styled, hash⟩ := walk
      obtain rfl : tasks = [] := ht
      rw [run_of_done rfl]
      simp [stops, Hash.chain, Forest.arrivals]
    | cons duty duties =>
      obtain ⟨stop, added, hs, ha, hstep⟩ := step_spec ht (hd duty List.mem_cons_self)
      have hd' : ∀ d ∈ added ++ duties, d.At (forest.visit stop).1 := by
        intro d hm
        rw [Forest.visit_fst]
        rcases List.mem_append.mp hm with hm | hm
        · exact ha d hm
        · exact hd d (List.mem_cons_of_mem _ hm)
      have hl' : ((added ++ duties).flatMap Duty.stops).length ≤ steps := by
        rw [List.flatMap_cons, hs] at hl
        rw [List.flatMap_append]
        exact Nat.le_of_succ_le_succ hl
      have hstops : stops = stop :: (added ++ duties).flatMap Duty.stops := by
        rw [List.flatMap_append, ← List.cons_append, ← hs]
        rfl
      have hrun := @ih (forest.visit stop).1 (walk.after forest stop _) _ rfl hd' hl'
      rw [hstops, run, hstep]
      simp only at hrun ⊢
      rw [hrun]
      generalize (added ++ duties).flatMap Duty.stops = rest
      simp only [after, Forest.arrivals, List.filterMap_eq_flatMap_toList, List.flatMap_cons,
        Forest.visit_fst, List.append_assoc, Hash.chain, List.foldl_append,
        Container.acquireEach_cons]
      rfl

end Walk

/-! ## Selectors -/

namespace Forest

variable {forest : Forest}

def selectStyled (change : Selector → Cache Selector → Cache Selector) (name : Bytes)
    (forest : Forest) (style : Styled) : Forest :=
  forest.updateNode style.place (Node.mapSelectors (change (Selector.below name style.selector)))

/-- The place of the node that a stop met. -/
def placeOf (met : Forest) (stop : Stop) : Place := met.place ⟨none, stop.path ++ [stop.key]⟩

/-- A change of the selectors at the places of blocks is one along their ways,
whenever each block was met. -/
theorem foldl_selectStyled_visits {visits : List (Forest × Stop)}
    (h : ∀ visit ∈ visits,
      forest.Anchored (visit.1.placeOf visit.2) (visit.2.path ++ [visit.2.key]))
    (change : Selector → Cache Selector → Cache Selector) (name : Bytes) (root : Container) :
    (visits.filterMap fun visit => visit.1.styled? visit.2).foldl (selectStyled change name)
        ⟨root, forest.evictions⟩ =
      ⟨root.selectEach change name (visits.map Prod.snd), forest.evictions⟩ := by
  induction visits generalizing root with
  | nil => rfl
  | cons visit rest ih =>
    obtain ⟨met, stop⟩ := visit
    have hrest := ih fun visit hm => h visit (List.mem_cons_of_mem _ hm)
    cases stop with
    | block rules selector declarations =>
      let path := rules.map Key.atRule
      let way := path ++ [Key.style declarations]
      let alter := change (Selector.below name selector)
      have hplace : forest.Anchored (met.place ⟨none, way⟩) way := h _ List.mem_cons_self
      have ha : Anchored ⟨root, forest.evictions⟩ (met.place ⟨none, way⟩) way :=
        hplace.of_same rfl
      have hu := (ha.updateNode (Node.mapSelectors alter)).trans (mapSelectors_place _ _ alter)
      have hlast := hrest (root.selectAt path (Key.style declarations) alter)
      rw [← hu] at hlast
      exact hlast
    | atRule rules rule => exact hrest root

theorem foldl_selectStyled (forest : Forest)
    (change : Selector → Cache Selector → Cache Selector) (name : Bytes) (stops : List Stop)
    (root : Container) :
    (stops.filterMap forest.styled?).foldl (selectStyled change name) ⟨root, forest.evictions⟩ =
      ⟨root.selectEach change name stops, forest.evictions⟩ := by
  have hv : ∀ visit ∈ stops.map (Prod.mk forest), forest.Anchored (visit.1.placeOf visit.2)
      (visit.2.path ++ [visit.2.key]) := by
    intro visit hm
    obtain ⟨stop, -, rfl⟩ := List.mem_map.mp hm
    exact anchored_place _ _
  have hf := foldl_selectStyled_visits hv change name root
  rw [List.filterMap_map, List.map_map] at hf
  simpa [Function.comp_def] using hf

theorem addSelectors_styled (name : Bytes) (root : Container) (stops : List Stop) :
    addSelectors ⟨root, forest.evictions⟩ name (stops.filterMap forest.styled?) =
      ⟨root.selectEach Container.grant name stops, forest.evictions⟩ :=
  foldl_selectStyled forest Container.grant name stops root

theorem removeSelectors_styled (name : Bytes) (stops : List Stop) :
    forest.removeSelectors name (stops.filterMap forest.styled?) =
      ⟨forest.root.selectEach Container.revoke name stops, forest.evictions⟩ :=
  foldl_selectStyled forest Container.revoke name stops forest.root

end Forest

/-! ## Registering -/

/-- A container once a tree is registered: it takes the references of the tree's
stops, in order, and then gives each block on the way its selector. -/
def Container.registered (root : Container) (styles : Layer) : Container :=
  (root.acquireEach styles.stops).selectEach grant styles.className styles.stops

namespace Forest

variable {forest : Forest}

theorem register_eq (styles : Layer) :
    forest.register (forest.place .root) styles =
      ⟨⟨forest.root.registered styles, forest.evictions⟩, forest.arrivals styles.stops,
        styles.className⟩ := by
  have hl : styles.stops.length ≤ Walk.bound styles.compile :=
    Nat.le_of_succ_le (Block.length_stops [] Selector.root styles.compile)
  let duty : Walk.Duty := ([], .block (forest.place .root) Selector.root styles.compile)
  have hs : [duty].flatMap Walk.Duty.stops = styles.stops := by
    rw [List.flatMap_singleton]
    rfl
  have hd : ∀ d ∈ [duty], d.At forest := by
    intro d hm
    rw [List.mem_singleton.mp hm]
    rfl
  have hr := @Walk.run_spec forest (Walk.start (forest.place .root) styles.compile) [duty]
    (Walk.bound styles.compile) rfl hd (hs ▸ hl)
  rw [hs] at hr
  simp only [Walk.start, List.nil_append] at hr
  have ha := forest.addSelectors_styled styles.className
    (forest.root.acquireEach styles.stops) styles.stops
  simp only [register, Walk.start, hr, Walk.className]
  rw [← Layer.texts, ← Layer.className, ha, Container.registered]

end Forest

/-! ## Counts -/

namespace Container

variable {root : Container}

theorem WellFormed.grounded (h : root.WellFormed) (styles : Layer) :
    root.Grounded styles.stops := by
  have hr : (bodyIn? root (List.map Key.atRule [])).isSome := rfl
  exact h.grounded_stops hr Selector.root styles.compile

theorem WellFormed.registered (h : root.WellFormed) (styles : Layer) :
    (root.registered styles).WellFormed := (h.acquireEach _).selectEach moves_grant _

theorem countAt_registered (h : root.WellFormed) (styles : Layer) (path : List Bytes)
    (key : Bytes) : (root.registered styles).countAt path key =
      root.countAt path key + styles.references path key := by
  rw [registered, countAt_selectEach, countAt_acquireEach (h.grounded styles), Layer.references]

theorem count_selectorsAt_registered (h : root.WellFormed) (styles : Layer) (path : List Bytes)
    (key selector : Bytes) : ((root.registered styles).selectorsAt path key).count selector =
      (root.selectorsAt path key).count selector +
        styles.selectorReferences path key selector := by
  have hh : ∀ stop ∈ styles.stops,
      (root.acquireEach styles.stops).holds stop.path stop.key = true := by
    intro stop hs
    rw [(h.acquireEach _).holds_iff, countAt_acquireEach (h.grounded styles)]
    exact Nat.lt_of_lt_of_le (Layer.references_pos hs) (Nat.le_add_left _ _)
  rw [registered, count_selectorsAt_selectEach moves_grant (h.acquireEach _) hh,
    selectorsAt_acquireEach (h.grounded styles), Layer.selectorReferences]

end Container
end StyleRegistry
