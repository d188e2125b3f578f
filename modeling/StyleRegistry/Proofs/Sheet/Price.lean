import StyleRegistry.Proofs.Rule.Weight
import StyleRegistry.Proofs.Sheet.Move

/-! # What a call is charged

A run is charged for its mass and for the frames on its stack. A call weighs more
than what it brings, and what it puts on the stack costs less than a unit of mass
is worth. The references that an undoing finds are as many as its tree has layers
and at-rules at most, and a clearing has as many keys as the top level. -/
namespace StyleRegistry.SheetSession

/-! ## Root containers that stay -/

def World.Seated (world : World) : Prop :=
  ∀ number sheet, world.sheet? number = some sheet → sheet.forest.Seated

/-- What counts references counts them in the root container. -/
def Frame.Seated : Frame → Prop
  | .removals _ left => ∀ slot, .all slot ∈ left → slot.container.address = .root
  | _ => True

structure Run.Seated (run : Run) : Prop where
  world : run.world.Seated
  stack : ∀ frame ∈ run.stack, frame.Seated

namespace World

variable {world : World} {number : Nat} {sheet : Sheet}

theorem seated_initial : World.initial.Seated := fun _ _ h => by cases h

theorem seated_settle (world : World) : world.settle.Seated := by
  intro number sheet h
  rw [sheet?, settle, List.getElem?_map] at h
  obtain ⟨before, -, rfl⟩ := Option.map_eq_some_iff.mp h
  exact Forest.seated_ofContainer _

theorem Seated.updateSheet (h : world.Seated) (hs : world.sheet? number = some sheet)
    {alter : Sheet → Sheet} (ha : (alter sheet).forest.Seated) :
    (world.updateSheet number alter).Seated := forall_updateSheet h hs ha

/-! ## The mass of a world -/

theorem sheet_mass_le (hs : world.sheet? number = some sheet) : sheet.mass ≤ world.mass :=
  (le_total Sheet.mass (List.mem_of_getElem? hs)).trans (Nat.le_add_right _ _)

theorem root_mass_le (hs : world.sheet? number = some sheet) :
    sheet.forest.root.mass ≤ world.mass :=
  (Nat.le_add_right _ _).trans (sheet_mass_le hs)

theorem mass_updateSheet (hs : world.sheet? number = some sheet) (alter : Sheet → Sheet) :
    (world.updateSheet number alter).mass + sheet.mass = world.mass + (alter sheet).mass := by
  have htotal := total_modify Sheet.mass hs alter
  simp only [mass, updateSheet]
  omega

theorem mass_setForest_le (hs : world.sheet? number = some sheet) {forest : Forest}
    {more : Nat} (h : sheet.forest.Adds forest more) :
    (world.setForest number forest).mass ≤ world.mass + more := by
  have htotal := mass_updateSheet hs fun sheet => { sheet with forest }
  have hroot := h.mass
  simp only [Sheet.mass, Sheet.container] at htotal
  rw [setForest]
  omega

theorem mass_updateEmitter {e : Emitter (Callback Call)} (he : world.emitter? number = some e)
    (alter : Emitter (Callback Call) → Emitter (Callback Call)) :
    (world.updateEmitter number alter).mass + observersMass e =
      world.mass + observersMass (alter e) := by
  have htotal := total_modify observersMass he alter
  simp only [mass, updateEmitter]
  omega

end World

/-! ## What is charged -/

def stackMass (frames : List Frame) : Nat := total (frames.map Frame.mass)

@[simp] theorem stackMass_nil : stackMass [] = 0 := rfl

@[simp] theorem stackMass_cons (frame : Frame) (frames : List Frame) :
    stackMass (frame :: frames) = frame.mass + stackMass frames := rfl

@[simp] theorem stackMass_append (frames rest : List Frame) :
    stackMass (frames ++ rest) = stackMass frames + stackMass rest := by
  simp [stackMass]

theorem Frame.changeCost_mono : Monotone Frame.changeCost := fun n m h => by
  unfold Frame.changeCost
  gcongr

theorem Frame.removalCost_mono (left : List Removal) :
    Monotone fun m => total (left.map (Frame.removalCost m)) := by
  intro n m h
  refine List.sum_le_sum fun removal _ => ?_
  have hchange := Frame.changeCost_mono h
  cases removal with
  | one slot => exact Nat.succ_le_succ hchange
  | all slot =>
    simp only [Frame.removalCost]
    gcongr

def tariff : Tariff Frame where
  reserve := Run.reserve
  cost := Frame.cost
  reserve_mono n m h := by
    have hchange := Frame.changeCost_mono h
    unfold Run.reserve
    gcongr
  cost_mono frame n m h := by
    cases frame with
    | script | answer | answerCount => exact Nat.le_refl _
    | change number event next =>
      simp only [Frame.cost]
      gcongr
    | report number report next =>
      simp only [Frame.cost]
      omega
    | walk number walk =>
      simp only [Frame.cost]
      omega
    | removals number left => exact Nat.succ_le_succ (Frame.removalCost_mono left h)
    | done number stage message =>
      simp only [Frame.cost]
      omega
  cost_pos m frame := by cases frame <;> exact Nat.succ_pos _

/-- The steps of a run with this stack. -/
def price (world : World) (stack : List Frame) : Nat :=
  tariff.bound (world.mass + stackMass stack) stack

theorem Run.bound_eq (run : Run) : run.bound = price run.world run.stack := rfl

theorem costs_tell_le (m number : Nat) (event : Option Event) :
    tariff.costs m (World.tell number event) ≤ Frame.changeCost m := by
  unfold World.tell
  cases event.filter Event.isTopLevel with
  | none => exact Nat.zero_le _
  | some event => exact Nat.le_refl _

theorem stackMass_tell (number : Nat) (event : Option Event) :
    stackMass (World.tell number event) = 0 := by
  unfold World.tell
  cases event.filter Event.isTopLevel <;> rfl

theorem removalCost_ones_le (m : Nat) (slots : List Slot) :
    total ((slots.map Removal.one).map (Frame.removalCost m)) ≤
      slots.length * (Frame.changeCost m + 1) := by
  have hone : ∀ removal ∈ slots.map Removal.one,
      Frame.removalCost m removal ≤ Frame.changeCost m + 1 := by
    intro removal hm
    obtain ⟨slot, -, rfl⟩ := List.mem_map.mp hm
    exact Nat.le_refl _
  have hle := total_le_length_mul (Frame.removalCost m) hone
  rwa [List.length_map] at hle

theorem lt_reserve {k m : Nat} (h : k ≤ m) :
    k * (m * (Frame.changeCost m + 1) + 1) + m + 9 < Run.reserve m := by
  have hmul := Nat.mul_le_mul_right (m * (Frame.changeCost m + 1) + 1) h
  rw [Run.reserve]
  omega

theorem changeCost_lt_reserve (m : Nat) : Frame.changeCost m < Run.reserve m := by
  rcases Nat.eq_zero_or_pos m with rfl | hm
  · decide
  · have hone := lt_reserve (k := 1) hm
    have hmul := Nat.le_mul_of_pos_left (Frame.changeCost m + 1) hm
    omega

/-- Each turn of a listener's leaves as many steps less as a report can take. -/
theorem cost_change {m next : Nat} (h : next < m) (number : Nat) (event : Event) :
    Frame.cost m (.change number event next) =
      Frame.cost m (.change number event (next + 1)) + (m + 4) := by
  obtain ⟨k, rfl⟩ := Nat.exists_eq_add_of_lt h
  have hbefore : next + k + 1 - next = k + 1 := by omega
  have hafter : next + k + 1 - (next + 1) = k := by omega
  rw [Frame.cost, Frame.cost, hbefore, hafter, Nat.succ_mul]
  omega

/-! ## Reports -/

/-- A change that at most leaves observers to be told of a report. -/
structure World.Reports (world : World) (change : World × List Frame) : Prop where
  seated : world.Seated → change.1.Seated
  frames : ∀ frame ∈ change.2, frame.Seated
  mass : change.1.mass + stackMass change.2 = world.mass
  costs : ∀ m, tariff.costs m change.2 ≤ m + 1

namespace World

variable {world : World} {number : Nat} {sheet : Sheet}

theorem reports_nothing (world : World) : world.Reports (world, []) :=
  ⟨id, by simp, rfl, fun _ => Nat.zero_le _⟩

theorem reports_emit (world : World) (emitter : Nat) (report : Diagnostic) :
    world.Reports (world.emit emitter report) := by
  unfold emit
  split
  · rename_i haccepts
    obtain ⟨e, he, -⟩ := (Option.any_eq_true ..).mp haccepts
    have hmass := mass_updateEmitter he (·.record report)
    refine ⟨id, by simp [Frame.Seated], ?_, fun m => Nat.le_refl _⟩
    exact Nat.add_right_cancel hmass
  · exact world.reports_nothing

theorem reports_emitFrom (world : World) (sheet : Nat) (module stage message : Bytes) :
    world.Reports (world.emitFrom sheet module stage message) := by
  unfold emitFrom
  split
  · exact world.reports_nothing
  · split
    · exact world.reports_nothing
    · exact world.reports_emit ..

end World

/-! ## Calls -/

def Frame.isAnswer : Frame → Bool
  | .answer _ | .answerCount _ => true
  | _ => false

/-- What a call does that weighs so much. -/
structure World.Spends (world : World) (weight : Nat) (change : World × List Frame) : Prop where
  seated : change.1.Seated
  frames : ∀ frame ∈ change.2, frame.Seated
  mass : change.1.mass + stackMass change.2 < world.mass + weight
  costs : ∀ m, world.mass + weight ≤ m → tariff.costs m change.2 < Run.reserve m

theorem Sheet.mass_attach_le (sheet : Sheet) (emitter : Option Nat) :
    (sheet.attach emitter).mass ≤ sheet.mass + 1 := by
  have hleft := Subscribers.mass_remove_le Listener.mass sheet.listeners
  unfold attach
  cases sheet.monitor with
  | none =>
    cases emitter with
    | none => exact Nat.le_succ _
    | some number => simp [mass, container, Subscribers.mass_add, Listener.mass, Nat.add_assoc]
  | some id =>
    have hid := hleft id
    cases emitter with
    | none => exact (Nat.add_le_add_left hid _).trans (Nat.le_succ _)
    | some number =>
      simp only [mass, container, Subscribers.mass_add, Listener.mass]
      omega

theorem Sheet.forest_attach (sheet : Sheet) (emitter : Option Nat) :
    (sheet.attach emitter).forest = sheet.forest := by
  cases emitter <;> rfl

namespace World

variable {world after : World} {weight number : Nat} {sheet : Sheet} {styles : Layer}

theorem Spends.answer (hs : after.Seated) (hm : after.mass < world.mass + weight) {frame : Frame}
    (hf : frame.isAnswer = true) : world.Spends weight (after, [frame]) := by
  have hreserve (m : Nat) : 1 < Run.reserve m :=
    Nat.lt_of_lt_of_le (by decide) (Nat.le_add_left 10 _)
  cases frame with
  | answer | answerCount => exact ⟨hs, by simp [Frame.Seated], hm, fun m _ => hreserve m⟩
  | _ => cases hf

/-- Nothing changes but who is told, or where reports go. -/
theorem Spends.updateSheet (h : world.Seated) (hs : world.sheet? number = some sheet)
    {alter : Sheet → Sheet} (hforest : (alter sheet).forest = sheet.forest)
    (hm : (alter sheet).mass < sheet.mass + weight) {frame : Frame}
    (hf : frame.isAnswer = true) :
    world.Spends weight (world.updateSheet number alter, [frame]) := by
  refine .answer (h.updateSheet hs (hforest ▸ h number sheet hs)) ?_ hf
  have hmass := mass_updateSheet hs alter
  omega

theorem Spends.updateEmitter (h : world.Seated) {e : Emitter (Callback Call)}
    (he : world.emitter? number = some e)
    {alter : Emitter (Callback Call) → Emitter (Callback Call)}
    (hm : observersMass (alter e) < observersMass e + weight) {frame : Frame}
    (hf : frame.isAnswer = true) :
    world.Spends weight (world.updateEmitter number alter, [frame]) := by
  have hseated : (world.updateEmitter number alter).Seated := h
  have hmass := mass_updateEmitter he alter
  exact .answer hseated (by omega) hf

theorem Seated.onSheet (h : world.Seated) {act : Sheet → World × List Frame}
    {change : World × List Frame} (hc : world.onSheet number act = .ok change) (hw : 0 < weight)
    (ha : ∀ sheet, world.sheet? number = some sheet → world.Spends weight (act sheet)) :
    world.Spends weight change := by
  rcases onSheet_cases hc with ⟨-, rfl⟩ | ⟨sheet, hs, rfl⟩
  · exact .answer h (Nat.lt_add_of_pos_right hw) rfl
  · exact ha sheet hs

theorem Seated.onEmitter (h : world.Seated) {act : Emitter (Callback Call) → World × List Frame}
    {change : World × List Frame} (hc : world.onEmitter number act = .ok change) (hw : 0 < weight)
    (ha : ∀ e, world.emitter? number = some e → world.Spends weight (act e)) :
    world.Spends weight change := by
  rcases onEmitter_cases hc with rfl | ⟨e, he, rfl⟩
  · exact .answer h (Nat.lt_add_of_pos_right hw) rfl
  · exact ha e he

theorem spends_register (h : world.Seated) (number : Nat) (sheet : Sheet) (styles : Layer) :
    world.Spends (6 * styles.compile.size + 1)
      (world, [.walk number (.start sheet.top styles.compile)]) := by
  refine ⟨h, by simp [Frame.Seated], ?_, fun m _ => ?_⟩
  · simp only [stackMass_cons, stackMass_nil, Frame.mass, Walk.start, List.map_cons, List.map_nil,
      total_cons, total_nil, Task.mass]
    omega
  · have hreserve := lt_reserve (Nat.zero_le m)
    simp only [Tariff.costs_cons, Tariff.costs_nil, tariff, Frame.cost]
    omega

theorem spends_unregister (h : world.Seated) (hs : world.sheet? number = some sheet)
    (styles : Layer) : world.Spends (2 * styles.compile.size + 1)
      (world.beginUnregister number sheet styles) := by
  let found := sheet.forest.replay (some sheet.top) Selector.root .nothing styles.compile
  have hadds : sheet.forest.Adds (sheet.forest.removeSelectors found.className found.styled) 0 :=
    Forest.adds_selectors ..
  have hmass := mass_setForest_le hs hadds
  refine ⟨h.updateSheet hs (hadds.seated (h number sheet hs)), ?_, ?_, fun m hm => ?_⟩
  · simp [beginUnregister, Frame.Seated, Found.removals]
  · exact Nat.lt_succ_of_le (hmass.trans (Nat.le_add_right _ _))
  · have hslots : found.slots.length < 0 + 2 * styles.compile.size :=
      Forest.length_replay_lt ..
    have hle : found.slots.length ≤ m := by omega
    have hones := removalCost_ones_le m found.slots.reverse
    have hturn : Frame.changeCost m + 1 ≤ m * (Frame.changeCost m + 1) + 1 :=
      Nat.le_succ_of_le (Nat.le_mul_of_pos_left _ (by omega))
    have hmul := Nat.mul_le_mul_left found.slots.length hturn
    have hreserve := lt_reserve hle
    rw [List.length_reverse] at hones
    show total ((found.slots.reverse.map Removal.one).map (Frame.removalCost m)) + 1 +
      (m + 3 + (1 + 0)) < Run.reserve m
    omega

theorem spends_clear (h : world.Seated) (hs : world.sheet? number = some sheet) :
    world.Spends 3 (world.beginClear number sheet) := by
  refine ⟨h, ?_, Nat.lt_add_of_pos_right (by decide), fun m hm => ?_⟩
  · simp only [beginClear, List.mem_cons, List.not_mem_nil, or_false]
    rintro frame (rfl | rfl | rfl)
    · intro slot hslot
      obtain ⟨key, -, he⟩ := List.mem_map.mp hslot
      obtain rfl := Removal.all.inj he
      rfl
    · trivial
    · trivial
  · have hkeys : (sheet.forest.clearance sheet.top).length ≤ m := by
      have hroot := root_mass_le hs
      have hlength := sheet.forest.length_clearance_le
      unfold Sheet.top
      omega
    have hall : total ((sheet.forest.clearance sheet.top).map (Frame.removalCost m)) ≤
        (sheet.forest.clearance sheet.top).length * (m * (Frame.changeCost m + 1) + 1) := by
      refine total_le_length_mul _ fun removal hr => ?_
      obtain ⟨key, -, rfl⟩ := List.mem_map.mp hr
      exact Nat.le_refl _
    have hreserve := lt_reserve hkeys
    simp only [beginClear, Tariff.costs_cons, Tariff.costs_nil, tariff, Frame.cost]
    omega

theorem Seated.newSheet (h : world.Seated) (instanceId : Option UInt32) :
    (world.newSheet instanceId).1.Seated :=
  forall_newSheet h (fun _ => Forest.seated_ofContainer _) instanceId

theorem mass_newSheet (world : World) (instanceId : Option UInt32) :
    (world.newSheet instanceId).1.mass = world.mass := by
  have hnew (id : UInt32) : (Sheet.create id).mass = 0 := rfl
  simp [mass, World.newSheet, hnew]

theorem spends_emit (h : world.Seated) (number : Nat) (report : Diagnostic) :
    world.Spends 3 ((world.emit number report).1,
      (world.emit number report).2 ++ [.answerCount number]) := by
  have hreports := world.reports_emit number report
  refine ⟨hreports.seated h, ?_, ?_, fun m _ => ?_⟩
  · exact List.forall_mem_append.mpr ⟨hreports.frames, List.forall_mem_singleton.mpr trivial⟩
  · have hmass := hreports.mass
    simp only [stackMass_append, stackMass_cons, stackMass_nil, Frame.mass]
    omega
  · have hcosts := hreports.costs m
    have hreserve := lt_reserve (Nat.zero_le m)
    have hcount : tariff.costs m [.answerCount number] = 1 := rfl
    rw [Tariff.costs_append, hcount]
    omega

/-- What is put on the stack for a call is worth less than the call. -/
theorem Seated.call {call : Call} {change : World × List Frame} (h : world.Seated)
    (hc : world.call call = .ok change) : world.Spends (callMass call) change := by
  have hsame {call : Call} : world.mass < world.mass + callMass call := by
    cases call <;> exact Nat.lt_add_of_pos_right (Nat.succ_pos _)
  have hpos (call : Call) : 0 < callMass call := by cases call <;> exact Nat.succ_pos _
  cases call with
  | newSheet instanceId =>
    obtain rfl := Except.ok.inj hc
    exact .answer (h.newSheet instanceId) (mass_newSheet world instanceId ▸ hsame) rfl
  | register number styles =>
    exact h.onSheet hc (hpos _) fun sheet _ => spends_register h number sheet styles
  | unregister number styles =>
    exact h.onSheet hc (hpos _) fun sheet hs => spends_unregister h hs styles
  | clear number => exact h.onSheet hc (hpos _) fun sheet hs => spends_clear h hs
  | render | url | join => exact h.onSheet hc (hpos _) fun sheet _ => .answer h hsame rfl
  | listen number callback =>
    refine h.onSheet hc (hpos _) fun sheet hs => .updateSheet h hs rfl ?_ rfl
    simp only [Sheet.mass, Sheet.container, Subscribers.mass_add, Listener.mass, callMass]
    omega
  | unlisten number id =>
    refine h.onSheet hc (hpos _) fun sheet hs => .updateSheet h hs rfl ?_ rfl
    have hle := Subscribers.mass_remove_le Listener.mass sheet.listeners id
    simp only [Sheet.mass, Sheet.container, callMass]
    omega
  | attach number emitter =>
    refine h.onSheet hc (hpos _) fun sheet hs =>
      .updateSheet h hs (sheet.forest_attach emitter) ?_ rfl
    have hle := sheet.mass_attach_le emitter
    simp only [callMass]
    omega
  | newEmitter =>
    obtain rfl := Except.ok.inj hc
    let more : World := { world with emitters := world.emitters ++ [.empty] }
    have hseated : more.Seated := h
    have hmass : more.mass = world.mass := by simp [more, mass, observersMass, Emitter.empty]
    exact .answer hseated (hmass ▸ hsame) rfl
  | emit number report => exact h.onEmitter hc (hpos _) fun e _ => spends_emit h number report
  | setMinimum | clearReports =>
    exact h.onEmitter hc (hpos _) fun e he =>
      .updateEmitter h he (Nat.lt_add_of_pos_right (hpos _)) rfl
  | observe number callback =>
    refine h.onEmitter hc (hpos _) fun e he => .updateEmitter h he ?_ rfl
    simp [observersMass, callMass]
  | reports | reportTexts => exact h.onEmitter hc (hpos _) fun e _ => .answer h hsame rfl
  | fail => cases hc

end World

end StyleRegistry.SheetSession
