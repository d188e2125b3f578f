import StyleRegistry.Proofs.Rule.Underway
import StyleRegistry.Proofs.Sheet.Move

/-! # What a step does to one sheet

A run works on many sheets and emitters at a time. Seen from one sheet, a step
begins a call that registers or undoes a tree there, goes on with the innermost
call that is under way, finishes it, or leaves the containers of the sheet
alone. What has still to be done on the sheet stands on the stack between
everything else, innermost first. -/
namespace StyleRegistry

inductive Touch where
  | nothing
  /-- A call begins to register or to undo a tree. -/
  | begin
  /-- The innermost call takes or gives back one reference. -/
  | goOn
  | finish
  /-- The sheet is cleared, or the run fails. -/
  | breaks
  deriving DecidableEq

namespace Rest

/-- What is done next by a call that is under way. -/
def touch : Rest → Touch
  | .walk steps => if steps.tasks.isEmpty then .finish else .goOn
  | .removals left => if left.isEmpty then .finish else .goOn

def frame (number : Nat) : Rest → SheetSession.Frame
  | .walk steps => .walk number steps
  | .removals left => .removals number left

theorem touch_cases (rest : Rest) : rest.touch = .goOn ∨ rest.touch = .finish := by
  cases rest with
  | walk steps => simp only [touch]; split <;> simp
  | removals left => simp only [touch]; split <;> simp

theorem touch_ne_nothing (rest : Rest) : rest.touch ≠ .nothing := by
  rcases rest.touch_cases with h | h <;> simp [h]

end Rest

namespace SheetSession

def Call.touch (number : Nat) : Call → Touch
  | .register sheet _ | .unregister sheet _ => if sheet = number then .begin else .nothing
  | .clear sheet => if sheet = number then .breaks else .nothing
  | .fail _ => .breaks
  | _ => .nothing

namespace Frame

/-- What is to be done on the sheet, if the frame is a call's on it. -/
def rest? (number : Nat) : Frame → Option Rest
  | .walk sheet steps => if sheet = number then some (.walk steps) else none
  | .removals sheet left => if sheet = number then some (.removals left) else none
  | _ => none

def touch (number : Nat) : Frame → Touch
  | .script (call :: _) => call.touch number
  | frame => ((frame.rest? number).map Rest.touch).getD .nothing

end Frame

section Touch

variable {number : Nat} {frame : Frame} {rest : Rest}

theorem Call.touch_ne_goOn (call : Call) :
    call.touch number ≠ .goOn ∧ call.touch number ≠ .finish := by
  cases call with
  | register sheet styles => simp only [Call.touch]; split <;> simp
  | unregister sheet styles => simp only [Call.touch]; split <;> simp
  | clear sheet => simp only [Call.touch]; split <;> simp
  | _ => simp [Call.touch]

/-- The calls that begin anything on the sheet, clear it or fail. -/
theorem Call.eq_of_touch {call : Call}
    (h : call.touch number = .begin ∨ call.touch number = .breaks) :
    (∃ styles, call = .register number styles) ∨ (∃ styles, call = .unregister number styles) ∨
      call = .clear number ∨ ∃ message, call = .fail message := by
  have hon : ∀ {sheet : Nat} {touch : Touch},
      (if sheet = number then touch else .nothing) ≠ .nothing → sheet = number :=
    fun hne => by_contra fun hs => hne (if_neg hs)
  have hne : call.touch number ≠ .nothing := by rcases h with h | h <;> simp [h]
  cases call with
  | register sheet styles => exact .inl ⟨styles, by rw [hon hne]⟩
  | unregister sheet styles => exact .inr (.inl ⟨styles, by rw [hon hne]⟩)
  | clear sheet => exact .inr (.inr (.inl (by rw [hon hne])))
  | fail message => exact .inr (.inr (.inr ⟨message, rfl⟩))
  | _ => exact absurd rfl hne

@[simp] theorem Frame.rest?_frame (number : Nat) (rest : Rest) :
    (rest.frame number).rest? number = some rest := by
  cases rest with
  | walk steps => exact if_pos rfl
  | removals left => exact if_pos rfl

theorem Frame.eq_frame (h : frame.rest? number = some rest) : frame = rest.frame number := by
  cases frame with
  | walk sheet steps =>
    obtain ⟨rfl, hrest⟩ := Option.ite_none_right_eq_some.mp h
    obtain rfl := Option.some.inj hrest
    rfl
  | removals sheet left =>
    obtain ⟨rfl, hrest⟩ := Option.ite_none_right_eq_some.mp h
    obtain rfl := Option.some.inj hrest
    rfl
  | _ => cases h

theorem Frame.touch_frame (number : Nat) (rest : Rest) :
    (rest.frame number).touch number = rest.touch := by
  have h := Frame.rest?_frame number rest
  cases rest with
  | walk steps => exact congrArg (fun found => (found.map Rest.touch).getD .nothing) h
  | removals left => exact congrArg (fun found => (found.map Rest.touch).getD .nothing) h

/-- A frame that leaves the sheet alone is no call's on it. -/
theorem Frame.rest?_eq_none (h : frame.touch number = .nothing) : frame.rest? number = none := by
  cases hr : frame.rest? number with
  | none => rfl
  | some rest =>
    rw [Frame.eq_frame hr, Frame.touch_frame] at h
    exact absurd h rest.touch_ne_nothing

/-- Only a frame of a call that is under way on the sheet goes on with it or finishes it. -/
theorem Frame.exists_rest (h : frame.touch number = .goOn ∨ frame.touch number = .finish) :
    ∃ rest, frame = Rest.frame number rest ∧ rest.touch = frame.touch number := by
  cases hr : frame.rest? number with
  | some rest =>
    obtain rfl := Frame.eq_frame hr
    exact ⟨rest, rfl, (Frame.touch_frame number rest).symm⟩
  | none =>
    exfalso
    cases frame with
    | script calls =>
      cases calls with
      | nil => simp [Frame.touch, hr] at h
      | cons call calls => exact h.elim call.touch_ne_goOn.1 call.touch_ne_goOn.2
    | _ => simp [Frame.touch, hr] at h

/-- Only a call begins anything on the sheet, clears it or fails. -/
theorem Frame.exists_call (h : frame.touch number = .begin ∨ frame.touch number = .breaks) :
    ∃ call calls, frame = .script (call :: calls) ∧ call.touch number = frame.touch number := by
  cases hr : frame.rest? number with
  | some rest =>
    obtain rfl := Frame.eq_frame hr
    rw [Frame.touch_frame] at h
    rcases rest.touch_cases with ht | ht <;> rw [ht] at h <;> simp at h
  | none =>
    cases frame with
    | script calls =>
      cases calls with
      | nil => simp [Frame.touch, hr] at h
      | cons call calls => exact ⟨call, calls, rfl, rfl⟩
    | _ => simp [Frame.touch, hr] at h

end Touch

def World.forest? (world : World) (number : Nat) : Option Forest :=
  (world.sheet? number).map (·.forest)

namespace Run

/-- What the next step does to the sheet. -/
def touch (run : Run) (number : Nat) : Touch :=
  match run.stack with
  | [] => .nothing
  | frame :: _ => frame.touch number

/-- What the calls on the sheet have still to do, innermost first. -/
def rests (run : Run) (number : Nat) : List Rest := run.stack.filterMap (Frame.rest? number)

end Run

/-! ## Sheets of a world -/

namespace World

variable {world : World} {number : Nat} {forest : Forest}

theorem forest?_updateSheet {change : Sheet → Sheet}
    (h : ∀ sheet, (change sheet).forest = sheet.forest) (world : World) (sheet number : Nat) :
    (world.updateSheet sheet change).forest? number = world.forest? number := by
  simp only [forest?, sheet?, updateSheet, List.getElem?_modify, Option.map_eq_map, Option.map_map]
  congr 1
  funext s
  simp only [Function.comp_apply]
  split
  · exact h s
  · rfl

theorem forest?_setForest (h : world.forest? number = some forest) (after : Forest) :
    (world.setForest number after).forest? number = some after := by
  obtain ⟨sheet, hs, -⟩ := Option.map_eq_some_iff.mp h
  unfold sheet? at hs
  simp [forest?, sheet?, setForest, updateSheet, hs]

theorem forest?_setForest_of_ne {sheet : Nat} (h : sheet ≠ number) (world : World)
    (after : Forest) : (world.setForest sheet after).forest? number = world.forest? number := by
  simp [forest?, sheet?, setForest, updateSheet, h]

theorem forest?_settle (world : World) (number : Nat) : world.settle.forest? number =
    (world.forest? number).map fun forest => .ofContainer forest.root := by
  simp only [forest?, sheet?, settle, List.getElem?_map, Option.map_map]
  rfl

/-! ## Calls that leave the sheet alone -/

/-- A change that leaves the containers of the sheet alone and puts off no work
on them. -/
structure Spares (world : World) (number : Nat) (change : World × List Frame) : Prop where
  forest : ∀ forest, world.forest? number = some forest → change.1.forest? number = some forest
  rests : change.2.filterMap (Frame.rest? number) = []

theorem spares_of_forest {change : World × List Frame}
    (hf : change.1.forest? number = world.forest? number)
    (hr : change.2.filterMap (Frame.rest? number) = []) : world.Spares number change :=
  ⟨fun _ h => hf.trans h, hr⟩

theorem Spares.append {change : World × List Frame} (h : world.Spares number change)
    {frames : List Frame} (hr : frames.filterMap (Frame.rest? number) = []) :
    world.Spares number (change.1, change.2 ++ frames) :=
  ⟨h.forest, by rw [List.filterMap_append, h.rests, hr, List.append_nil]⟩

theorem spares_emit (world : World) (number emitter : Nat) (report : Diagnostic) :
    world.Spares number (world.emit emitter report) := by
  unfold emit
  split
  · exact spares_of_forest rfl rfl
  · exact spares_of_forest rfl rfl

theorem spares_emitFrom (world : World) (number sheet : Nat) (module stage message : Bytes) :
    world.Spares number (world.emitFrom sheet module stage message) := by
  unfold emitFrom
  split
  · exact spares_of_forest rfl rfl
  · split
    · exact spares_of_forest rfl rfl
    · exact spares_emit ..

theorem rests_tell (number sheet : Nat) (event : Option Event) :
    (tell sheet event).filterMap (Frame.rest? number) = [] := by
  unfold tell
  cases event.filter Event.isTopLevel <;> rfl

theorem spares_onSheet {sheet : Nat} {act : Sheet → World × List Frame}
    {change : World × List Frame} (hc : world.onSheet sheet act = .ok change)
    (h : ∀ s, world.Spares number (act s)) : world.Spares number change := by
  rcases onSheet_cases hc with ⟨-, rfl⟩ | ⟨s, -, rfl⟩
  · exact spares_of_forest rfl rfl
  · exact h s

theorem spares_onEmitter {emitter : Nat} {act : Emitter (Callback Call) → World × List Frame}
    {change : World × List Frame} (hc : world.onEmitter emitter act = .ok change)
    (h : ∀ e, world.Spares number (act e)) : world.Spares number change := by
  rcases onEmitter_cases hc with rfl | ⟨e, -, rfl⟩
  · exact spares_of_forest rfl rfl
  · exact h e

theorem spares_newSheet (world : World) (number : Nat) (instanceId : Option UInt32) :
    world.Spares number
      ((world.newSheet instanceId).1, [.answer (world.newSheet instanceId).2]) where
  forest forest h := by
    obtain ⟨sheet, hs, rfl⟩ := Option.map_eq_some_iff.mp h
    unfold sheet? at hs
    have hl := (List.getElem?_eq_some_iff.mp hs).1
    have hn : (world.newSheet instanceId).1.sheets[number]? = some sheet := by
      exact (List.getElem?_append_left hl).trans hs
    rw [forest?, sheet?, hn]
    rfl
  rests := rfl

theorem spares_call {call : Call} {change : World × List Frame} (ht : call.touch number = .nothing)
    (hc : world.call call = .ok change) : world.Spares number change := by
  cases call with
  | newSheet instanceId =>
    obtain rfl := Except.ok.inj hc
    exact spares_newSheet ..
  | register sheet styles =>
    have hne : sheet ≠ number := fun he => by simp [Call.touch, he] at ht
    refine spares_onSheet hc fun s => spares_of_forest rfl ?_
    simp [Frame.rest?, hne]
  | unregister sheet styles =>
    have hne : sheet ≠ number := fun he => by simp [Call.touch, he] at ht
    refine spares_onSheet hc fun s => spares_of_forest (forest?_setForest_of_ne hne _ _) ?_
    simp [beginUnregister, Frame.rest?, hne]
  | clear sheet =>
    have hne : sheet ≠ number := fun he => by simp [Call.touch, he] at ht
    refine spares_onSheet hc fun s => spares_of_forest rfl ?_
    simp [beginClear, Frame.rest?, hne]
  | render sheet => exact spares_onSheet hc fun _ => spares_of_forest rfl rfl
  | url sheet address => exact spares_onSheet hc fun _ => spares_of_forest rfl rfl
  | join sheet items => exact spares_onSheet hc fun _ => spares_of_forest rfl rfl
  | listen sheet callback =>
    refine spares_onSheet hc fun _ => spares_of_forest (forest?_updateSheet ?_ ..) rfl
    exact fun _ => rfl
  | unlisten sheet id =>
    refine spares_onSheet hc fun _ => spares_of_forest (forest?_updateSheet ?_ ..) rfl
    exact fun _ => rfl
  | newEmitter =>
    obtain rfl := Except.ok.inj hc
    exact spares_of_forest rfl rfl
  | attach sheet emitter =>
    refine spares_onSheet hc fun _ => spares_of_forest ?_ rfl
    refine forest?_updateSheet (fun s => ?_) ..
    cases emitter <;> rfl
  | emit emitter report =>
    exact spares_onEmitter hc fun _ => (world.spares_emit number emitter report).append rfl
  | setMinimum emitter severity => exact spares_onEmitter hc fun _ => spares_of_forest rfl rfl
  | observe emitter callback => exact spares_onEmitter hc fun _ => spares_of_forest rfl rfl
  | reports emitter filter => exact spares_onEmitter hc fun _ => spares_of_forest rfl rfl
  | reportTexts emitter => exact spares_onEmitter hc fun _ => spares_of_forest rfl rfl
  | clearReports emitter => exact spares_onEmitter hc fun _ => spares_of_forest rfl rfl
  | fail message => cases ht

/-- A frame that is no call's on the sheet leaves it alone when it is taken off. -/
theorem spares_move {frame : Frame} {change : World × List Frame}
    (ht : frame.touch number = .nothing) (hm : frame.Move world change) :
    world.Spares number change := by
  have hrest := Frame.rest?_eq_none ht
  cases hm with
  | drop => exact spares_of_forest rfl rfl
  | call hc => exact (spares_call ht hc).append rfl
  | monitor => exact (world.spares_emitFrom number _ _ _ _).append rfl
  | listen | observe | observerFires => exact spares_of_forest rfl rfl
  | listenerFires =>
    refine spares_of_forest (forest?_updateSheet ?_ ..) rfl
    exact fun _ => rfl
  | @walk sheet =>
    have hne : sheet ≠ number := by simpa [Frame.rest?] using hrest
    refine spares_of_forest (forest?_setForest_of_ne hne _ _) ?_
    simp [List.filterMap_append, rests_tell, Frame.rest?, hne]
  | @walked sheet =>
    have hne : sheet ≠ number := by simpa [Frame.rest?] using hrest
    exact spares_of_forest (forest?_setForest_of_ne hne _ _) rfl
  | @removal sheet =>
    have hne : sheet ≠ number := by simpa [Frame.rest?] using hrest
    refine spares_of_forest (forest?_setForest_of_ne hne _ _) ?_
    simp [List.filterMap_append, rests_tell, Frame.rest?, hne]
  | @count sheet =>
    have hne : sheet ≠ number := by simpa [Frame.rest?] using hrest
    exact spares_of_forest rfl (by simp [Frame.rest?, hne])
  | done => exact spares_emitFrom ..

end World

/-! ## Steps -/

namespace Run

variable {run : Run} {number : Nat} {forest : Forest} {styles : Layer} {rests : List Rest}

/-- The containers of the sheet, and what the calls on it have still to do. -/
structure Shows (run : Run) (number : Nat) (forest : Forest) (rests : List Rest) : Prop where
  forest : run.world.forest? number = some forest
  rests : run.rests number = rests

theorem Shows.of_cons {frame : Frame} {stack : List Frame} (h : run.Shows number forest rests)
    (hs : run.stack = frame :: stack) :
    rests = (frame.rest? number).toList ++ stack.filterMap (Frame.rest? number) := by
  rw [← h.rests, Run.rests, hs, List.filterMap_cons]
  cases frame.rest? number <;> rfl

/-- What a run shows with another stack. -/
theorem Shows.below (h : run.Shows number forest rests) (stack : List Frame) :
    Shows { run with stack } number forest (stack.filterMap (Frame.rest? number)) :=
  ⟨h.forest, rfl⟩

/-- A step that goes on with a call or finishes it is one of the innermost call. -/
theorem Shows.exists_rest (h : run.Shows number forest rests)
    (ht : run.touch number = .goOn ∨ run.touch number = .finish) :
    ∃ rest stack, run.stack = Rest.frame number rest :: stack ∧
      rests = rest :: stack.filterMap (Frame.rest? number) ∧ rest.touch = run.touch number := by
  cases hs : run.stack with
  | nil => simp [Run.touch, hs] at ht
  | cons frame stack =>
    have hframe : run.touch number = frame.touch number := by rw [Run.touch, hs]
    rw [hframe] at ht
    obtain ⟨rest, rfl, hrest⟩ := Frame.exists_rest ht
    have hrests := h.of_cons hs
    rw [Frame.rest?_frame] at hrests
    exact ⟨rest, stack, rfl, hrests, hrest.trans hframe.symm⟩

/-- What is thrown breaks whatever call is under way on any sheet. -/
theorem throws?_of_touch {frame : Frame} {below : List Frame} (hs : run.stack = frame :: below)
    (ht : frame.touch number = .nothing) : run.throws? = none := by
  cases hthrows : run.throws? with
  | none => rfl
  | some message =>
    obtain ⟨calls, others, hstack⟩ := throws?_eq_some hthrows
    obtain ⟨rfl, -⟩ := List.cons.inj (hs.symm.trans hstack)
    cases ht

theorem Shows.step_nothing (h : run.Shows number forest rests)
    (ht : run.touch number = .nothing) : run.step.Shows number forest rests := by
  cases hs : run.stack with
  | nil =>
    rw [Run.step, hs]
    exact h
  | cons frame stack =>
    rw [Run.touch, hs] at ht
    obtain ⟨change, hmove, hworld, hstack, -⟩ := step_move hs (throws?_of_touch hs ht)
    have hspares := World.spares_move ht hmove
    refine ⟨?_, ?_⟩
    · rw [hworld]
      exact hspares.forest forest h.forest
    · rw [h.of_cons hs, Frame.rest?_eq_none ht, Run.rests, hstack, List.filterMap_append,
        hspares.rests]
      rfl

/-! ## Calls on the sheet -/

theorem Shows.step_register {calls : List Call} {stack : List Frame}
    (h : run.Shows number forest rests)
    (hs : run.stack = .script (.register number styles :: calls) :: stack) :
    run.step.Shows number forest
      (.walk (.start (forest.place .root) styles.compile) :: rests) := by
  obtain ⟨sheet, hsheet, rfl⟩ := Option.map_eq_some_iff.mp h.forest
  have hrests : rests = stack.filterMap (Frame.rest? number) := h.of_cons hs
  rw [step_of_cons hs, hrests]
  simp only [Run.advance, World.call, World.onSheet, hsheet, Option.map_some, Option.getD_some]
  refine ⟨h.forest, ?_⟩
  simp [Run.push, Run.rests, List.filterMap_cons, Frame.rest?, Sheet.top]

theorem Shows.step_unregister {calls : List Call} {stack : List Frame}
    (h : run.Shows number forest rests)
    (hs : run.stack = .script (.unregister number styles :: calls) :: stack) :
    let found := forest.replay (some (forest.place .root)) Selector.root .nothing styles.compile
    run.step.Shows number (forest.removeSelectors found.className found.styled)
      (.removals found.removals :: rests) := by
  obtain ⟨sheet, hsheet, rfl⟩ := Option.map_eq_some_iff.mp h.forest
  have hrests : rests = stack.filterMap (Frame.rest? number) := h.of_cons hs
  rw [step_of_cons hs, hrests]
  simp only [Run.advance, World.call, World.onSheet, hsheet, Option.map_some, Option.getD_some]
  refine ⟨World.forest?_setForest h.forest _, ?_⟩
  simp [Run.push, World.beginUnregister, Run.rests, List.filterMap_cons, Frame.rest?, Sheet.top]

theorem Shows.step_clear {calls : List Call} {stack : List Frame}
    (h : run.Shows number forest rests)
    (hs : run.stack = .script (.clear number :: calls) :: stack) :
    run.step.Shows number forest
      (.removals (forest.clearance (forest.place .root)) :: rests) := by
  obtain ⟨sheet, hsheet, rfl⟩ := Option.map_eq_some_iff.mp h.forest
  have hrests : rests = stack.filterMap (Frame.rest? number) := h.of_cons hs
  rw [step_of_cons hs, hrests]
  simp only [Run.advance, World.call, World.onSheet, hsheet, Option.map_some, Option.getD_some]
  refine ⟨h.forest, ?_⟩
  simp [Run.push, World.beginClear, Run.rests, List.filterMap_cons, Frame.rest?, Sheet.top]

/-- A failure drops what has still to be done. -/
theorem Shows.step_fail {message : Bytes} {calls : List Call} {stack : List Frame}
    (h : run.Shows number forest rests)
    (hs : run.stack = .script (.fail message :: calls) :: stack) :
    run.step.Shows number forest [] := by
  rw [step_of_cons hs]
  exact ⟨h.forest, rfl⟩

theorem Shows.step_goOn (h : run.Shows number forest rests) (ht : run.touch number = .goOn) :
    ∃ later, (∃ walk, rests = .walk walk :: later ∧ walk.tasks ≠ [] ∧
      run.step.Shows number (Walk.step forest walk).1
        (.walk (Walk.step forest walk).2.1 :: later)) ∨
    ∃ removal left, rests = .removals (removal :: left) :: later ∧
      ∀ slot, removal = .one slot →
        run.step.Shows number (forest.release slot.container slot.key).1
          (.removals left :: later) := by
  obtain ⟨rest, stack, hs, rfl, hrest⟩ := h.exists_rest (.inl ht)
  obtain ⟨sheet, hsheet, rfl⟩ := Option.map_eq_some_iff.mp h.forest
  rw [ht] at hrest
  rw [step_of_cons hs]
  refine ⟨stack.filterMap (Frame.rest? number), ?_⟩
  cases rest with
  | walk walk =>
    have hempty : walk.tasks.isEmpty = false := by
      rw [Bool.eq_false_iff]
      intro he
      simp [Rest.touch, he] at hrest
    refine .inl ⟨walk, rfl, by simpa using hempty, ?_⟩
    simp only [Rest.frame, Run.advance, Run.advanceWalk, hsheet, hempty, Bool.false_eq_true,
      if_false]
    refine ⟨World.forest?_setForest h.forest _, ?_⟩
    simp [Run.push, Run.rests, List.filterMap_append, World.rests_tell, Frame.rest?]
  | removals left =>
    cases left with
    | nil => cases hrest
    | cons removal left =>
      refine .inr ⟨removal, left, rfl, ?_⟩
      rintro slot rfl
      simp only [Rest.frame, Run.advance, Run.advanceRemovals, hsheet]
      refine ⟨World.forest?_setForest h.forest _, ?_⟩
      simp [Run.push, Run.rests, List.filterMap_append, World.rests_tell, Frame.rest?]

/-- The references to a key are counted when their turn comes. -/
theorem Shows.step_all {slot : Slot} {left : List Removal} {later : List Rest}
    (h : run.Shows number forest (.removals (.all slot :: left) :: later))
    (ht : run.touch number = .goOn) : run.step.Shows number forest
      (.removals (List.replicate (forest.slotCount slot) (.one slot) ++ left) :: later) := by
  obtain ⟨rest, stack, hs, hrests, -⟩ := h.exists_rest (.inl ht)
  obtain ⟨rfl, rfl⟩ := List.cons.inj hrests
  obtain ⟨sheet, hsheet, rfl⟩ := Option.map_eq_some_iff.mp h.forest
  rw [step_of_cons hs]
  refine ⟨h.forest, ?_⟩
  simp [Rest.frame, Run.advance, Run.advanceRemovals, hsheet, Run.rests, Frame.rest?]

theorem Shows.step_finish (h : run.Shows number forest rests) (ht : run.touch number = .finish) :
    ∃ later, (∃ walk, rests = .walk walk :: later ∧ walk.tasks = [] ∧
      run.step.Shows number (forest.addSelectors walk.className walk.styled) later) ∨
    (rests = .removals [] :: later ∧ run.step.Shows number forest later) := by
  obtain ⟨rest, stack, hs, rfl, hrest⟩ := h.exists_rest (.inr ht)
  obtain ⟨sheet, hsheet, rfl⟩ := Option.map_eq_some_iff.mp h.forest
  rw [ht] at hrest
  rw [step_of_cons hs]
  refine ⟨stack.filterMap (Frame.rest? number), ?_⟩
  cases rest with
  | walk walk =>
    have htasks : walk.tasks = [] := by
      rw [← List.isEmpty_iff]
      cases he : walk.tasks.isEmpty with
      | true => rfl
      | false => simp [Rest.touch, he] at hrest
    refine .inl ⟨walk, rfl, htasks, ?_⟩
    simp only [Rest.frame, Run.advance, Run.advanceWalk, hsheet, htasks, List.isEmpty_nil,
      if_true]
    refine ⟨World.forest?_setForest h.forest _, ?_⟩
    simp [Run.push, Run.rests, List.filterMap_cons, Frame.rest?]
  | removals left =>
    cases left with
    | nil => exact .inr ⟨rfl, h.below stack⟩
    | cons removal left => cases hrest

end Run
end SheetSession
end StyleRegistry
