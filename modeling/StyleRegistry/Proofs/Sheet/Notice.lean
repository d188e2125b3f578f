import StyleRegistry.Proofs.Sheet.Nesting

/-! # What a sheet makes known

A sheet gives notice of the changes of its top level, through a listener of its
own, and at the end of a call of the call itself. A step of a run files at most
one notice, and emitters keep nothing else unless somebody calls them. Between
the notices a call takes or gives back one reference after another; what each of
these steps does to the run is written out here in full. -/
namespace StyleRegistry.SheetSession

open Bytes (ascii)

/-! ## Notices -/

structure Notice where
  sheet : Nat
  module : Bytes
  stage : Bytes
  message : Bytes
  deriving DecidableEq, Repr

namespace Notice

/-- Of a change of the sheet's top level. -/
def change (sheet : Nat) (event : Event) : Notice :=
  ⟨sheet, ascii "cache", event.change.name, event.key⟩

/-- Of a call that is done. -/
def done (sheet : Nat) (stage message : Bytes) : Notice := ⟨sheet, ascii "registry", stage, message⟩

end Notice

namespace World

def file (world : World) (notice : Notice) : World × List Frame :=
  world.emitFrom notice.sheet notice.module notice.stage notice.message

/-- The reports that an emitter keeps. -/
def recorded? (world : World) (emitter : Nat) : Option (List Diagnostic) :=
  (world.emitter? emitter).map (·.events)

end World

/-- The notice that the next step files. -/
def Run.files? (run : Run) : Option Notice :=
  match run.stack with
  | .change number event next :: _ =>
    match (run.world.sheet? number).bind (·.listeners.get? next) with
    | some .monitor => some (.change number event)
    | _ => none
  | .done number stage message :: _ => some (.done number stage message)
  | _ => none

/-- A frame that tells observers of a report. -/
def Frame.isReport : Frame → Bool
  | .report _ _ _ => true
  | _ => false

/-- The reports that observers are being told of. -/
def Run.tellings (run : Run) : List Frame := run.stack.filter Frame.isReport

/-- The calls that change what some emitter keeps, beside those that file notices. -/
def Call.records : Call → Bool
  | .newEmitter | .emit _ _ | .clearReports _ => true
  | _ => false

/-! ## What emitters keep -/

namespace World

variable {world : World} {emitter : Nat}

theorem recorded?_updateEmitter {change : Emitter (Callback Call) → Emitter (Callback Call)}
    (h : ∀ e, (change e).events = e.events) (world : World) (number emitter : Nat) :
    (world.updateEmitter number change).recorded? emitter = world.recorded? emitter :=
  map_emitter?_updateEmitter h world number emitter

theorem recorded?_onSheet {sheet : Nat} {act : Sheet → World × List Frame}
    {change : World × List Frame} (hc : world.onSheet sheet act = .ok change)
    (h : ∀ s, (act s).1.recorded? emitter = world.recorded? emitter) :
    change.1.recorded? emitter = world.recorded? emitter := by
  rcases onSheet_cases hc with ⟨-, rfl⟩ | ⟨s, -, rfl⟩
  · rfl
  · exact h s

theorem recorded?_onEmitter {number : Nat} {act : Emitter (Callback Call) → World × List Frame}
    {change : World × List Frame} (hc : world.onEmitter number act = .ok change)
    (h : ∀ e, (act e).1.recorded? emitter = world.recorded? emitter) :
    change.1.recorded? emitter = world.recorded? emitter := by
  rcases onEmitter_cases hc with rfl | ⟨e, -, rfl⟩
  · rfl
  · exact h e

theorem recorded?_call {call : Call} {change : World × List Frame}
    (hc : world.call call = .ok change) (h : call.records = false) :
    change.1.recorded? emitter = world.recorded? emitter := by
  cases call with
  | newSheet instanceId =>
    obtain rfl := Except.ok.inj hc
    rfl
  | register | unregister | render | clear | url | join | listen | unlisten | attach =>
    exact recorded?_onSheet hc fun _ => rfl
  | setMinimum number severity =>
    refine recorded?_onEmitter hc fun _ => recorded?_updateEmitter ?_ ..
    exact fun _ => rfl
  | observe number callback =>
    refine recorded?_onEmitter hc fun _ => recorded?_updateEmitter ?_ ..
    exact fun _ => rfl
  | reports | reportTexts => exact recorded?_onEmitter hc fun _ => rfl
  | newEmitter | emit | clearReports => cases h
  | fail message => cases hc

end World

namespace Run

variable {run : Run} {emitter : Nat}

/-- A notice changes the world as it is filed, and nobody is told of anything
else for it. -/
theorem step_files {notice : Notice} (h : run.files? = some notice) :
    ∃ rest, run.step = { run with
        world := (run.world.file notice).1
        stack := (run.world.file notice).2 ++ rest } ∧
      rest.filter Frame.isReport = run.tellings := by
  obtain ⟨world, stack, log, reply, failure⟩ := run
  unfold files? at h
  split at h
  · rename_i number event next stack hs
    cases hs
    split at h
    · rename_i hl
      obtain rfl := Option.some.inj h
      obtain ⟨sheet, hsheet, hget⟩ := Option.bind_eq_some_iff.mp hl
      refine ⟨.change number event (next + 1) :: stack, ?_, ?_⟩
      · simp only [step, advance, visitListener, hsheet, hget]
        rfl
      · simp [tellings, Frame.isReport]
    · cases h
  · rename_i number stage message stack hs
    cases hs
    obtain rfl := Option.some.inj h
    exact ⟨stack, rfl, by simp [tellings, Frame.isReport]⟩
  · cases h

theorem world_of_files {notice : Notice} (h : run.files? = some notice) :
    run.step.world = (run.world.file notice).1 := by
  obtain ⟨rest, hstep, -⟩ := step_files h
  rw [hstep]

/-- Calls and notices apart, a step leaves the emitters alone. An observer that
is told of a report may use up a firing. -/
theorem emitters_step (hf : run.files? = none)
    (hc : ∀ call calls below, run.stack ≠ .script (call :: calls) :: below) :
    run.step.world.emitters = run.world.emitters ∨
      ∃ number e next callback, run.world.emitter? number = some e ∧
        e.observers[next]? = some callback ∧ run.step.world = run.world.updateEmitter number
          ({ · with observers := e.observers.set next callback.spend }) := by
  cases hs : run.stack with
  | nil =>
    rw [step, hs]
    exact .inl rfl
  | cons frame below =>
    have ht : run.throws? = none := by
      cases hthrows : run.throws? with
      | none => rfl
      | some message =>
        obtain ⟨calls, others, hstack⟩ := throws?_eq_some hthrows
        exact absurd hstack (hc _ _ _)
    obtain ⟨change, hmove, hworld, -⟩ := step_move hs ht
    rw [hworld]
    cases hmove with
    | drop | listen | listenerFires | observe | walk | walked | removal | count => exact .inl rfl
    | call _ => exact absurd hs (hc _ _ _)
    | monitor hsheet hget => simp [files?, hs, hsheet, hget] at hf
    | observerFires he hget _ => exact .inr ⟨_, _, _, _, he, hget, rfl⟩
    | done => simp [files?, hs] at hf

/-- A step that files no notice leaves what the emitters keep, unless it is a
call that is about an emitter. -/
theorem recorded?_step (hf : run.files? = none)
    (hc : ∀ call calls stack, run.stack = .script (call :: calls) :: stack →
      call.records = false) :
    run.step.world.recorded? emitter = run.world.recorded? emitter := by
  by_cases hcall : ∃ call calls below, run.stack = .script (call :: calls) :: below
  · obtain ⟨call, calls, below, hs⟩ := hcall
    simp only [step, hs, advance]
    split
    · rename_i change hchange
      exact World.recorded?_call hchange (hc call calls below hs)
    · rfl
  · have hother (call : Call) (calls : List Call) (below : List Frame) :
        run.stack ≠ .script (call :: calls) :: below := fun hs => hcall ⟨call, calls, below, hs⟩
    rcases emitters_step hf hother with hsame | ⟨number, e, next, callback, -, -, hworld⟩
    · rw [World.recorded?, World.emitter?, hsame]
      rfl
    · rw [hworld]
      refine World.recorded?_updateEmitter ?_ ..
      exact fun _ => rfl

end Run

/-! ## The steps of a call -/

namespace World

variable {world : World} {number : Nat} {sheet : Sheet}

theorem forest?_of_sheet? (h : world.sheet? number = some sheet) :
    world.forest? number = some sheet.forest := by
  rw [forest?, h, Option.map_some]

end World

namespace Run

variable {run : Run} {number : Nat} {sheet : Sheet} {below : List Frame}

theorem touch_of_cons {frame : Frame} (hs : run.stack = frame :: below) :
    run.touch number = frame.touch number := by
  rw [Run.touch, hs]

theorem step_call {call : Call} {calls : List Call} {change : World × List Frame}
    (hs : run.stack = .script (call :: calls) :: below) (hc : run.world.call call = .ok change) :
    run.step = { run with
      world := change.1
      stack := change.2 ++ .script calls :: below } := by
  rw [step_of_cons hs]
  simp only [advance, hc]
  rfl

theorem step_register {styles : Layer} {calls : List Call}
    (hs : run.stack = .script (.register number styles :: calls) :: below)
    (hsheet : run.world.sheet? number = some sheet) :
    run.step = { run with
      stack := .walk number (.start sheet.top styles.compile) :: .script calls :: below } := by
  have hc : run.world.call (.register number styles) =
      .ok (run.world, [.walk number (.start sheet.top styles.compile)]) := by
    rw [World.call, World.onSheet, hsheet]
    rfl
  exact step_call hs hc

theorem step_unregister {styles : Layer} {calls : List Call}
    (hs : run.stack = .script (.unregister number styles :: calls) :: below)
    (hsheet : run.world.sheet? number = some sheet) :
    let found := sheet.forest.replay (some sheet.top) Selector.root .nothing styles.compile
    run.step = { run with
      world := run.world.setForest number
        (sheet.forest.removeSelectors found.className found.styled)
      stack := .removals number found.removals ::
        .done number (ascii "unregister") found.className :: .answer (.text found.className) ::
        .script calls :: below } := by
  have hc : run.world.call (.unregister number styles) =
      .ok (run.world.beginUnregister number sheet styles) := by
    rw [World.call, World.onSheet, hsheet]
    rfl
  exact step_call hs hc

theorem step_clear {calls : List Call}
    (hs : run.stack = .script (.clear number :: calls) :: below)
    (hsheet : run.world.sheet? number = some sheet) :
    run.step = { run with
      stack := .removals number (sheet.forest.clearance sheet.top) ::
        .done number (ascii "clear") (ascii "sheet " ++ sheet.id ++ ascii " emptied") ::
        .answer .nothing :: .script calls :: below } := by
  have hc : run.world.call (.clear number) = .ok (run.world.beginClear number sheet) := by
    rw [World.call, World.onSheet, hsheet]
    rfl
  exact step_call hs hc

theorem step_walk {walk : Walk} (hs : run.stack = .walk number walk :: below)
    (hsheet : run.world.sheet? number = some sheet) (ht : walk.tasks ≠ []) :
    let made := Walk.step sheet.forest walk
    run.step = { run with
      world := run.world.setForest number made.1
      stack := World.tell number made.2.2 ++ .walk number made.2.1 :: below } := by
  have hempty : walk.tasks.isEmpty = false := by simpa using ht
  rw [step_of_cons hs]
  simp only [advance, advanceWalk, hsheet, hempty, Bool.false_eq_true, if_false]
  simp [push]

theorem step_walked {walk : Walk} (hs : run.stack = .walk number walk :: below)
    (hsheet : run.world.sheet? number = some sheet) (ht : walk.tasks = []) :
    run.step = { run with
      world := run.world.setForest number (sheet.forest.addSelectors walk.className walk.styled)
      stack := .done number (ascii "register") walk.className ::
        .answer (.text walk.className) :: below } := by
  rw [step_of_cons hs]
  simp only [advance, advanceWalk, hsheet, ht, List.isEmpty_nil, if_true]
  rfl

theorem step_removal {slot : Slot} {left : List Removal}
    (hs : run.stack = .removals number (.one slot :: left) :: below)
    (hsheet : run.world.sheet? number = some sheet) :
    let made := sheet.forest.release slot.container slot.key
    run.step = { run with
      world := run.world.setForest number made.1
      stack := World.tell number made.2 ++ .removals number left :: below } := by
  rw [step_of_cons hs]
  simp only [advance, advanceRemovals, hsheet]
  simp [push]

theorem step_removals {slot : Slot} {left : List Removal}
    (hs : run.stack = .removals number (.all slot :: left) :: below)
    (hsheet : run.world.sheet? number = some sheet) :
    run.step = { run with
      stack := .removals number
        (List.replicate (sheet.forest.slotCount slot) (.one slot) ++ left) :: below } := by
  rw [step_of_cons hs]
  simp only [advance, advanceRemovals, hsheet]
  rfl

theorem step_removed (hs : run.stack = .removals number [] :: below) :
    run.step = { run with stack := below } := step_of_cons hs

end Run
end StyleRegistry.SheetSession
