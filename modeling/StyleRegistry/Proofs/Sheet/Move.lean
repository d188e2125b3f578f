import StyleRegistry.Sheet.Session

/-! # The moves of frames

A step of a run takes the frame on top off the stack and lets it do one thing:
make a call, call one listener or observer, take or give back one reference, or
nothing. What each kind of frame may do to the world, and which frames it leaves
on the stack, is said here once. A step that throws nothing is one of these
moves, so whatever the moves keep, a step keeps. -/
namespace StyleRegistry.SheetSession

open Bytes (ascii)

/-! ## Sheets and emitters of a changed world -/

namespace World

variable {world : World} {number : Nat} {sheet : Sheet} {change : World × List Frame}

theorem sheet?_updateSheet (h : world.sheet? number = some sheet) (alter : Sheet → Sheet) :
    (world.updateSheet number alter).sheet? number = some (alter sheet) := by
  unfold sheet? at h
  simp [sheet?, updateSheet, h]

theorem sheet?_updateSheet_of_ne {other : Nat} (h : number ≠ other) (world : World)
    (alter : Sheet → Sheet) :
    (world.updateSheet number alter).sheet? other = world.sheet? other := by
  simp [sheet?, updateSheet, h]

/-- What holds of every sheet, and of one of them after its change. -/
theorem forall_updateSheet {property : Sheet → Prop} {alter : Sheet → Sheet}
    (h : ∀ number sheet, world.sheet? number = some sheet → property sheet)
    (hs : world.sheet? number = some sheet) (ha : property (alter sheet)) (other : Nat)
    (found : Sheet) (hf : (world.updateSheet number alter).sheet? other = some found) :
    property found := by
  by_cases hn : number = other
  · subst hn
    rw [sheet?_updateSheet hs] at hf
    obtain rfl := Option.some.inj hf
    exact ha
  · rw [sheet?_updateSheet_of_ne hn] at hf
    exact h other found hf

theorem forall_newSheet {property : Sheet → Prop}
    (h : ∀ number sheet, world.sheet? number = some sheet → property sheet)
    (hnew : ∀ id, property (.create id)) (instanceId : Option UInt32) (number : Nat) (sheet : Sheet)
    (hs : (world.newSheet instanceId).1.sheet? number = some sheet) : property sheet := by
  rcases List.mem_append.mp (List.mem_of_getElem? hs) with hm | hm
  · obtain ⟨other, ho⟩ := List.getElem?_of_mem hm
    exact h other sheet ho
  · obtain rfl := List.mem_singleton.mp hm
    exact hnew _

theorem emitter?_updateEmitter (world : World) (number emitter : Nat)
    (alter : Emitter (Callback Call) → Emitter (Callback Call)) :
    (world.updateEmitter number alter).emitter? emitter =
      if number = emitter then (world.emitter? emitter).map alter
      else world.emitter? emitter := by
  simp only [emitter?, updateEmitter, List.getElem?_modify]
  split
  · rfl
  · exact Option.map_id'

theorem forall_updateEmitter {property : Emitter (Callback Call) → Prop}
    {alter : Emitter (Callback Call) → Emitter (Callback Call)} {e : Emitter (Callback Call)}
    (h : ∀ number e, world.emitter? number = some e → property e)
    (he : world.emitter? number = some e) (ha : property (alter e)) (other : Nat)
    (found : Emitter (Callback Call))
    (hf : (world.updateEmitter number alter).emitter? other = some found) : property found := by
  rw [emitter?_updateEmitter] at hf
  split at hf
  · rename_i hn
    subst hn
    rw [he] at hf
    obtain rfl := Option.some.inj hf
    exact ha
  · exact h other found hf

/-- Nothing changes of an emitter that the change leaves alone. -/
theorem map_emitter?_updateEmitter {α : Type} {part : Emitter (Callback Call) → α}
    {alter : Emitter (Callback Call) → Emitter (Callback Call)}
    (h : ∀ e, part (alter e) = part e) (world : World) (number emitter : Nat) :
    ((world.updateEmitter number alter).emitter? emitter).map part =
      (world.emitter? emitter).map part := by
  rw [emitter?_updateEmitter]
  split
  · rw [Option.map_map]
    exact congrArg (Option.map · (world.emitter? emitter)) (funext h)
  · rfl

/-- A call on a sheet does nothing, or what it does on a sheet that is there. -/
theorem onSheet_cases {act : Sheet → World × List Frame}
    (hc : world.onSheet number act = .ok change) :
    (world.sheet? number = none ∧ change = (world, [.answer .nothing])) ∨
      ∃ s, world.sheet? number = some s ∧ change = act s := by
  obtain rfl := Except.ok.inj hc
  cases hs : world.sheet? number with
  | none => exact .inl ⟨rfl, rfl⟩
  | some s => exact .inr ⟨s, rfl, rfl⟩

theorem onEmitter_cases {act : Emitter (Callback Call) → World × List Frame}
    (hc : world.onEmitter number act = .ok change) :
    change = (world, [.answer .nothing]) ∨
      ∃ e, world.emitter? number = some e ∧ change = act e := by
  obtain rfl := Except.ok.inj hc
  cases he : world.emitter? number with
  | none => exact .inl rfl
  | some e => exact .inr ⟨e, rfl, rfl⟩

/-- Only the call that is made to fail fails. -/
theorem call_eq_error {call : Call} {message : Bytes} (h : world.call call = .error message) :
    ∃ text, call = .fail text := by
  cases call with
  | fail text => exact ⟨text, rfl⟩
  | _ => simp [World.call, onSheet, onEmitter] at h

end World

/-! ## Moves -/

/-- What a frame may do to the world, with the frames that it leaves. -/
inductive Frame.Move (world : World) : Frame → World × List Frame → Prop
  /-- It has nothing left to do, or answers, or its sheet or emitter is not there. -/
  | drop (frame : Frame) : Move world frame (world, [])
  | call {call : Call} {calls : List Call} {change : World × List Frame} :
    world.call call = .ok change →
      Move world (.script (call :: calls)) (change.1, change.2 ++ [.script calls])
  /-- The sheet's own listener is called. -/
  | monitor {number next : Nat} {event : Event} {sheet : Sheet} :
    world.sheet? number = some sheet → sheet.listeners.get? next = some .monitor →
      Move world (.change number event next)
        ((world.emitFrom number (ascii "cache") event.change.name event.key).1,
          (world.emitFrom number (ascii "cache") event.change.name event.key).2 ++
            [.change number event (next + 1)])
  /-- A listener notes the change. -/
  | listen {number next : Nat} {event : Event} {sheet : Sheet} {callback : Callback Call} :
    world.sheet? number = some sheet →
      sheet.listeners.get? next = some (.scripted callback) →
      Move world (.change number event next) (world, [.change number event (next + 1)])
  /-- A listener uses up a firing, and the calls of its script come next. -/
  | listenerFires {number next : Nat} {event : Event} {sheet : Sheet} {callback : Callback Call} :
    world.sheet? number = some sheet →
      sheet.listeners.get? next = some (.scripted callback) →
      callback.fires event.change.name = true →
      Move world (.change number event next)
        (world.updateSheet number
            ({ · with listeners := sheet.listeners.set next (.scripted callback.spend) }),
          [.script callback.script, .change number event (next + 1)])
  /-- An observer notes the report. -/
  | observe {number next : Nat} {report : Diagnostic} {e : Emitter (Callback Call)}
    {callback : Callback Call} :
    world.emitter? number = some e → e.observers[next]? = some callback →
      Move world (.report number report next) (world, [.report number report (next + 1)])
  | observerFires {number next : Nat} {report : Diagnostic} {e : Emitter (Callback Call)}
    {callback : Callback Call} :
    world.emitter? number = some e → e.observers[next]? = some callback →
      callback.fires report.severity.name = true →
      Move world (.report number report next)
        (world.updateEmitter number
            ({ · with observers := e.observers.set next callback.spend }),
          [.script callback.script, .report number report (next + 1)])
  /-- A registration takes one reference. -/
  | walk {number : Nat} {walk : Walk} {sheet : Sheet} :
    world.sheet? number = some sheet → walk.tasks ≠ [] →
      Move world (.walk number walk)
        (world.setForest number (Walk.step sheet.forest walk).1,
          World.tell number (Walk.step sheet.forest walk).2.2 ++
            [.walk number (Walk.step sheet.forest walk).2.1])
  /-- It has taken them all and gives the selectors. -/
  | walked {number : Nat} {walk : Walk} {sheet : Sheet} :
    world.sheet? number = some sheet → walk.tasks = [] →
      Move world (.walk number walk)
        (world.setForest number (sheet.forest.addSelectors walk.className walk.styled),
          [.done number (ascii "register") walk.className, .answer (.text walk.className)])
  | removal {number : Nat} {slot : Slot} {left : List Removal} {sheet : Sheet} :
    world.sheet? number = some sheet →
      Move world (.removals number (.one slot :: left))
        (world.setForest number (sheet.forest.release slot.container slot.key).1,
          World.tell number (sheet.forest.release slot.container slot.key).2 ++
            [.removals number left])
  /-- The references to a key are counted. -/
  | count {number : Nat} {slot : Slot} {left : List Removal} (times : Nat) :
    times = ((world.sheet? number).map (·.forest.slotCount slot)).getD 0 →
      Move world (.removals number (.all slot :: left))
        (world, [.removals number (List.replicate times (.one slot) ++ left)])
  | done {number : Nat} {stage message : Bytes} :
    Move world (.done number stage message)
      (world.emitFrom number (ascii "registry") stage message)

namespace Run

/-- What the next step throws. -/
def throws? (run : Run) : Option Bytes :=
  match run.stack with
  | .script (.fail message :: _) :: _ => some message
  | _ => none

variable {run : Run} {frame : Frame} {below : List Frame}

theorem throws?_eq_some {message : Bytes} (h : run.throws? = some message) :
    ∃ calls below, run.stack = .script (.fail message :: calls) :: below := by
  unfold throws? at h
  split at h
  · rename_i hs
    obtain rfl := Option.some.inj h
    exact ⟨_, _, hs⟩
  · cases h

theorem step_of_cons (hs : run.stack = frame :: below) :
    run.step = { run with stack := below }.advance frame := by
  rw [step, hs]

theorem step_of_throws {message : Bytes} (h : run.throws? = some message) :
    run.step = { run with stack := [], failure := some message } := by
  obtain ⟨calls, below, hs⟩ := throws?_eq_some h
  rw [step_of_cons hs]
  rfl

/-- The run after a move of the frame, which is already taken off. -/
def Moves (run : Run) (frame : Frame) (after : Run) : Prop :=
  ∃ change, frame.Move run.world change ∧ after.world = change.1 ∧
    after.stack = change.2 ++ run.stack ∧ after.failure = run.failure

theorem moves_visitListener (run : Run) (number : Nat) (event : Event) (next : Nat) :
    run.Moves (.change number event next) (run.visitListener number event next) := by
  unfold visitListener
  split
  · exact ⟨_, .drop _, rfl, rfl, rfl⟩
  · rename_i sheet hsheet
    simp only
    split
    · exact ⟨_, .drop _, rfl, rfl, rfl⟩
    · rename_i hget
      exact ⟨_, .monitor hsheet hget, rfl, by simp [push], rfl⟩
    · rename_i callback hget
      split
      · rename_i hfires
        exact ⟨_, .listenerFires hsheet hget hfires, rfl, rfl, rfl⟩
      · exact ⟨_, .listen hsheet hget, rfl, rfl, rfl⟩

theorem moves_visitObserver (run : Run) (number : Nat) (report : Diagnostic) (next : Nat) :
    run.Moves (.report number report next) (run.visitObserver number report next) := by
  unfold visitObserver
  split
  · exact ⟨_, .drop _, rfl, rfl, rfl⟩
  · rename_i e he
    split
    · exact ⟨_, .drop _, rfl, rfl, rfl⟩
    · rename_i callback hget
      simp only
      split
      · rename_i hfires
        exact ⟨_, .observerFires he hget hfires, rfl, rfl, rfl⟩
      · exact ⟨_, .observe he hget, rfl, rfl, rfl⟩

theorem moves_advanceWalk (run : Run) (number : Nat) (walk : Walk) :
    run.Moves (.walk number walk) (run.advanceWalk number walk) := by
  unfold advanceWalk
  split
  · exact ⟨_, .drop _, rfl, rfl, rfl⟩
  · rename_i sheet hsheet
    split
    · rename_i hempty
      exact ⟨_, .walked hsheet (List.isEmpty_iff.mp hempty), rfl, rfl, rfl⟩
    · rename_i hmore
      have htasks : walk.tasks ≠ [] := fun ht => hmore (List.isEmpty_iff.mpr ht)
      exact ⟨_, .walk hsheet htasks, rfl, rfl, rfl⟩

theorem moves_advanceRemovals (run : Run) (number : Nat) (left : List Removal) :
    run.Moves (.removals number left) (run.advanceRemovals number left) := by
  match left with
  | [] => exact ⟨_, .drop _, rfl, rfl, rfl⟩
  | .all slot :: left => exact ⟨_, .count _ rfl, rfl, rfl, rfl⟩
  | .one slot :: left =>
    simp only [advanceRemovals]
    split
    · exact ⟨_, .drop _, rfl, rfl, rfl⟩
    · rename_i sheet hsheet
      exact ⟨_, .removal hsheet, rfl, rfl, rfl⟩

theorem moves_advance (ht : ∀ message calls, frame ≠ .script (.fail message :: calls)) :
    run.Moves frame (run.advance frame) := by
  cases frame with
  | script calls =>
    cases calls with
    | nil => exact ⟨_, .drop _, rfl, rfl, rfl⟩
    | cons call calls =>
      simp only [advance]
      split
      · rename_i change hc
        exact ⟨_, .call hc, rfl, by simp [push], rfl⟩
      · rename_i message hc
        obtain ⟨text, rfl⟩ := World.call_eq_error hc
        exact absurd rfl (ht text calls)
  | change number event next => exact run.moves_visitListener number event next
  | report number report next => exact run.moves_visitObserver number report next
  | walk number walk => exact run.moves_advanceWalk number walk
  | removals number left => exact run.moves_advanceRemovals number left
  | done number stage message => exact ⟨_, .done, rfl, rfl, rfl⟩
  | answer reply => exact ⟨_, .drop _, rfl, rfl, rfl⟩
  | answerCount number => exact ⟨_, .drop _, rfl, rfl, rfl⟩

/-- A step that throws nothing is a move of the frame on top of the stack. -/
theorem step_move (hs : run.stack = frame :: below) (ht : run.throws? = none) :
    ∃ change, frame.Move run.world change ∧ run.step.world = change.1 ∧
      run.step.stack = change.2 ++ below ∧ run.step.failure = run.failure := by
  have hmoves : Moves { run with stack := below } frame
      ({ run with stack := below }.advance frame) := by
    refine moves_advance fun message calls hf => ?_
    rw [throws?, hs, hf] at ht
    cases ht
  rw [step_of_cons hs]
  exact hmoves

end Run
end StyleRegistry.SheetSession
