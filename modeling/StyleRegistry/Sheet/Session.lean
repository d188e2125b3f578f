import StyleRegistry.Sheet.World

/-! # Sessions on style sheets

Listeners and observers may make any call again while a sheet is being
changed. A run is a stack of frames, each the rest of something begun: a
script, a walk, a list of removals, an emission. One step takes or gives back
one reference, calls one listener or observer, or drops a finished frame. A
failure drops the whole stack and leaves the sheets as they are. -/
namespace StyleRegistry.SheetSession

open Bytes (ascii)

/-! ## Runs -/

inductive Frame where
  /-- The calls still to make. -/
  | script (calls : List Call)
  /-- The listeners still to tell, from the one at `next` in the list as it is then. -/
  | change (sheet : Nat) (event : Event) (next : Nat)
  /-- The observers still to tell, from the one at `next`. -/
  | report (emitter : Nat) (report : Diagnostic) (next : Nat)
  | walk (sheet : Nat) (walk : Walk)
  | removals (sheet : Nat) (left : List Removal)
  /-- A call on a sheet that is done but for its report. -/
  | done (sheet : Nat) (stage message : Bytes)
  /-- The answer of a call whose work is done. -/
  | answer (reply : Reply)
  /-- The answer of an emission: the number of reports after it. -/
  | answerCount (emitter : Nat)

/-- `reply` is the answer of the call that was done last. -/
structure Run where
  world : World
  stack : List Frame
  log : List LogEntry
  reply : Reply
  failure : Option Bytes

namespace World

/-! ## Telling listeners and observers -/

/-- The frame that tells a sheet's listeners of a change; only those of the top
level have any. -/
def tell (sheet : Nat) (event : Option Event) : List Frame :=
  ((event.filter Event.isTopLevel).map fun event => Frame.change sheet event 0).toList

/-- Records a report that is severe enough, for the observers to be told. -/
def emit (world : World) (emitter : Nat) (report : Diagnostic) : World × List Frame :=
  if (world.emitter? emitter).any (·.accepts report) then
    (world.updateEmitter emitter (·.record report), [.report emitter report 0])
  else (world, [])

/-- Emits a report of a sheet's where the sheet's diagnostics go. -/
def emitFrom (world : World) (sheet : Nat) (module stage message : Bytes) : World × List Frame :=
  match world.sheet? sheet with
  | none => (world, [])
  | some s =>
    match s.emitter with
    | none => (world, [])
    | some emitter => world.emit emitter (s.report module stage message)

/-- What a scripted listener notes. The node is rendered as it is now, in the
container or evicted. -/
def changeEntry (sheet : Sheet) (name : Bytes) (event : Event) : LogEntry :=
  .change name event.change event.key sheet.container.size
    (((sheet.forest.node? event.place).map Node.render).getD [])

/-! ## Calls -/

/-- The references that undo a registration, after the selectors are removed. -/
def beginUnregister (world : World) (number : Nat) (sheet : Sheet) (styles : Layer) :
    World × List Frame :=
  let found := sheet.forest.replay (some sheet.top) Selector.root .nothing styles.compile
  (world.setForest number (sheet.forest.removeSelectors found.className found.styled),
    [.removals number found.removals, .done number (ascii "unregister") found.className,
      .answer (.text found.className)])

def beginClear (world : World) (number : Nat) (sheet : Sheet) : World × List Frame :=
  (world, [.removals number (sheet.forest.clearance sheet.top),
    .done number (ascii "clear") (ascii "sheet " ++ sheet.id ++ ascii " emptied"),
    .answer .nothing])

/-- A call on a sheet that does not exist does nothing. -/
def onSheet (world : World) (number : Nat) (act : Sheet → World × List Frame) :
    Except Bytes (World × List Frame) :=
  .ok (((world.sheet? number).map act).getD (world, [.answer .nothing]))

/-- A call on an emitter that does not exist does nothing. -/
def onEmitter (world : World) (number : Nat)
    (act : Emitter (Callback Call) → World × List Frame) : Except Bytes (World × List Frame) :=
  .ok (((world.emitter? number).map act).getD (world, [.answer .nothing]))

/-- What a call does at once, and the frames for the rest of it. Only the call
that is made to fail fails. -/
def call (world : World) : Call → Except Bytes (World × List Frame)
  | .newSheet instanceId =>
    let (changed, reply) := world.newSheet instanceId
    .ok (changed, [.answer reply])
  | .register number styles => world.onSheet number fun sheet =>
    (world, [.walk number (.start sheet.top styles.compile)])
  | .unregister number styles => world.onSheet number fun sheet =>
    world.beginUnregister number sheet styles
  | .render number => world.onSheet number fun sheet =>
    (world, [.answer (.text sheet.container.render)])
  | .clear number => world.onSheet number fun sheet => world.beginClear number sheet
  | .url number address => world.onSheet number fun _ =>
    (world, [.answer (.text (Percent.cssUrl address))])
  | .join number items => world.onSheet number fun _ =>
    (world, [.answer (.text (ClassItem.join items))])
  | .listen number callback => world.onSheet number fun sheet =>
    let listeners := sheet.listeners.add (.scripted callback)
    (world.updateSheet number ({ · with listeners }), [.answer (.number listeners.issued)])
  | .unlisten number id => world.onSheet number fun sheet =>
    (world.updateSheet number ({ · with listeners := sheet.listeners.remove id }),
      [.answer (.flag (sheet.listeners.contains id))])
  | .newEmitter =>
    .ok ({ world with emitters := world.emitters ++ [.empty] },
      [.answer (.number world.emitters.length)])
  | .attach number emitter => world.onSheet number fun _ =>
    (world.updateSheet number (·.attach emitter), [.answer .nothing])
  | .emit number report => world.onEmitter number fun _ =>
    let (changed, frames) := world.emit number report
    (changed, frames ++ [.answerCount number])
  | .setMinimum number severity => world.onEmitter number fun _ =>
    (world.updateEmitter number ({ · with minimum := severity }),
      [.answer (.text severity.name)])
  | .observe number callback => world.onEmitter number fun emitter =>
    (world.updateEmitter number ({ · with observers := emitter.observers ++ [callback] }),
      [.answer .nothing])
  | .reports number filter => world.onEmitter number fun emitter =>
    (world, [.answer (.reports (emitter.select filter))])
  | .reportTexts number => world.onEmitter number fun emitter =>
    (world, [.answer (.texts (emitter.events.map Diagnostic.text))])
  | .clearReports number => world.onEmitter number fun _ =>
    (world.updateEmitter number (·.clear), [.answerCount number])
  | .fail message => .error message

end World

namespace Run

/-! ## Steps -/

def push (run : Run) (change : World × List Frame) : Run :=
  { run with world := change.1, stack := change.2 ++ run.stack }

/-- Calls a sheet's listener at `next`, if there is one. A firing is used up
before its script runs. -/
def visitListener (run : Run) (number : Nat) (event : Event) (next : Nat) : Run :=
  match run.world.sheet? number with
  | none => run
  | some sheet =>
    let later := { run with stack := .change number event (next + 1) :: run.stack }
    match sheet.listeners.get? next with
    | none => run
    | some .monitor =>
      later.push (later.world.emitFrom number (ascii "cache") event.change.name event.key)
    | some (.scripted callback) =>
      let noted := { later with log := run.log ++ [World.changeEntry sheet callback.name event] }
      if callback.fires event.change.name then
        let listeners := sheet.listeners.set next (.scripted callback.spend)
        noted.push (noted.world.updateSheet number ({ · with listeners }), [.script callback.script])
      else noted

/-- Calls an emitter's observer at `next`, if there is one. -/
def visitObserver (run : Run) (number : Nat) (report : Diagnostic) (next : Nat) : Run :=
  match run.world.emitter? number with
  | none => run
  | some emitter =>
    match emitter.observers[next]? with
    | none => run
    | some callback =>
      let noted := { run with
        stack := .report number report (next + 1) :: run.stack
        log := run.log ++ [.report callback.name report.text emitter.size] }
      if callback.fires report.severity.name then
        let observers := emitter.observers.set next callback.spend
        noted.push
          (noted.world.updateEmitter number ({ · with observers }), [.script callback.script])
      else noted

/-- One reference of a walk, or the selectors when there is none left. -/
def advanceWalk (run : Run) (number : Nat) (walk : Walk) : Run :=
  match run.world.sheet? number with
  | none => run
  | some sheet =>
    if walk.tasks.isEmpty then
      let name := walk.className
      run.push (run.world.setForest number (sheet.forest.addSelectors name walk.styled),
        [.done number (ascii "register") name, .answer (.text name)])
    else
      let (forest, next, event) := walk.step sheet.forest
      run.push (run.world.setForest number forest, World.tell number event ++ [.walk number next])

/-- One reference given back. -/
def advanceRemovals (run : Run) (number : Nat) : List Removal → Run
  | [] => run
  | .all slot :: rest =>
    let times := ((run.world.sheet? number).map (·.forest.slotCount slot)).getD 0
    { run with
      stack := .removals number (List.replicate times (.one slot) ++ rest) :: run.stack }
  | .one slot :: rest =>
    match run.world.sheet? number with
    | none => run
    | some sheet =>
      let (forest, event) := sheet.forest.release slot.container slot.key
      run.push (run.world.setForest number forest,
        World.tell number event ++ [.removals number rest])

/-- One step of the frame on top of the stack, which is already taken off. -/
def advance (run : Run) : Frame → Run
  | .script [] => run
  | .script (call :: rest) =>
    match run.world.call call with
    | .ok change => { run with stack := .script rest :: run.stack }.push change
    | .error message => { run with stack := [], failure := some message }
  | .change sheet event next => run.visitListener sheet event next
  | .report emitter report next => run.visitObserver emitter report next
  | .walk sheet walk => run.advanceWalk sheet walk
  | .removals sheet left => run.advanceRemovals sheet left
  | .done sheet stage message =>
    run.push (run.world.emitFrom sheet (ascii "registry") stage message)
  | .answer reply => { run with reply }
  | .answerCount emitter => { run with reply := .number (run.world.reportCount emitter) }

def step (run : Run) : Run :=
  match run.stack with
  | [] => run
  | frame :: rest => { run with stack := rest }.advance frame

def isDone (run : Run) : Bool := run.stack.isEmpty

def steps (run : Run) : Nat → Run
  | 0 => run
  | fuel + 1 => if run.isDone then run else run.step.steps fuel

end Run

/-! ## How long a run can be

The mass counts what a run can still use up: references on the top level,
listeners and observers, calls to make, firings with the calls of their
scripts, and the references that walks have still to take. No step increases
it, each call, firing and reference taken decreases it, and between two
decreases the frames on the stack bound the number of steps. -/

def Listener.mass : Listener → Nat
  | .monitor => 1
  | .scripted callback => callbackMass callback + 1

def Sheet.mass (sheet : Sheet) : Nat := sheet.container.mass + sheet.listeners.mass Listener.mass

def observersMass (emitter : Emitter (Callback Call)) : Nat :=
  total (emitter.observers.map (callbackMass · + 1))

def World.mass (world : World) : Nat :=
  total (world.sheets.map Sheet.mass) + total (world.emitters.map observersMass)

def Task.mass : Task → Nat
  | .block _ _ block => 6 * block.size - 3
  | .atRule _ _ _ body => 6 * body.size

namespace Frame

def mass : Frame → Nat
  | .script calls => scriptMass calls
  | .walk _ w => total (w.tasks.map Task.mass)
  | _ => 0

/-- The steps that tell the listeners of one change, with a report each. -/
def changeCost (m : Nat) : Nat := m * (m + 4) + 1

def removalCost (m : Nat) : Removal → Nat
  | .one _ => changeCost m + 1
  | .all _ => m * (changeCost m + 1) + 1

/-- The steps of a frame before the next decrease of a run of mass `m`. -/
def cost (m : Nat) : Frame → Nat
  | .script _ => 1
  | .change _ _ next => (m - next) * (m + 4) + 1
  | .report _ _ next => m - next + 1
  | .walk _ _ => m + 6
  | .removals _ left => total (left.map (removalCost m)) + 1
  | .done _ _ _ => m + 3
  | .answer _ => 1
  | .answerCount _ => 1

end Frame

namespace Run

def totalMass (run : Run) : Nat := run.world.mass + total (run.stack.map Frame.mass)

/-- The steps that a unit of mass is worth. -/
def reserve (m : Nat) : Nat := m * (m * (Frame.changeCost m + 1) + 1) + m + 10

def bound (run : Run) : Nat :=
  let m := run.totalMass
  m * reserve m + total (run.stack.map (Frame.cost m))

end Run

/-! ## Sessions -/

structure Outcome where
  result : Except Bytes Reply
  log : List LogEntry

namespace World

def start (world : World) (call : Call) : Run := ⟨world, [.script [call]], [], .nothing, none⟩

/-- Runs a call to its end. A failure keeps the changes made before it. -/
def run (world : World) (call : Call) : World × Outcome :=
  let start := world.start call
  let last := start.steps start.bound
  let result := match last.failure with
    | some message => .error message
    | none => .ok last.reply
  (last.world.settle, ⟨result, last.log⟩)

end World
end StyleRegistry.SheetSession
