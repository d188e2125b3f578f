import StyleRegistry.Percent
import StyleRegistry.Rule.Removal
import StyleRegistry.Sheet.Call

/-! # Style sheets and their surroundings

A sheet is a container of rules with listeners on its top level. While an
emitter is attached, one of the listeners is the sheet's own and reports every
top-level change to the emitter. -/
namespace StyleRegistry.SheetSession

open Bytes (ascii)

inductive Listener where
  /-- Reports to the emitter that the sheet is attached to at the time. -/
  | monitor
  | scripted (callback : Callback Call)

structure Sheet where
  instanceId : UInt32
  forest : Forest
  listeners : Subscribers Listener
  emitter : Option Nat
  /-- The id of the sheet's own listener while it has one. -/
  monitor : Option Nat

namespace Sheet

def create (instanceId : UInt32) : Sheet :=
  ⟨instanceId, .ofContainer .empty, .empty, none, none⟩

def id (sheet : Sheet) : Bytes := Hash.text sheet.instanceId

def container (sheet : Sheet) : Container := sheet.forest.root

/-- The place of the top level. -/
def top (sheet : Sheet) : Place := sheet.forest.place .root

/-- A report of the sheet's, under its instance id. -/
def report (sheet : Sheet) (module stage message : Bytes) : Diagnostic :=
  ⟨.info, module, stage, message, sheet.instanceId.toUInt64⟩

/-- Takes the sheet's own listener off and, for an emitter, adds a new one. -/
def attach (sheet : Sheet) (emitter : Option Nat) : Sheet :=
  let listeners := match sheet.monitor with
    | some id => sheet.listeners.remove id
    | none => sheet.listeners
  match emitter with
  | none => { sheet with listeners, emitter := none, monitor := none }
  | some number =>
    let listeners := listeners.add .monitor
    { sheet with listeners, emitter := some number, monitor := some listeners.issued }

/-- Forgets the evicted nodes, once nothing holds them. -/
def settle (sheet : Sheet) : Sheet := { sheet with forest := .ofContainer sheet.forest.root }

end Sheet

/-! ## The world -/

structure World where
  created : UInt32
  sheets : List Sheet
  emitters : List (Emitter (Callback Call))

namespace World

def initial : World := ⟨0, [], []⟩

def sheet? (world : World) (number : Nat) : Option Sheet := world.sheets[number]?

def emitter? (world : World) (number : Nat) : Option (Emitter (Callback Call)) :=
  world.emitters[number]?

def updateSheet (world : World) (number : Nat) (change : Sheet → Sheet) : World :=
  { world with sheets := world.sheets.modify number change }

def updateEmitter (world : World) (number : Nat)
    (change : Emitter (Callback Call) → Emitter (Callback Call)) : World :=
  { world with emitters := world.emitters.modify number change }

def setForest (world : World) (number : Nat) (forest : Forest) : World :=
  world.updateSheet number fun sheet => { sheet with forest }

def settle (world : World) : World := { world with sheets := world.sheets.map Sheet.settle }

def reportCount (world : World) (number : Nat) : Nat := ((world.emitter? number).map (·.size)).getD 0

/-- Adds a sheet; only those of the factory's own count. -/
def newSheet (world : World) (instanceId : Option UInt32) : World × Reply :=
  let (created, chosen) := match instanceId with
    | some id => (world.created, id)
    | none => (world.created + 1, world.created + 1)
  let sheet := Sheet.create chosen
  ({ world with created, sheets := world.sheets ++ [sheet] },
    .sheet world.sheets.length chosen sheet.id created)

end World
end StyleRegistry.SheetSession
