import StyleRegistry.Style.Block
import StyleRegistry.Rule.Walk

/-! # Undoing a registration

The undoing walk looks up everything that the registration of the same tree
would refer to and changes nothing yet. Where an at-rule is missing it goes on
without a container, only to keep the hash in step. What it found is given
back in reverse, so a block leaves before the at-rule that holds it. -/
namespace StyleRegistry

/-- A key in the container of a place. -/
structure Slot where
  container : Place
  key : Bytes
  deriving DecidableEq, Repr

/-! ## Looking up -/

/-- What the undoing walk has met so far. -/
structure Found where
  slots : List Slot
  styled : List Styled
  hash : UInt32

namespace Found

def nothing : Found := ⟨[], [], 0⟩

def className (found : Found) : Bytes := Hash.text found.hash

end Found

namespace Forest

def slot? (forest : Forest) (container : Option Place) (key : Bytes) : Option Slot :=
  match container with
  | none => none
  | some place =>
    if ((forest.container? place).any (·.contains key)) then some ⟨place, key⟩ else none

def slotPlace (forest : Forest) (slot : Slot) : Place := forest.childPlace slot.container slot.key

/-- Notes a block and, where the container has its declarations, the slot. -/
def meetBlock (forest : Forest) (container : Option Place) (selector : Bytes) (block : Block)
    (found : Found) : Found :=
  let hash := Hash.mixBlock found.hash selector block
  match forest.slot? container (Key.style block.declarations) with
  | some slot =>
    ⟨found.slots ++ [slot], found.styled ++ [⟨selector, forest.slotPlace slot⟩], hash⟩
  | none => { found with hash }

mutual

def replay (forest : Forest) (container : Option Place) (selector : Bytes) (found : Found) :
    Block → Found
  | .mk declarations children =>
    replayAll forest container selector
      (forest.meetBlock container selector (.mk declarations children) found) children

def replayAll (forest : Forest) (container : Option Place) (selector : Bytes) (found : Found) :
    List (Bytes × Block) → Found
  | [] => found
  | (key, block) :: rest =>
    if Selector.isAtRule key then
      let slot := forest.slot? container (Key.atRule key)
      let met := { found with slots := found.slots ++ slot.toList }
      replayAll forest container selector
        (replay forest (slot.map forest.slotPlace) selector met block) rest
    else
      replayAll forest container selector
        (replay forest container (Selector.interpolate key selector) found block) rest

end

end Forest

/-! ## Giving back -/

/-- One reference, or as many as there are when the removal's turn comes. -/
inductive Removal where
  | one (slot : Slot)
  | all (slot : Slot)

namespace Found

def removals (found : Found) : List Removal := found.slots.reverse.map .one

end Found

namespace Forest

def slotCount (forest : Forest) (slot : Slot) : Nat :=
  ((forest.container? slot.container).map (·.count slot.key)).getD 0

/-- Every reference to every key of a container, in the container's order. -/
def clearance (forest : Forest) (place : Place) : List Removal :=
  ((forest.container? place).map (·.keys)).getD [] |>.map fun key => .all ⟨place, key⟩

def releaseTimes (forest : Forest) (slot : Slot) : Nat → Forest × List Event
  | 0 => (forest, [])
  | times + 1 =>
    let (changed, event) := forest.release slot.container slot.key
    let (last, events) := changed.releaseTimes slot times
    (last, event.toList ++ events)

def remove (forest : Forest) : Removal → Forest × List Event
  | .one slot => forest.releaseTimes slot 1
  | .all slot => forest.releaseTimes slot (forest.slotCount slot)

def removeEach (forest : Forest) : List Removal → Forest × List Event
  | [] => (forest, [])
  | removal :: rest =>
    let (changed, events) := forest.remove removal
    let (last, later) := changed.removeEach rest
    (last, events ++ later)

end Forest
end StyleRegistry
