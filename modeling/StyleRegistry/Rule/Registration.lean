import StyleRegistry.Rule.Removal

/-! # Registration

The three calls on a container, run to their end with listeners that change
nothing: registering a tree, undoing a registration, and clearing. Each gives
the forest it leaves and the changes of presence in their order. -/
namespace StyleRegistry

structure Outcome where
  forest : Forest
  events : List Event
  className : Bytes

namespace Walk

/-- A walk takes at most two references for each layer of its tree, and a
finished walk stays as it is. -/
def bound (block : Block) : Nat := 2 * block.size

def run (forest : Forest) (walk : Walk) : Nat → Forest × Walk × List Event
  | 0 => (forest, walk, [])
  | steps + 1 =>
    let (changed, next, event) := Walk.step forest walk
    let (last, done, events) := run changed next steps
    (last, done, event.toList ++ events)

end Walk

namespace Forest

def register (forest : Forest) (place : Place) (styles : Layer) : Outcome :=
  let block := styles.compile
  let (walked, walk, events) := (Walk.start place block).run forest (Walk.bound block)
  ⟨walked.addSelectors walk.className walk.styled, events, walk.className⟩

def unregister (forest : Forest) (place : Place) (styles : Layer) : Outcome :=
  let found := forest.replay (some place) Selector.root .nothing styles.compile
  let (removed, events) :=
    (forest.removeSelectors found.className found.styled).removeEach found.removals
  ⟨removed, events, found.className⟩

def clear (forest : Forest) (place : Place) : Forest × List Event :=
  forest.removeEach (forest.clearance place)

end Forest
end StyleRegistry
