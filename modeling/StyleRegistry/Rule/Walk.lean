import StyleRegistry.Style.Block
import StyleRegistry.Rule.Forest

/-! # The registering walk

Registration visits the blocks of a tree in pre-order. Each block takes a
reference to its declarations in the current container; a block under an
at-rule takes one to the at-rule and goes on in its body, with the selector
unchanged. The walk is a list of tasks, one reference each, so that it can
stop after every change of presence and go on once the listeners are done. -/
namespace StyleRegistry

/-! ## Tasks -/

/-- The next reference that a walk takes, in the container of `place`. -/
inductive Task where
  | block (place : Place) (selector : Bytes) (block : Block)
  | atRule (place : Place) (selector : Bytes) (rule : Bytes) (body : Block)

def Task.ofChild (place : Place) (selector : Bytes) (child : Bytes × Block) : Task :=
  if Selector.isAtRule child.1 then .atRule place selector child.1 child.2
  else .block place (Selector.interpolate child.1 selector) child.2

/-- A declaration block that a walk met, with its selector relative to the tree. -/
structure Styled where
  selector : Bytes
  place : Place

/-- The hash covers each block's selector before its declarations, so it
depends on where a block stands. -/
def Hash.mixBlock (h : UInt32) (selector : Bytes) (block : Block) : UInt32 :=
  Hash.chain h [selector, block.declarations]

/-! ## The walk -/

structure Walk where
  tasks : List Task
  styled : List Styled
  hash : UInt32

namespace Walk

def start (place : Place) (block : Block) : Walk := ⟨[.block place Selector.root block], [], 0⟩

def className (walk : Walk) : Bytes := Hash.text walk.hash

/-- Takes the next reference. A place below the current container is taken
after the change, so it names the node that the container now holds. -/
def step (forest : Forest) (walk : Walk) : Forest × Walk × Option Event :=
  match walk.tasks with
  | [] => (forest, walk, none)
  | .block place selector block :: rest =>
    let node := Node.fresh block.declarations
    let (changed, event) := forest.acquire place node
    let styled := ⟨selector, changed.childPlace place node.key⟩
    (changed,
      ⟨block.children.map (Task.ofChild place selector) ++ rest, walk.styled ++ [styled],
        Hash.mixBlock walk.hash selector block⟩,
      event)
  | .atRule place selector rule body :: rest =>
    let node := Node.freshAtRule rule
    let (changed, event) := forest.acquire place node
    (changed,
      { walk with tasks := .block (changed.childPlace place node.key) selector body :: rest },
      event)

end Walk

/-! ## Selectors -/

namespace Forest

/-- Gives each block that a walk met its selector below the class. -/
def addSelectors (forest : Forest) (name : Bytes) (styled : List Styled) : Forest :=
  styled.foldl (fun forest style =>
    forest.updateNode style.place <| Node.mapSelectors
      (·.acquire ⟨Selector.interpolate style.selector (Selector.ofClass name)⟩)) forest

def removeSelectors (forest : Forest) (name : Bytes) (styled : List Styled) : Forest :=
  styled.foldl (fun forest style =>
    forest.updateNode style.place <| Node.mapSelectors
      (·.release (Key.selector (Selector.interpolate style.selector (Selector.ofClass name))))) forest

end Forest
end StyleRegistry
