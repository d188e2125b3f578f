import StyleRegistry.Rule.Node

/-! # Containers with their evicted nodes

A walk over a tree of rules may still hold a node when a listener has evicted
it, and whatever the walk does to the node later must not reach a new node
that has taken its slot. A forest is therefore a root container together with
the nodes evicted from it. An address names a node by the keys on the way to
it, and a place is an address as of a moment: later evictions forward it, so
a place goes on naming the node that it named when it was taken. -/
namespace StyleRegistry

/-! ## Addresses and places -/

/-- A way of at-rule keys from the root container, or from the evicted node of
the given number; the last key may be a declaration block's. An address also
names the container of the node it names, and the empty way from the root
names the root container. -/
structure Address where
  origin : Option Nat
  path : List Bytes
  deriving DecidableEq, Repr

namespace Address

def root : Address := ⟨none, []⟩

def evicted (number : Nat) : Address := ⟨some number, []⟩

def child (address : Address) (key : Bytes) : Address :=
  ⟨address.origin, address.path ++ [key]⟩

def parent (address : Address) : Address := ⟨address.origin, address.path.dropLast⟩

/-- The new address of a node at or below `gone` when the node at `gone`
becomes the evicted node of the given number. -/
def forward (gone : Address) (number : Nat) (address : Address) : Address :=
  if address.origin = gone.origin ∧ gone.path.isPrefixOf address.path then
    ⟨some number, address.path.drop gone.path.length⟩
  else address

end Address

/-- An address as it was after the first `since` evictions. -/
structure Place where
  since : Nat
  address : Address
  deriving DecidableEq, Repr

/-! ## Forests -/

/-- A node out of its container, and where it stood before. -/
structure Eviction where
  address : Address
  node : Node

structure Forest where
  root : Container
  evictions : List Eviction

/-- A change of presence in some container. `place` is the node's own and
`node` is the node as it was when the change was made. -/
structure Event where
  change : Change
  container : Place
  key : Bytes
  place : Place
  node : Node

namespace Forest

def ofContainer (root : Container) : Forest := ⟨root, []⟩

/-- The place that an address names now. -/
def place (forest : Forest) (address : Address) : Place := ⟨forest.evictions.length, address⟩

/-- Forwards an address through evictions, the first of which has the given number. -/
def forwardAll (address : Address) : Nat → List Eviction → Address
  | _, [] => address
  | number, eviction :: rest =>
    forwardAll (eviction.address.forward number address) (number + 1) rest

/-- Where the node or container of a place is now. -/
def locate (forest : Forest) (place : Place) : Address :=
  forwardAll place.address place.since (forest.evictions.drop place.since)

/-- The place of the node that the container of a place now holds under a key. -/
def childPlace (forest : Forest) (place : Place) (key : Bytes) : Place :=
  forest.place ((forest.locate place).child key)

/-! ## Reading -/

/-- The container that a way of at-rule keys leads to. -/
def bodyIn? : Container → List Bytes → Option Container
  | container, [] => some container
  | container, key :: path =>
    match (container.item? key).bind Node.body? with
    | some body => bodyIn? body path
    | none => none

def evicted? (forest : Forest) (number : Nat) : Option Node :=
  forest.evictions[number]?.map (·.node)

def containerAt? (forest : Forest) (address : Address) : Option Container :=
  match address.origin with
  | none => bodyIn? forest.root address.path
  | some number =>
    ((forest.evicted? number).bind Node.body?).bind fun body => bodyIn? body address.path

def nodeAt? (forest : Forest) (address : Address) : Option Node :=
  match address.path.getLast? with
  | some key => (forest.containerAt? address.parent).bind (·.item? key)
  | none => address.origin.bind forest.evicted?

def node? (forest : Forest) (place : Place) : Option Node := forest.nodeAt? (forest.locate place)

def container? (forest : Forest) (place : Place) : Option Container :=
  forest.containerAt? (forest.locate place)

/-! ## Changing -/

def updateIn (change : Container → Container) : List Bytes → Container → Container
  | [], container => change container
  | key :: path, container => container.updateItem key (Node.mapBody (updateIn change path))

def updateEvicted (forest : Forest) (number : Nat) (change : Node → Node) : Forest :=
  { forest with
    evictions := forest.evictions.modify number fun eviction =>
      { eviction with node := change eviction.node } }

def updateContainerAt (forest : Forest) (address : Address)
    (change : Container → Container) : Forest :=
  match address.origin with
  | none => { forest with root := updateIn change address.path forest.root }
  | some number => forest.updateEvicted number (Node.mapBody (updateIn change address.path))

def updateNodeAt (forest : Forest) (address : Address) (change : Node → Node) : Forest :=
  match address.path.getLast?, address.origin with
  | some key, _ => forest.updateContainerAt address.parent (·.updateItem key change)
  | none, some number => forest.updateEvicted number change
  | none, none => forest

def updateNode (forest : Forest) (place : Place) (change : Node → Node) : Forest :=
  forest.updateNodeAt (forest.locate place) change

/-- Takes one reference to a node in the container of a place. -/
def acquire (forest : Forest) (place : Place) (node : Node) : Forest × Option Event :=
  let address := forest.locate place
  match forest.containerAt? address with
  | none => (forest, none)
  | some container =>
    let changed := forest.updateContainerAt address (·.acquire node)
    if container.contains node.key then (changed, none)
    else (changed, some ⟨.add, changed.place address, node.key,
      changed.place (address.child node.key), node⟩)

/-- Gives one reference to a key back in the container of a place. A node that
loses its last reference is kept among the evicted ones. -/
def release (forest : Forest) (place : Place) (key : Bytes) : Forest × Option Event :=
  let address := forest.locate place
  match forest.containerAt? address with
  | none => (forest, none)
  | some container =>
    let changed := forest.updateContainerAt address (·.release key)
    match container.evicted? key with
    | none => (changed, none)
    | some node =>
      let number := forest.evictions.length
      let kept := { changed with evictions := changed.evictions ++ [⟨address.child key, node⟩] }
      (kept, some ⟨.remove, kept.place address, key, kept.place (.evicted number), node⟩)

end Forest

namespace Event

/-- Only the changes of the root container are told to a sheet's listeners. -/
def isTopLevel (event : Event) : Bool := event.container.address == .root

end Event
end StyleRegistry
