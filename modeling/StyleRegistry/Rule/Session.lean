import StyleRegistry.Cache.Subscribers
import StyleRegistry.Rule.Registration

/-! # Sessions on a tree of containers

A root container, changed call by call at any depth, with listeners on any
container. The listeners only note what they are told. A container that
leaves the tree takes its listeners with it. -/
namespace StyleRegistry.RuleSession

/-! ## Calls and answers -/

/-- A node as a call names it; it finds the stored node of the same key. -/
inductive Probe where
  | style (declarations : Bytes)
  | atRule (rule : Bytes)

namespace Probe

def node : Probe → Node
  | .style declarations => Node.fresh declarations
  | .atRule rule => Node.freshAtRule rule

def key (probe : Probe) : Bytes := probe.node.key

end Probe

inductive Call where
  | add (probe : Probe)
  | remove (probe : Probe)
  | count (probe : Probe)
  | find (key : Bytes)
  | clear
  | render
  | register (styles : Layer)
  | unregister (styles : Layer)
  | listen (name : Bytes)
  | unlisten (id : Nat)
  | addSelector (declarations selector : Bytes)
  | removeSelector (declarations selector : Bytes)
  | clearSelectors (declarations : Bytes)

inductive Reply where
  | nothing
  | stored (key text : Bytes) (count : Nat)
  | count (count : Nat) (present : Bool)
  | found (node : Option (Bytes × Bytes))
  | text (text : Bytes)
  | listener (id : Nat)
  | flag (value : Bool)
  | noSuchPath
  | noSuchStyle

structure LogEntry where
  name : Bytes
  change : Change
  key : Bytes
  render : Bytes

/-! ## State -/

structure Registry where
  container : Place
  listeners : Subscribers Bytes

/-- Between calls nothing evicted is held, so the forest has no evictions. -/
structure Session where
  forest : Forest
  registries : List Registry

namespace Session

def initial : Session := ⟨.ofContainer Cache.empty, []⟩

def listeners (session : Session) (forest : Forest) (place : Place) : Subscribers Bytes :=
  match session.registries.find? fun r => forest.locate r.container == forest.locate place with
  | some registry => registry.listeners
  | none => .empty

def setListeners (session : Session) (place : Place) (listeners : Subscribers Bytes) : Session :=
  { session with
    registries := ⟨place, listeners⟩ :: session.registries.filter fun r =>
      session.forest.locate r.container != session.forest.locate place }

/-- What the listeners of an event's container note. Places of one container
agree in every later forest too. -/
def note (session : Session) (forest : Forest) (event : Event) : List LogEntry :=
  (session.listeners forest event.container).present.map fun listener =>
    ⟨listener.2, event.change, event.key, event.node.render⟩

/-- Drops what was evicted, with its listeners. -/
def settle (session : Session) (forest : Forest) : Session :=
  let settled := Forest.ofContainer forest.root
  ⟨settled, session.registries.filterMap fun r =>
    let address := forest.locate r.container
    if address.origin.isNone then some ⟨settled.place address, r.listeners⟩ else none⟩

def finish (session : Session) (forest : Forest) (events : List Event) (reply : Reply) :
    Session × Reply × List LogEntry :=
  (session.settle forest, reply, events.flatMap (session.note forest))

/-! ## Running a call -/

def stored (forest : Forest) (place : Place) (key : Bytes) : Reply :=
  match (forest.container? place).bind (·.find? key) with
  | some entry => .stored key entry.item.text entry.count
  | none => .nothing

/-- Changes the selectors of a stored block, which tells no listener. -/
def onSelectors (session : Session) (place : Place) (declarations : Bytes)
    (change : Cache Selector → Cache Selector) (reply : Cache Selector → Reply) :
    Session × Reply × List LogEntry :=
  let slot := session.forest.childPlace place (Key.style declarations)
  match (session.forest.node? slot).bind Node.selectors? with
  | none => (session, .noSuchStyle, [])
  | some selectors =>
    session.finish (session.forest.updateNode slot (Node.mapSelectors change)) []
      (reply (change selectors))

def callIn (session : Session) (place : Place) (container : Container) :
    Call → Session × Reply × List LogEntry
  | .add probe =>
    let (forest, event) := session.forest.acquire place probe.node
    session.finish forest event.toList (stored forest place probe.key)
  | .remove probe =>
    let (forest, event) := session.forest.release place probe.key
    session.finish forest event.toList .nothing
  | .count probe => (session, .count (container.count probe.key) (container.contains probe.key), [])
  | .find key =>
    (session, .found ((container.item? key).map fun node => (node.text, node.render)), [])
  | .clear =>
    let (forest, events) := session.forest.clear place
    session.finish forest events .nothing
  | .render => (session, .text container.render, [])
  | .register styles =>
    let outcome := session.forest.register place styles
    session.finish outcome.forest outcome.events (.text outcome.className)
  | .unregister styles =>
    let outcome := session.forest.unregister place styles
    session.finish outcome.forest outcome.events (.text outcome.className)
  | .listen name =>
    let listeners := (session.listeners session.forest place).add name
    (session.setListeners place listeners, .listener listeners.issued, [])
  | .unlisten id =>
    let listeners := session.listeners session.forest place
    (session.setListeners place (listeners.remove id), .flag (listeners.contains id), [])
  | .addSelector declarations text =>
    session.onSelectors place declarations (·.acquire ⟨text⟩) fun selectors =>
      match selectors.find? (Key.selector text) with
      | some entry => .stored entry.key entry.item.text entry.count
      | none => .nothing
  | .removeSelector declarations text =>
    session.onSelectors place declarations (·.release (Key.selector text)) fun _ => .nothing
  | .clearSelectors declarations =>
    session.onSelectors place declarations (fun _ => .empty) fun _ => .nothing

/-- Runs a call in the container that a way of at-rule texts leads to. -/
def call (session : Session) (rules : List Bytes) (call : Call) :
    Session × Reply × List LogEntry :=
  let place := session.forest.place ⟨none, rules.map Key.atRule⟩
  match session.forest.container? place with
  | none => (session, .noSuchPath, [])
  | some container => session.callIn place container call

end Session
end StyleRegistry.RuleSession
