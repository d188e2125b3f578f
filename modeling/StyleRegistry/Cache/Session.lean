import StyleRegistry.Callback

/-! # Sessions on an observed cache

A cache whose listeners may call it again while they are being told of a
change. A run is a stack of frames, each the rest of something begun: a
script, an emission, a clearing. One step does one thing to the cache, calls
one listener or drops a finished frame. A failure drops the whole stack and
leaves the cache as it is. -/
namespace StyleRegistry.CacheSession

open Bytes (ascii)

structure Item where
  key : Bytes
  payload : Bytes
  deriving DecidableEq, Repr

instance : Keyed Item := ⟨Item.key⟩

/-! ## Calls and answers -/

inductive Call where
  | add (item : Item)
  | remove (key : Bytes)
  | count (key : Bytes)
  | find (key : Bytes)
  | clear
  | listen (callback : Callback Call)
  | unlisten (id : Nat)
  | fail (message : Bytes)

inductive Reply where
  | nothing
  | payload (payload : Option Bytes)
  | count (count : Nat) (present : Bool)
  | listener (id : Nat)
  | flag (value : Bool)
  deriving DecidableEq, Repr

/-- A listener notes the change it is told of and how the cache is now. -/
structure LogEntry where
  name : Bytes
  change : Change
  item : Item
  count : Nat
  size : Nat
  deriving DecidableEq, Repr

/-! ## Runs -/

inductive Frame where
  /-- The calls still to make. -/
  | script (calls : List Call)
  /-- The listeners still to tell, from the one at `next` in the list as it is then. -/
  | emission (change : Change) (item : Item) (next : Nat)
  /-- The references still to give back. -/
  | release (key : Bytes) (times : Nat)
  /-- The keys still to empty, each of as many references as it has at its turn. -/
  | clearing (keys : List Bytes)
  /-- The answer of a call whose work is done. -/
  | answer (reply : Reply)

structure State where
  cache : Cache Item
  listeners : Subscribers (Callback Call)

/-- `reply` is the answer of the call that was done last. -/
structure Run where
  state : State
  stack : List Frame
  log : List LogEntry
  reply : Reply
  failure : Option Bytes

namespace State

def initial : State := ⟨.empty, .empty⟩

def logEntry (state : State) (name : Bytes) (change : Change) (item : Item) : LogEntry :=
  ⟨name, change, item, state.cache.count item.key, state.cache.size⟩

/-- The frames that tell the listeners of an item whose presence changed. -/
def tell (change : Change) (item : Option Item) : List Frame :=
  (item.map fun item => Frame.emission change item 0).toList

def payload (cache : Cache Item) (key : Bytes) : Reply :=
  .payload ((cache.item? key).map (·.payload))

/-- What a call does at once, and the frames for the rest of it. Only the call
that is made to fail fails. -/
def call (state : State) : Call → Except Bytes (State × List Frame)
  | .add item =>
    let cache := state.cache.acquire item
    let fresh := if state.cache.contains item.key then none else some item
    .ok ({ state with cache }, tell .add fresh ++ [.answer (payload cache item.key)])
  | .remove key => .ok (state, [.release key 1, .answer .nothing])
  | .count key =>
    .ok (state, [.answer (.count (state.cache.count key) (state.cache.contains key))])
  | .find key => .ok (state, [.answer (payload state.cache key)])
  | .clear => .ok (state, [.clearing state.cache.keys, .answer .nothing])
  | .listen callback =>
    let listeners := state.listeners.add callback
    .ok ({ state with listeners }, [.answer (.listener listeners.issued)])
  | .unlisten id =>
    .ok ({ state with listeners := state.listeners.remove id },
      [.answer (.flag (state.listeners.contains id))])
  | .fail message => .error message

end State

namespace Run

/-- Calls the listener at `next`, if there is one. A firing is used up before
its script runs. -/
def visit (run : Run) (change : Change) (item : Item) (next : Nat) : Run :=
  match run.state.listeners.get? next with
  | none => run
  | some callback =>
    let later := Frame.emission change item (next + 1) :: run.stack
    let log := run.log ++ [run.state.logEntry callback.name change item]
    if callback.fires change.name then
      let listeners := run.state.listeners.set next callback.spend
      { run with
        state := { run.state with listeners }, log, stack := .script callback.script :: later }
    else { run with log, stack := later }

def release (run : Run) (key : Bytes) : Run :=
  let frames := State.tell .remove (run.state.cache.evicted? key)
  { run with
    state := { run.state with cache := run.state.cache.release key }
    stack := frames ++ run.stack }

/-- One step of the frame on top of the stack, which is already taken off. -/
def advance (run : Run) : Frame → Run
  | .script [] => run
  | .script (call :: rest) =>
    match run.state.call call with
    | .ok (state, frames) => { run with state, stack := frames ++ .script rest :: run.stack }
    | .error message => { run with stack := [], failure := some message }
  | .emission change item next => run.visit change item next
  | .release _ 0 => run
  | .release key (times + 1) =>
    { run with stack := .release key times :: run.stack }.release key
  | .clearing [] => run
  | .clearing (key :: rest) =>
    { run with
      stack := .release key (run.state.cache.count key) :: .clearing rest :: run.stack }
  | .answer reply => { run with reply }

def step (run : Run) : Run :=
  match run.stack with
  | [] => run
  | frame :: rest => { run with stack := rest }.advance frame

def isDone (run : Run) : Bool := run.stack.isEmpty

def steps (run : Run) : Nat → Run
  | 0 => run
  | fuel + 1 => if run.isDone then run else run.step.steps fuel

/-! ## How long a run can be

The mass counts what a run can still use up: references, listeners, calls to
make and firings with the calls of their scripts. No step increases it, each
call and each firing decreases it, and between two decreases the frames on the
stack bound the number of steps. -/

mutual

def callMass : Call → Nat
  | .add _ => 3
  | .listen callback => callbackMass callback + 2
  | _ => 1

def callbackMass : Callback Call → Nat
  | ⟨_, _, firings, script⟩ => firings * (scriptMass script + 1)

def scriptMass : List Call → Nat
  | [] => 0
  | call :: rest => callMass call + scriptMass rest

end

def Frame.mass : Frame → Nat
  | .script calls => scriptMass calls
  | _ => 0

def totalMass (run : Run) : Nat :=
  run.state.cache.mass + run.state.listeners.mass (callbackMass · + 1)
    + total (run.stack.map Frame.mass)

/-- The steps of a frame before the next decrease of a run of mass `m`. -/
def Frame.cost (m : Nat) : Frame → Nat
  | .script _ => 1
  | .emission _ _ next => m - next + 1
  | .release _ times => times * (m + 3) + 1
  | .clearing keys => keys.length * (m * (m + 3) + 2) + 1
  | .answer _ => 1

/-- The steps that a unit of mass is worth. -/
def reserve (m : Nat) : Nat := m * (m * (m + 3) + 2) + 4

def bound (run : Run) : Nat :=
  let m := run.totalMass
  m * reserve m + total (run.stack.map (Frame.cost m))

end Run

/-! ## Sessions -/

structure Outcome where
  result : Except Bytes Reply
  log : List LogEntry

namespace State

def start (state : State) (call : Call) : Run := ⟨state, [.script [call]], [], .nothing, none⟩

/-- Runs a call to its end. A failure keeps the changes made before it. -/
def run (state : State) (call : Call) : State × Outcome :=
  let start := state.start call
  let last := start.steps start.bound
  let result := match last.failure with
    | some message => .error message
    | none => .ok last.reply
  (last.state, ⟨result, last.log⟩)

end State
end StyleRegistry.CacheSession
