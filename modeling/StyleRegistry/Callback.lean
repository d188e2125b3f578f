import StyleRegistry.Cache.Basic
import StyleRegistry.Cache.Subscribers

/-! # Scripted callbacks

What sessions subscribe: a callback notes that it was called and may then run
a script of its own, a limited number of times. As nothing else starts a run
again, a session comes to an end when its mass is used up. -/
namespace StyleRegistry

/-- A callback with the script it runs. `firings` counts the runs it has left,
and `on` limits it to events of one name. -/
structure Callback (α : Type) where
  name : Bytes
  on : Option Bytes
  firings : Nat
  script : List α

namespace Callback

variable {α : Type}

def answers (callback : Callback α) (event : Bytes) : Bool :=
  match callback.on with
  | some name => name == event
  | none => true

def fires (callback : Callback α) (event : Bytes) : Bool :=
  0 < callback.firings && callback.answers event

def spend (callback : Callback α) : Callback α :=
  { callback with firings := callback.firings - 1 }

end Callback

/-! ## Mass -/

/-- The sum of the amounts that a run can still use up. -/
def total (amounts : List Nat) : Nat := amounts.foldr (· + ·) 0

/-- Every entry and every reference weighs one. -/
def Cache.mass {α : Type} (cache : Cache α) : Nat :=
  total (cache.entries.map fun entry => entry.count + 1)

def Subscribers.mass {α : Type} (weigh : α → Nat) (subscribers : Subscribers α) : Nat :=
  total (subscribers.present.map fun subscriber => weigh subscriber.2)

end StyleRegistry
