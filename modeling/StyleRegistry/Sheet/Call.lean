import StyleRegistry.Callback
import StyleRegistry.ClassList
import StyleRegistry.Diagnostic
import StyleRegistry.Style.Block

/-! # Calls on style sheets

What can be asked of a factory with its sheets and of the diagnostic emitters
beside them, and what the answers are. Sheets and emitters are known by their
number in the order of their making. -/
namespace StyleRegistry.SheetSession

inductive Call where
  /-- A sheet of the factory's, or one with an id of the caller's choice. -/
  | newSheet (instanceId : Option UInt32)
  | register (sheet : Nat) (styles : Layer)
  | unregister (sheet : Nat) (styles : Layer)
  | render (sheet : Nat)
  | clear (sheet : Nat)
  | url (sheet : Nat) (address : Bytes)
  | join (sheet : Nat) (items : List ClassItem)
  | listen (sheet : Nat) (callback : Callback Call)
  | unlisten (sheet : Nat) (id : Nat)
  | newEmitter
  /-- Sends a sheet's diagnostics to an emitter, or to none. -/
  | attach (sheet : Nat) (emitter : Option Nat)
  | emit (emitter : Nat) (report : Diagnostic)
  | setMinimum (emitter : Nat) (severity : Severity)
  | observe (emitter : Nat) (callback : Callback Call)
  | reports (emitter : Nat) (filter : Diagnostic.Filter)
  | reportTexts (emitter : Nat)
  | clearReports (emitter : Nat)
  | fail (message : Bytes)

inductive Reply where
  | nothing
  | sheet (number : Nat) (instanceId : UInt32) (id : Bytes) (created : UInt32)
  | text (text : Bytes)
  | number (n : Nat)
  | flag (value : Bool)
  | reports (reports : List Diagnostic)
  | texts (texts : List Bytes)

inductive LogEntry where
  /-- A listener's: the node it is told of and the number of top-level rules now. -/
  | change (name : Bytes) (change : Change) (key : Bytes) (rules : Nat) (render : Bytes)
  /-- An observer's: the report it is told of and the number of reports now. -/
  | report (name : Bytes) (text : Bytes) (size : Nat)
  deriving DecidableEq, Repr

/-! ## Mass

What a call can use up in a run: a reference or a listener for most, two
references for each layer of a tree, and the firings of a callback with the
calls of its script. -/

mutual

def callMass : Call → Nat
  | .register _ styles => 6 * styles.compile.size + 1
  | .unregister _ styles => 2 * styles.compile.size + 1
  | .listen _ callback => callbackMass callback + 3
  | .observe _ callback => callbackMass callback + 3
  | _ => 3

def callbackMass : Callback Call → Nat
  | ⟨_, _, firings, script⟩ => firings * (scriptMass script + 1)

def scriptMass : List Call → Nat
  | [] => 0
  | call :: rest => callMass call + scriptMass rest

end

end StyleRegistry.SheetSession
