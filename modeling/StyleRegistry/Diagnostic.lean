import StyleRegistry.Numeral

/-! # Diagnostics

Reports with a severity, the module and stage they come from, and a
correlation id that groups those of one source; zero is no id. An emitter
keeps the reports at or above its minimum severity. -/
namespace StyleRegistry

open Bytes (ascii)

inductive Severity where
  | info
  | warning
  | error
  deriving DecidableEq, Repr

namespace Severity

def name : Severity → Bytes
  | .info => ascii "info"
  | .warning => ascii "warning"
  | .error => ascii "error"

def rank : Severity → Nat
  | .info => 0
  | .warning => 1
  | .error => 2

end Severity

/-- The time that a report is stamped with when it is emitted, and that goes with
it to the observers, is left out: it is a clock's, and nothing here reads it. -/
structure Diagnostic where
  severity : Severity
  module : Bytes
  stage : Bytes
  message : Bytes
  correlation : UInt64
  deriving DecidableEq, Repr

namespace Diagnostic

/-- `[severity] module/stage (cid:N): message`, without the parts that are
empty or zero. -/
def text (d : Diagnostic) : Bytes :=
  ascii "[" ++ d.severity.name ++ ascii "]"
    ++ (if d.module.isEmpty then [] else ascii " " ++ d.module)
    ++ (if d.stage.isEmpty then [] else ascii "/" ++ d.stage)
    ++ (if d.correlation = 0 then []
        else ascii " (cid:" ++ Numeral.decimal d.correlation.toNat ++ ascii ")")
    ++ ascii ": " ++ d.message

/-- A choice among the reports of an emitter. -/
inductive Filter where
  | all
  | severity (severity : Severity)
  | module (module : Bytes)
  | stage (module stage : Bytes)

def Filter.accepts : Filter → Diagnostic → Bool
  | .all, _ => true
  | .severity s, d => d.severity == s
  | .module m, d => d.module == m
  | .stage m s, d => d.module == m && d.stage == s

end Diagnostic

/-- The reports kept so far, and the observers in the order they joined. -/
structure Emitter (α : Type) where
  minimum : Severity
  events : List Diagnostic
  observers : List α

namespace Emitter

variable {α : Type}

def empty : Emitter α := ⟨.info, [], []⟩

def accepts (emitter : Emitter α) (d : Diagnostic) : Bool :=
  emitter.minimum.rank ≤ d.severity.rank

def record (emitter : Emitter α) (d : Diagnostic) : Emitter α :=
  { emitter with events := emitter.events ++ [d] }

def size (emitter : Emitter α) : Nat := emitter.events.length

def select (emitter : Emitter α) (filter : Diagnostic.Filter) : List Diagnostic :=
  emitter.events.filter filter.accepts

def clear (emitter : Emitter α) : Emitter α := { emitter with events := [] }

end Emitter
end StyleRegistry
