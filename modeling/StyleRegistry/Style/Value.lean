import StyleRegistry.Number.Text

/-! # Style values and layers

A layer maps keys to values and keeps its keys in the order in which they
became present. A value is a scalar, a list of scalars, or a layer nested
below it. -/
namespace StyleRegistry

open Bytes (ascii)

inductive Scalar where
  | null
  | text (s : Bytes)
  | number (x : Binary64)
  | boolean (b : Bool)
  deriving DecidableEq, Repr

namespace Scalar

/-- A text that ends before its first zero byte. -/
def zeroTerminated (s : Bytes) : Scalar := .text (s.takeWhile (· != 0))

def whole (i : Int) : Scalar := .number (Binary64.ofInt i)

def toText : Scalar → Bytes
  | .null => []
  | .text s => s
  | .number x => Number.text x
  | .boolean b => ascii (if b then "true" else "false")

/-- Scalars of one kind compare by value, numbers numerically; scalars of two
kinds differ. -/
def same : Scalar → Scalar → Bool
  | .null, .null => true
  | .text s, .text t => s == t
  | .number x, .number y => x.numEq y
  | .boolean a, .boolean b => a == b
  | _, _ => false

def isNull : Scalar → Bool
  | .null => true
  | _ => false

def asText : Scalar → Bytes
  | .text s => s
  | _ => []

def asNumber : Scalar → Binary64
  | .number x => x
  | _ => ⟨0⟩

def asBoolean : Scalar → Bool
  | .boolean b => b
  | _ => false

end Scalar

inductive Value where
  | scalar (s : Scalar)
  | array (items : List Scalar)
  | nested (layer : List (Bytes × Value))

abbrev Layer := List (Bytes × Value)

namespace Value

def asScalar : Value → Scalar
  | .scalar s => s
  | _ => .null

def asArray : Value → List Scalar
  | .array items => items
  | _ => []

def asLayer : Value → Layer
  | .nested layer => layer
  | _ => []

end Value

namespace Layer

/-- Replaces the value of a present key where it stands; a new key comes last. -/
def set (key : Bytes) (value : Value) : Layer → Layer
  | [] => [(key, value)]
  | entry :: rest =>
    if entry.1 = key then (key, value) :: rest else entry :: set key value rest

def find? (layer : Layer) (key : Bytes) : Option Value :=
  (List.find? (fun entry => entry.1 == key) layer).map (·.2)

/-- Takes a key out of the layer and answers whether it was there. -/
def remove (layer : Layer) (key : Bytes) : Layer × Bool :=
  match List.findIdx? (fun entry => entry.1 == key) layer with
  | none => (layer, false)
  | some index => (List.eraseIdx layer index, true)

/-- What removing the key leaves. -/
def erase (layer : Layer) (key : Bytes) : Layer := (layer.remove key).1

/-- What removing the key answers. -/
def contains (layer : Layer) (key : Bytes) : Bool := (layer.remove key).2

/-- The layer that results from setting the pairs in order. -/
def ofPairs (pairs : List (Bytes × Value)) : Layer :=
  pairs.foldl (fun layer pair => set pair.1 pair.2 layer) []

end Layer
end StyleRegistry
