import StyleRegistry.Style.Value

/-! # Properties

How a layer splits into properties and nested layers, and the declarations
that properties become. Entries are taken in the order of their raw keys, so
the order of insertion has no effect. -/
namespace StyleRegistry

open Bytes (ascii)

/-! ## Property names -/

/-- Writes a hyphen in front of each capital and then lower-cases it. A name
that starts with the vendor's `ms-` gets the hyphen that other vendors' names
have from their capital. -/
def hyphenate (name : Bytes) : Bytes :=
  let spread := name.flatMap fun b => if Bytes.isUpper b then ascii "-" ++ [b] else [b]
  let vendored := if (ascii "ms-").isPrefixOf spread then ascii "-" ++ spread else spread
  vendored.map Bytes.lower

/-! ## Declarations -/

structure Property where
  name : Bytes
  value : Value

/-- A null declares nothing. -/
def declaration (name : Bytes) (s : Scalar) : Bytes :=
  if s.isNull then [] else name ++ ascii ":" ++ s.toText ++ ascii ";"

/-- One declaration for a scalar and one for each element of a list. -/
def Property.text (property : Property) : Bytes :=
  match property.value with
  | .scalar s => declaration property.name s
  | .array items => items.flatMap (declaration property.name)
  | .nested _ => []

def declarations (properties : List Property) : Bytes := properties.flatMap Property.text

/-! ## Splitting a layer -/

structure ParsedLayer where
  properties : List Property
  nested : List (Bytes × Layer)

def property? : Bytes × Value → Option Property
  | (_, .nested _) => none
  | (key, value) => some ⟨hyphenate (Bytes.trim key), value⟩

def nested? : Bytes × Value → Option (Bytes × Layer)
  | (key, .nested layer) => some (Bytes.trim key, layer)
  | _ => none

def Layer.parse (layer : Layer) : ParsedLayer :=
  let entries := Bytes.sortByKey layer
  ⟨entries.filterMap property?, entries.filterMap nested?⟩

end StyleRegistry
