import StyleRegistry.Style.Property

/-! # Compiled layers

What a layer contributes to a style sheet: the text of its declarations and,
in the order of their raw keys, the blocks nested below it under their
trimmed keys. -/
namespace StyleRegistry

inductive Block where
  | mk (declarations : Bytes) (children : List (Bytes × Block))

namespace Block

def declarations : Block → Bytes
  | .mk text _ => text

def children : Block → List (Bytes × Block)
  | .mk _ blocks => blocks

/-! ## Compilation -/

/-- Sorts compiled blocks by their raw keys and trims the keys. -/
def arrange (blocks : List (Bytes × Block)) : List (Bytes × Block) :=
  (Bytes.sortByKey blocks).map fun entry => (Bytes.trim entry.1, entry.2)

mutual

def ofValue? : Value → Option Block
  | .nested layer => some (.mk (StyleRegistry.declarations (Layer.parse layer).properties)
      (arrange (ofEntries layer)))
  | _ => none

/-- The nested layers of a list of entries, compiled, under their raw keys. -/
def ofEntries : List (Bytes × Value) → List (Bytes × Block)
  | [] => []
  | (key, value) :: rest =>
    match ofValue? value with
    | some block => (key, block) :: ofEntries rest
    | none => ofEntries rest

end

/-! ## Size -/

mutual

/-- The number of layers that the block was compiled from. -/
def size : Block → Nat
  | .mk _ blocks => sizeAll blocks + 1

def sizeAll : List (Bytes × Block) → Nat
  | [] => 0
  | (_, block) :: rest => size block + sizeAll rest

end

end Block

def Layer.compile (layer : Layer) : Block :=
  .mk (declarations (Layer.parse layer).properties) (Block.arrange (Block.ofEntries layer))

end StyleRegistry
