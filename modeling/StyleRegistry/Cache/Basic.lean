import StyleRegistry.Bytes

/-! # Reference-counted caches

A cache holds one item per key and counts the references to it. The first
reference stores the item and later ones keep the stored one; the release of
the last reference evicts it. Entries stand in the order in which their keys
last became present. -/
namespace StyleRegistry

/-- Items that name their own slot in a cache. -/
class Keyed (α : Type) where
  key : α → Bytes

structure Entry (α : Type) where
  key : Bytes
  item : α
  count : Nat

structure Cache (α : Type) where
  entries : List (Entry α)

/-- What a cache tells its listeners about an item: it became present or absent. -/
inductive Change where
  | add
  | remove
  deriving DecidableEq, Repr

def Change.name : Change → Bytes
  | .add => Bytes.ascii "add"
  | .remove => Bytes.ascii "remove"

namespace Cache

variable {α : Type}

def empty : Cache α := ⟨[]⟩

/-! ## Reading -/

def find? (cache : Cache α) (key : Bytes) : Option (Entry α) :=
  cache.entries.find? fun entry => entry.key == key

def item? (cache : Cache α) (key : Bytes) : Option α := (cache.find? key).map (·.item)

def count (cache : Cache α) (key : Bytes) : Nat := ((cache.find? key).map (·.count)).getD 0

def contains (cache : Cache α) (key : Bytes) : Bool := (cache.find? key).isSome

def keys (cache : Cache α) : List Bytes := cache.entries.map (·.key)

def items (cache : Cache α) : List α := cache.entries.map (·.item)

def size (cache : Cache α) : Nat := cache.entries.length

/-- The item that the release of one reference to the key evicts. -/
def evicted? (cache : Cache α) (key : Bytes) : Option α :=
  match cache.find? key with
  | some entry => if entry.count ≤ 1 then some entry.item else none
  | none => none

/-! ## Changing -/

/-- Changes the first entry of a key. -/
def updateEntry (key : Bytes) (change : Entry α → Entry α) : List (Entry α) → List (Entry α)
  | [] => []
  | entry :: rest =>
    if entry.key = key then change entry :: rest else entry :: updateEntry key change rest

def update (cache : Cache α) (key : Bytes) (change : Entry α → Entry α) : Cache α :=
  ⟨updateEntry key change cache.entries⟩

/-- Changes the stored item of a key and leaves its count. -/
def updateItem (cache : Cache α) (key : Bytes) (change : α → α) : Cache α :=
  cache.update key fun entry => { entry with item := change entry.item }

def erase (cache : Cache α) (key : Bytes) : Cache α :=
  ⟨cache.entries.eraseP fun entry => entry.key == key⟩

/-- Takes one reference to an item, which is stored if its key is absent. -/
def acquire [Keyed α] (cache : Cache α) (item : α) : Cache α :=
  let key := Keyed.key item
  if cache.contains key then cache.update key fun entry => { entry with count := entry.count + 1 }
  else ⟨cache.entries ++ [⟨key, item, 1⟩]⟩

/-- Gives one reference back. An absent key is left alone. -/
def release (cache : Cache α) (key : Bytes) : Cache α :=
  if (cache.evicted? key).isSome then cache.erase key
  else cache.update key fun entry => { entry with count := entry.count - 1 }

end Cache
end StyleRegistry
