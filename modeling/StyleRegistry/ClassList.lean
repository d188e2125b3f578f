import StyleRegistry.Bytes

/-! # Class lists

The text of a `class` attribute, from names, lists of further items and names
that are switched on or off. -/
namespace StyleRegistry

inductive ClassItem where
  | null
  | name (text : Bytes)
  | list (items : List ClassItem)
  | flags (names : List (Bytes × Bool))

namespace ClassItem

/-- A name that ends before its first zero byte. -/
def zeroTerminated (text : Bytes) : ClassItem := .name (text.takeWhile (· != 0))

def separator : Bytes := Bytes.ascii " "

def enabled (names : List (Bytes × Bool)) : List Bytes :=
  (names.filter (·.2)).map (·.1)

mutual

/-- The names an item contributes. A list contributes its own joined text as
one name, even where that text is empty. -/
def names : ClassItem → List Bytes
  | .null => []
  | .name text => [text]
  | .list items => [Bytes.join separator (allNames items)]
  | .flags flagged => enabled flagged

def allNames : List ClassItem → List Bytes
  | [] => []
  | item :: rest => names item ++ allNames rest

end

def join (items : List ClassItem) : Bytes := Bytes.join separator (allNames items)

end ClassItem
end StyleRegistry
