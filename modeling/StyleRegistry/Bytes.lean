/-! # Byte strings

Every text of the library is a list of bytes: keys, declarations and
selectors need not be well-formed in any encoding, and no function looks
beyond single bytes. Texts are ordered by their bytes, unsigned, with a
proper prefix first. -/
namespace StyleRegistry

abbrev Bytes := List UInt8

namespace Bytes

/-- The bytes of a text whose characters are all ASCII. -/
def ascii (s : String) : Bytes := s.toList.map fun c => c.toNat.toUInt8

/-! ## Character classes -/

def isUpper (b : UInt8) : Bool := 65 ≤ b && b ≤ 90

def isLower (b : UInt8) : Bool := 97 ≤ b && b ≤ 122

def isDigit (b : UInt8) : Bool := 48 ≤ b && b ≤ 57

/-- Space, tab, line feed, vertical tab, form feed and carriage return. -/
def isSpace (b : UInt8) : Bool := b == 32 || (9 ≤ b && b ≤ 13)

/-- ASCII letters alone have another case. -/
def lower (b : UInt8) : UInt8 := if isUpper b then b + 32 else b

/-! ## Trimming and joining -/

def trimLeft (text : Bytes) : Bytes := text.dropWhile isSpace

def trimRight (text : Bytes) : Bytes := (text.reverse.dropWhile isSpace).reverse

def trim (text : Bytes) : Bytes := trimRight (trimLeft text)

/-- The texts in order with `separator` between neighbours. -/
def join (separator : Bytes) : List Bytes → Bytes
  | [] => []
  | [text] => text
  | text :: rest => text ++ separator ++ join separator rest

/-! ## Order by key -/

/-- Puts an entry before the first one whose key is not smaller. -/
def insertByKey {α : Type} (entry : Bytes × α) : List (Bytes × α) → List (Bytes × α)
  | [] => [entry]
  | head :: rest =>
    if head.1 < entry.1 then head :: insertByKey entry rest else entry :: head :: rest

def sortByKey {α : Type} (entries : List (Bytes × α)) : List (Bytes × α) :=
  entries.foldr insertByKey []

end Bytes
end StyleRegistry
