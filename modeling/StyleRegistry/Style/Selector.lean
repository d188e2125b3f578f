import StyleRegistry.Bytes

/-! # Selectors

A selector may name its parent by an ampersand; one that does not is a
descendant of it. A key that starts with `@` is no selector but an at-rule. -/
namespace StyleRegistry

structure Selector where
  text : Bytes
  deriving DecidableEq, Repr

namespace Selector

open Bytes (ascii)

def ampersand : UInt8 := 38

/-- The selector of a whole tree, relative to itself. -/
def root : Bytes := [ampersand]

def interpolate (selector parent : Bytes) : Bytes :=
  if selector.contains ampersand then
    selector.flatMap fun b => if b = ampersand then parent else [b]
  else parent ++ ascii " " ++ selector

def ofClass (name : Bytes) : Bytes := ascii "." ++ name

def isAtRule (key : Bytes) : Bool := key.head? == some 64

end Selector
end StyleRegistry
