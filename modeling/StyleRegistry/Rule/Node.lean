import StyleRegistry.Hash
import StyleRegistry.Style.Selector
import StyleRegistry.Cache.Basic

/-! # Rule nodes

What a style sheet holds: declaration blocks with the selectors that share
them, and at-rules with a container of their own. Every item's key is a
letter for its kind and the numeral of the hash of its text, so equal texts
share a slot and kinds never do. -/
namespace StyleRegistry

open Bytes (ascii)

/-! ## Keys -/

namespace Key

def selector (text : Bytes) : Bytes := ascii "s" ++ Hash.nameOf text

def style (declarations : Bytes) : Bytes := ascii "n" ++ Hash.nameOf declarations

def atRule (rule : Bytes) : Bytes := ascii "a" ++ Hash.nameOf rule

end Key

instance : Keyed Selector := ⟨fun selector => Key.selector selector.text⟩

/-! ## Nodes -/

inductive Node where
  | style (declarations : Bytes) (selectors : Cache Selector)
  | atRule (rule : Bytes) (body : Cache Node)

abbrev Container := Cache Node

namespace Node

def fresh (declarations : Bytes) : Node := .style declarations Cache.empty

def freshAtRule (rule : Bytes) : Node := .atRule rule Cache.empty

/-- The text that a node is known by: its declarations or its rule. -/
def text : Node → Bytes
  | .style declarations _ => declarations
  | .atRule rule _ => rule

def key : Node → Bytes
  | .style declarations _ => Key.style declarations
  | .atRule rule _ => Key.atRule rule

instance : Keyed Node := ⟨key⟩

def selectors? : Node → Option (Cache Selector)
  | .style _ selectors => some selectors
  | .atRule _ _ => none

def body? : Node → Option Container
  | .style _ _ => none
  | .atRule _ body => some body

def mapSelectors (change : Cache Selector → Cache Selector) : Node → Node
  | .style declarations selectors => .style declarations (change selectors)
  | .atRule rule body => .atRule rule body

def mapBody (change : Container → Container) : Node → Node
  | .style declarations selectors => .style declarations selectors
  | .atRule rule body => .atRule rule (change body)

/-! ## Rendering -/

/-- A block without declarations renders as nothing, whatever its selectors. -/
def renderStyle (declarations : Bytes) (selectors : Cache Selector) : Bytes :=
  if declarations.isEmpty then []
  else Bytes.join (ascii ",") (selectors.items.map (·.text))
    ++ ascii "\x7b" ++ declarations ++ ascii "\x7d"

mutual

def render : Node → Bytes
  | .style declarations selectors => renderStyle declarations selectors
  | .atRule rule body => rule ++ ascii "\x7b" ++ renderBody body ++ ascii "\x7d"

def renderBody : Cache Node → Bytes
  | ⟨entries⟩ => renderEntries entries

def renderEntries : List (Entry Node) → Bytes
  | [] => []
  | ⟨_, node, _⟩ :: rest => render node ++ renderEntries rest

end

end Node

namespace Container

def render (container : Container) : Bytes := Node.renderBody container

end Container
end StyleRegistry
