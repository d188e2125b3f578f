import StyleRegistry.Proofs.Rule.Covered
import StyleRegistry.Proofs.Rule.Text
import StyleRegistry.Proofs.Style.Interpolation

/-! # What a container prints

A container prints its blocks and, around those of an at-rule, the rule and its
braces. Each printed block belongs to an entry of some container within, so
what holds of the entries holds of the printed blocks. A block that is covered
has a selector, and a selector that a tree gave begins with the tree's class, so
the list before the brace has text. -/
namespace StyleRegistry

open Bytes (ascii)
open Forest (bodyIn?)

/-! ## Pieces -/

/-- A part of what is printed. -/
inductive Piece where
  | block (selectors : List Bytes) (declarations : Bytes)
  | opening (rule : Bytes)
  | closing

namespace Piece

def list (selectors : List Bytes) : Bytes := Bytes.join (ascii ",") selectors

def text : Piece → Bytes
  | .block selectors declarations =>
    list selectors ++ ascii "\x7b" ++ declarations ++ ascii "\x7d"
  | .opening rule => rule ++ ascii "\x7b"
  | .closing => ascii "\x7d"

theorem list_ne_nil {selectors : List Bytes} (hs : selectors ≠ [])
    (h : ∀ selector ∈ selectors, selector ≠ []) : list selectors ≠ [] := by
  cases selectors with
  | nil => exact absurd rfl hs
  | cons first rest =>
    have hfirst := h first List.mem_cons_self
    cases rest with
    | nil => exact hfirst
    | cons second rest =>
      rw [list, Bytes.join, List.append_assoc]
      · exact List.append_ne_nil_of_left_ne_nil hfirst _
      · exact List.cons_ne_nil _ _

end Piece

namespace Node

mutual

def pieces : Node → List Piece
  | .style declarations selectors =>
    if declarations.isEmpty then [] else [.block (selectors.items.map (·.text)) declarations]
  | .atRule rule body => .opening rule :: (piecesBody body ++ [.closing])

def piecesBody : Cache Node → List Piece
  | ⟨entries⟩ => piecesEntries entries

def piecesEntries : List (Entry Node) → List Piece
  | [] => []
  | ⟨_, node, _⟩ :: rest => pieces node ++ piecesEntries rest

end

mutual

/-- What is printed is the texts of the pieces. -/
theorem render_eq : ∀ node : Node, node.render = node.pieces.flatMap Piece.text
  | .style declarations selectors => by
    rw [render, renderStyle, pieces]
    split
    · rfl
    · rw [List.flatMap_singleton]
      rfl
  | .atRule rule body => by
    rw [render, renderBody_eq body, pieces, List.flatMap_cons, List.flatMap_append,
      List.flatMap_singleton]
    simp only [Piece.text, List.append_assoc]

theorem renderBody_eq : ∀ body : Cache Node,
    renderBody body = (piecesBody body).flatMap Piece.text
  | ⟨entries⟩ => renderEntries_eq entries

theorem renderEntries_eq : ∀ entries : List (Entry Node),
    renderEntries entries = (piecesEntries entries).flatMap Piece.text
  | [] => rfl
  | ⟨_, node, _⟩ :: rest => by
    rw [renderEntries, render_eq node, renderEntries_eq rest, piecesEntries, List.flatMap_append]

end

end Node

namespace Container

def pieces (container : Container) : List Piece := Node.piecesBody container

theorem render_eq (container : Container) :
    container.render = container.pieces.flatMap Piece.text := Node.renderBody_eq container

/-! ## The entries behind them -/

/-- The block stands in some container within. -/
def HasBlock (root : Container) (entry : Entry Node) (declarations : Bytes)
    (selectors : Cache Selector) : Prop :=
  ∃ path body, bodyIn? root path = some body ∧ entry ∈ body.entries ∧
    entry.item = .style declarations selectors

/-- The piece prints a block that stands in some container within. -/
def Prints (root : Container) (texts : List Bytes) (declarations : Bytes) : Prop :=
  ∃ entry selectors, root.HasBlock entry declarations selectors ∧
    texts = selectors.items.map (·.text)

variable {root body : Container} {texts : List Bytes} {declarations : Bytes}

theorem Prints.within (h : root.WellFormed) {entry : Entry Node} (he : entry ∈ root.entries)
    (hb : entry.item.body? = some body) (hp : body.Prints texts declarations) :
    root.Prints texts declarations := by
  obtain ⟨inner, selectors, ⟨path, container, hc, hm, hi⟩, ht⟩ := hp
  refine ⟨inner, selectors, ⟨entry.key :: path, container, ?_, hm, hi⟩, ht⟩
  have hfind : root.item? entry.key = some entry.item := by
    rw [Cache.item?, h.tidy.sound.find?_of_mem he]
    rfl
  rw [Forest.bodyIn?_cons, hfind, Option.bind_some, hb]
  exact hc

-- By the structure of the tree. Each node is taken with the entry that it stands
-- in, since only the entry's key tells the way to what is inside.
mutual

theorem prints_of_node : ∀ (node : Node) (root : Container), root.WellFormed →
    ∀ entry ∈ root.entries, entry.item = node → .block texts declarations ∈ node.pieces →
      root.Prints texts declarations
  | .style stored selectors => by
    intro root _ entry he hi hp
    rw [Node.pieces] at hp
    split at hp
    · exact absurd hp List.not_mem_nil
    · cases List.mem_singleton.mp hp
      exact ⟨entry, selectors, ⟨[], root, rfl, he, hi⟩, rfl⟩
  | .atRule rule body => by
    intro root hw entry he hi hp
    have hb : entry.item.body? = some body := by rw [hi]; rfl
    have hbody : bodyIn? root [entry.key] = some body := by
      rw [Forest.bodyIn?_cons, Cache.item?, hw.tidy.sound.find?_of_mem he]
      simp [hb]
    have hin : .block texts declarations ∈ Node.piecesBody body := by
      simpa [Node.pieces] using hp
    exact (prints_of_body body (hw.body hbody) hin).within hw he hb

theorem prints_of_body : ∀ (body : Cache Node), WellFormed body →
    .block texts declarations ∈ Node.piecesBody body → Prints body texts declarations
  | ⟨entries⟩ => fun hw => prints_of_entries entries ⟨entries⟩ hw (List.Subset.refl _)

theorem prints_of_entries : ∀ (entries : List (Entry Node)) (body : Container), body.WellFormed →
    entries ⊆ body.entries → .block texts declarations ∈ Node.piecesEntries entries →
      body.Prints texts declarations
  | [] => fun _ _ _ hp => absurd hp List.not_mem_nil
  | ⟨key, node, count⟩ :: rest => by
    intro body hw hs hp
    rw [Node.piecesEntries, List.mem_append] at hp
    rcases hp with hp | hp
    · exact prints_of_node node body hw _ (hs List.mem_cons_self) rfl hp
    · exact prints_of_entries rest body hw (fun _ hm => hs (List.mem_cons_of_mem _ hm)) hp

end

/-! ## Blocks with selectors -/

section Blocks

variable {entry : Entry Node} {selectors : Cache Selector}

/-- What is in a container is what a look-up along the way to it finds. -/
theorem HasBlock.slot (h : root.WellFormed) (hb : root.HasBlock entry declarations selectors) :
    ∃ path, root.countAt path (Key.style declarations) = entry.count ∧
      root.selectorsAt path (Key.style declarations) = selectors ∧ 0 < entry.count ∧
      selectors.Sound := by
  obtain ⟨path, body, hbody, he, hi⟩ := hb
  have ht := h path body hbody
  have hkey : entry.key = Key.style declarations := by
    rw [ht.sound.key_eq entry he, hi]
    rfl
  have hfind := ht.sound.find?_of_mem he
  rw [hkey] at hfind
  have hitem : body.item? (Key.style declarations) = some (.style declarations selectors) := by
    rw [Cache.item?, hfind, Option.map_some, hi]
  refine ⟨path, ?_, ?_, ht.sound.count_pos entry he, ht.selectors _ _ _ hitem rfl⟩
  · rw [countAt, bodyAt_of_some hbody, Cache.count, hfind]
    rfl
  · rw [selectorsAt, bodyAt_of_some hbody, selectorsOf, hitem]
    rfl

/-- A block that is there has no more references than its selectors together. -/
theorem Covered.block (hc : root.Covered) (h : root.WellFormed)
    (hb : root.HasBlock entry declarations selectors) :
    0 < entry.count ∧ entry.count ≤ selectors.total ∧ selectors.entries ≠ [] := by
  obtain ⟨path, hcount, hsel, hpos, -⟩ := hb.slot h
  have hle := hc path declarations
  rw [hcount, hsel] at hle
  exact ⟨hpos, hle, Cache.entries_ne_nil_of_total (Nat.lt_of_lt_of_le hpos hle)⟩

theorem Drawn.text_ne_nil {trees : List Layer} (hd : Drawn root trees) (h : root.WellFormed)
    (hb : root.HasBlock entry declarations selectors) {selector : Selector}
    (hs : selector ∈ selectors.items) : selector.text ≠ [] := by
  obtain ⟨path, -, hsel, -, hsound⟩ := hb.slot h
  have hitem := hsound.item?_eq_some_iff.mpr ⟨hs, rfl⟩
  rw [← hsel] at hitem
  obtain ⟨styles, -, -, -, -, text, -, rfl⟩ := hd.selector _ _ _ _ hitem
  exact Selector.interpolate_ne_nil (List.cons_ne_nil _ _) text

end Blocks

/-- Nothing is printed without a selector list in front of it. -/
theorem Covered.list_ne_nil (hc : root.Covered) (h : root.WellFormed) {trees : List Layer}
    (hd : Drawn root trees) (hp : .block texts declarations ∈ root.pieces) :
    Piece.list texts ≠ [] := by
  obtain ⟨entry, selectors, hb, rfl⟩ := prints_of_body root h hp
  obtain ⟨-, -, hentries⟩ := hc.block h hb
  refine Piece.list_ne_nil ?_ ?_
  · simpa [Cache.items] using hentries
  · intro text ht
    obtain ⟨selector, hs, rfl⟩ := List.mem_map.mp ht
    exact Drawn.text_ne_nil hd h hb hs

end Container
end StyleRegistry
