import StyleRegistry.Proofs.Style.Reordering

/-! # Layers in pre-order

A tree is made of layers within layers, and a layer is reached from the top by
the keys on the way to it. The walks see the tree only as the block it compiles
to. Here the layers are listed as they stand in the tree, each before those
nested in it, and these in the order of their raw keys; the block has the same
shape. -/
namespace StyleRegistry

namespace Bytes

variable {α : Type}

theorem insertByKey_perm (entry : Bytes × α) (entries : List (Bytes × α)) :
    (insertByKey entry entries).Perm (entry :: entries) := by
  induction entries with
  | nil => exact .refl _
  | cons head rest ih =>
    rw [insertByKey]
    split
    · exact (ih.cons head).trans (.swap entry head rest)
    · exact .refl _

theorem sortByKey_perm (entries : List (Bytes × α)) : (sortByKey entries).Perm entries := by
  induction entries with
  | nil => exact .refl _
  | cons entry rest ih => exact (insertByKey_perm entry (sortByKey rest)).trans (ih.cons entry)

theorem insertByKey_sorted {entry : Bytes × α} {entries : List (Bytes × α)}
    (h : entries.Pairwise fun a b => a.1 ≤ b.1) :
    (insertByKey entry entries).Pairwise fun a b => a.1 ≤ b.1 := by
  induction entries with
  | nil => exact List.pairwise_singleton _ _
  | cons head rest ih =>
    obtain ⟨hhead, hrest⟩ := List.pairwise_cons.mp h
    rw [insertByKey]
    split
    · rename_i hlt
      refine List.pairwise_cons.mpr ⟨fun later hm => ?_, ih hrest⟩
      rcases List.mem_cons.mp ((insertByKey_perm entry rest).mem_iff.mp hm) with rfl | hm
      · exact List.not_lt.mp (List.lt_asymm hlt)
      · exact hhead later hm
    · rename_i hle
      have hle : entry.1 ≤ head.1 := List.not_lt.mp hle
      refine List.pairwise_cons.mpr ⟨fun later hm => ?_, h⟩
      rcases List.mem_cons.mp hm with rfl | hm
      · exact hle
      · exact List.le_trans hle (hhead later hm)

theorem sortByKey_sorted (entries : List (Bytes × α)) :
    (sortByKey entries).Pairwise fun a b => a.1 ≤ b.1 := by
  induction entries with
  | nil => exact .nil
  | cons entry rest ih => exact insertByKey_sorted ih

end Bytes

namespace Layer

/-! ## Children -/

/-- The declaration text of a layer's own properties. -/
def text (layer : Layer) : Bytes := declarations (Layer.parse layer).properties

/-- The layer that an entry nests. -/
def inner? : Bytes × Value → Option (Bytes × Layer)
  | (key, .nested inner) => some (key, inner)
  | _ => none

/-- The layers nested directly in a layer, under their raw keys. -/
def nestedEntries (layer : Layer) : List (Bytes × Layer) := layer.filterMap inner?

/-- The layers nested directly in a layer, in the order of their raw keys,
which are then trimmed. -/
def children (layer : Layer) : List (Bytes × Layer) :=
  (Bytes.sortByKey layer.nestedEntries).map fun entry => (Bytes.trim entry.1, entry.2)

theorem mem_nestedEntries {layer inner : Layer} {key : Bytes} :
    (key, inner) ∈ layer.nestedEntries ↔ (key, Value.nested inner) ∈ layer := by
  unfold nestedEntries
  rw [List.mem_filterMap]
  constructor
  · rintro ⟨⟨raw, value⟩, hm, hv⟩
    cases value with
    | nested found =>
      obtain ⟨rfl, rfl⟩ := Prod.mk.inj (Option.some.inj hv)
      exact hm
    | scalar s => cases hv
    | array items => cases hv
  · exact fun hm => ⟨_, hm, rfl⟩

theorem mem_children {layer inner : Layer} {key : Bytes} :
    (key, inner) ∈ layer.children ↔
      ∃ raw, (raw, Value.nested inner) ∈ layer ∧ Bytes.trim raw = key := by
  unfold children
  rw [List.mem_map]
  constructor
  · rintro ⟨⟨raw, found⟩, hm, he⟩
    obtain ⟨rfl, rfl⟩ := Prod.mk.inj he
    exact ⟨raw, mem_nestedEntries.mp ((Bytes.sortByKey_perm _).mem_iff.mp hm), rfl⟩
  · rintro ⟨raw, hm, rfl⟩
    exact ⟨(raw, inner), (Bytes.sortByKey_perm _).mem_iff.mpr (mem_nestedEntries.mpr hm), rfl⟩

theorem sizeOf_child {layer : Layer} {child : Bytes × Layer} (h : child ∈ layer.children) :
    sizeOf child.2 < sizeOf layer := by
  obtain ⟨raw, hm, -⟩ := mem_children.mp h
  have hlt := List.sizeOf_lt_of_mem hm
  simp only [Prod.mk.sizeOf_spec, Value.nested.sizeOf_spec] at hlt
  omega

/-! ## Compilation -/

theorem ofEntries_eq_map (layer : Layer) : Block.ofEntries layer =
    layer.nestedEntries.map fun entry => (entry.1, entry.2.compile) := by
  induction layer with
  | nil => rfl
  | cons entry rest ih =>
    obtain ⟨key, value⟩ := entry
    rw [Block.ofEntries, ih]
    cases value with
    | nested inner => rfl
    | scalar s => rfl
    | array items => rfl

/-- A layer compiles to its text with what its children compile to. -/
theorem compile_eq (layer : Layer) : layer.compile =
    .mk layer.text (layer.children.map fun child => (child.1, child.2.compile)) := by
  rw [compile, ofEntries_eq_map, Block.arrange, Bytes.sortByKey_map, children, List.map_map,
    List.map_map]
  rfl

/-! ## Pre-order -/

/-- The layers of a tree, each with the keys on the way to it, which start with
the given ones. -/
def preorder (keys : List Bytes) (layer : Layer) : List (List Bytes × Layer) :=
  (keys, layer) :: layer.children.attach.flatMap fun child =>
    preorder (keys ++ [child.1.1]) child.1.2
termination_by sizeOf layer
decreasing_by exact sizeOf_child child.2

theorem preorder_eq (keys : List Bytes) (layer : Layer) : layer.preorder keys =
    (keys, layer) :: layer.children.flatMap fun child => child.2.preorder (keys ++ [child.1]) := by
  rw [preorder, List.flatMap_subtype (g := fun child => child.2.preorder (keys ++ [child.1])),
    List.unattach_attach]
  exact fun _ _ => rfl

/-- A layer comes before those nested in it, and these come in the order of
their raw keys. -/
theorem preorder_sorted (keys : List Bytes) (layer : Layer) :
    ∃ entries : List (Bytes × Layer), entries.Perm layer.nestedEntries ∧
      entries.Pairwise (fun a b => a.1 ≤ b.1) ∧
      layer.preorder keys = (keys, layer) ::
        entries.flatMap fun entry => entry.2.preorder (keys ++ [Bytes.trim entry.1]) := by
  refine ⟨_, Bytes.sortByKey_perm _, Bytes.sortByKey_sorted _, ?_⟩
  rw [preorder_eq, children, List.flatMap_map]

/-- A layer is in a tree, at the end of a way of trimmed keys. -/
inductive Within : Layer → List Bytes → Layer → Prop
  | top (layer : Layer) : Within layer [] layer
  | nested {layer inner found : Layer} {raw : Bytes} {rest : List Bytes} :
    (raw, Value.nested inner) ∈ layer → Within inner rest found →
      Within layer (Bytes.trim raw :: rest) found

theorem within_of_mem_preorder {keys : List Bytes} {layer : Layer} {visit : List Bytes × Layer} :
    visit ∈ layer.preorder keys → ∃ rest, visit.1 = keys ++ rest ∧ Within layer rest visit.2 := by
  induction keys, layer using preorder.induct with
  | case1 keys layer ih =>
    rw [preorder_eq, List.mem_cons, List.mem_flatMap]
    rintro (rfl | ⟨⟨key, inner⟩, hchild, hm⟩)
    · exact ⟨[], (List.append_nil keys).symm, .top layer⟩
    · obtain ⟨raw, hentry, rfl⟩ := mem_children.mp hchild
      obtain ⟨rest, hkeys, hwithin⟩ := ih ⟨_, hchild⟩ hm
      exact ⟨_, hkeys.trans (List.append_assoc ..), .nested hentry hwithin⟩

theorem Within.mem_preorder {layer found : Layer} {rest : List Bytes}
    (h : Within layer rest found) (keys : List Bytes) :
    (keys ++ rest, found) ∈ layer.preorder keys := by
  induction h generalizing keys with
  | top layer =>
    rw [preorder_eq, List.append_nil]
    exact List.mem_cons_self
  | @nested layer inner found raw rest hentry _ ih =>
    rw [preorder_eq]
    refine List.mem_cons_of_mem _ (List.mem_flatMap.mpr ?_)
    refine ⟨(Bytes.trim raw, inner), mem_children.mpr ⟨raw, hentry, rfl⟩, ?_⟩
    have hinner := ih (keys ++ [Bytes.trim raw])
    rwa [List.append_assoc] at hinner

/-- The pre-order lists just the layers of the tree. -/
theorem mem_preorder_iff {styles layer : Layer} {keys : List Bytes} :
    (keys, layer) ∈ styles.preorder [] ↔ Within styles keys layer := by
  constructor
  · intro hm
    obtain ⟨rest, hkeys, hwithin⟩ := within_of_mem_preorder hm
    obtain rfl : keys = rest := hkeys
    exact hwithin
  · exact fun h => h.mem_preorder []

end Layer
end StyleRegistry
