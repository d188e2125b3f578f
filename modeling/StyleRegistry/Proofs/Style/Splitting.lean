import StyleRegistry.Proofs.Style.Normalisation

/-! # How a layer is split

Whatever was set and erased, a layer has no key twice. So its nested layers and
its other entries each stand in one strict order of their raw keys, and parsing
gives these two lists and no others, even where two keys become one name. -/
namespace StyleRegistry

/-! ## The order of bytes -/

namespace Bytes

/-- A beginning of a text comes before it; two texts of which neither is a
beginning of the other are told apart by the first byte in which they differ. -/
def Before (a b : Bytes) : Prop :=
  (∃ next rest, b = a ++ next :: rest) ∨
    ∃ same x y restA restB, a = same ++ x :: restA ∧ b = same ++ y :: restB ∧ x.toNat < y.toNat

theorem before_cons_iff {x y : UInt8} {a b : Bytes} :
    Before (x :: a) (y :: b) ↔ x.toNat < y.toNat ∨ x = y ∧ Before a b := by
  constructor
  · rintro (⟨next, rest, he⟩ | ⟨same, p, q, restA, restB, ha, hb, hlt⟩)
    · obtain ⟨rfl, rfl⟩ := List.cons.inj he
      exact .inr ⟨rfl, .inl ⟨next, rest, rfl⟩⟩
    · cases same with
      | nil =>
        obtain ⟨rfl, -⟩ := List.cons.inj ha
        obtain ⟨rfl, -⟩ := List.cons.inj hb
        exact .inl hlt
      | cons c same =>
        obtain ⟨rfl, rfl⟩ := List.cons.inj ha
        obtain ⟨rfl, rfl⟩ := List.cons.inj hb
        exact .inr ⟨rfl, .inr ⟨same, p, q, restA, restB, rfl, rfl, hlt⟩⟩
  · rintro (hlt | ⟨rfl, ⟨next, rest, rfl⟩ | ⟨same, p, q, restA, restB, rfl, rfl, hlt⟩⟩)
    · exact .inr ⟨[], x, y, a, b, rfl, rfl, hlt⟩
    · exact .inl ⟨next, rest, rfl⟩
    · exact .inr ⟨x :: same, p, q, restA, restB, rfl, rfl, hlt⟩

theorem lt_iff_before {a b : Bytes} : a < b ↔ Before a b := by
  induction a generalizing b with
  | nil =>
    cases b with
    | nil =>
      refine iff_of_false (List.not_lt_nil _) ?_
      rintro (⟨next, rest, he⟩ | ⟨same, x, y, restA, restB, ha, -, -⟩)
      · cases he
      · simp at ha
    | cons y b => exact iff_of_true (List.nil_lt_cons y b) (.inl ⟨y, b, rfl⟩)
  | cons x a ih =>
    cases b with
    | nil =>
      refine iff_of_false (List.not_lt_nil _) ?_
      rintro (⟨next, rest, he⟩ | ⟨same, p, q, restA, restB, -, hb, -⟩)
      · cases he
      · simp at hb
    | cons y b => rw [List.cons_lt_cons_iff, before_cons_iff, ih, UInt8.lt_iff_toNat_lt]

/-- A strict order of entries is the one that sorting gives. -/
theorem eq_sortByKey {α : Type} {entries sorted : List (Bytes × α)} (hp : sorted.Perm entries)
    (hs : sorted.Pairwise fun a b => Before a.1 b.1) : sorted = sortByKey entries := by
  have hlt : sorted.Pairwise fun a b => a.1 < b.1 := hs.imp lt_iff_before.mpr
  have hkeys : (sorted.map Prod.fst).Nodup := by
    refine List.pairwise_map.mpr (hlt.imp fun hab he => ?_)
    exact List.lt_irrefl _ (he ▸ hab)
  have hle : sorted.Pairwise fun a b => a.1 ≤ b.1 :=
    hlt.imp fun hab => List.not_lt.mp (List.lt_asymm hab)
  exact (sortByKey_eq_of_sorted hp.symm ((hp.map Prod.fst).nodup hkeys) hle).symm

theorem before_sortByKey {α : Type} {entries : List (Bytes × α)}
    (hn : (entries.map Prod.fst).Nodup) :
    (sortByKey entries).Pairwise fun a b => Before a.1 b.1 :=
  (pairwise_lt (sortByKey_sorted entries) (nodup_sortByKey hn)).imp lt_iff_before.mp

end Bytes

namespace Layer

/-! ## Layers that were built up -/

inductive Edit where
  | set (key : Bytes) (value : Value)
  | erase (key : Bytes)

def edited (layer : Layer) : Edit → Layer
  | .set key value => set key value layer
  | .erase key => erase layer key

/-- What an empty layer becomes. -/
def built (edits : List Edit) : Layer := edits.foldl edited []

theorem nodup_edited {layer : Layer} (hn : (layer.map Prod.fst).Nodup) (edit : Edit) :
    ((layer.edited edit).map Prod.fst).Nodup := by
  cases edit with
  | set key value => exact nodup_set hn key value
  | erase key => exact nodup_erase hn key

theorem nodup_built (edits : List Edit) : ((built edits).map Prod.fst).Nodup := by
  have hfold (layer : Layer) (hn : (layer.map Prod.fst).Nodup) :
      ((edits.foldl edited layer).map Prod.fst).Nodup := by
    induction edits generalizing layer with
    | nil => exact hn
    | cons edit rest ih => exact ih _ (nodup_edited hn edit)
  exact hfold [] List.nodup_nil

/-! ## Splits -/

theorem own?_eq_self_iff {entry : Bytes × Value} :
    own? entry = some entry ↔ ∀ inner, entry.2 ≠ .nested inner := by
  obtain ⟨key, value⟩ := entry
  cases value with
  | nested inner => simp [own?]
  | scalar s => simp [own?]
  | array items => simp [own?]

theorem inner?_of_flat {entry : Bytes × Value} (h : ∀ inner, entry.2 ≠ .nested inner) :
    inner? entry = none := by
  obtain ⟨key, value⟩ := entry
  cases value with
  | nested inner => exact absurd rfl (h inner)
  | scalar s => rfl
  | array items => rfl

theorem flat_of_mem_ownEntries {layer : Layer} {entry : Bytes × Value}
    (hm : entry ∈ layer.ownEntries) : ∀ inner, entry.2 ≠ .nested inner := by
  obtain ⟨raw, -, hraw⟩ := List.mem_filterMap.mp hm
  obtain rfl := eq_of_own? hraw
  exact own?_eq_self_iff.mp hraw

/-- Each entry is either a nested layer or not. -/
theorem perm_entries (layer : Layer) : (layer.ownEntries ++
    layer.nestedEntries.map fun entry => (entry.1, Value.nested entry.2)).Perm layer := by
  induction layer with
  | nil => exact .refl _
  | cons entry rest ih =>
    obtain ⟨key, value⟩ := entry
    cases value with
    | nested inner => exact List.perm_middle.trans (ih.cons _)
    | scalar s => exact ih.cons _
    | array items => exact ih.cons _

/-- The entries of a layer as two lists, each in strict order of its raw keys. -/
structure Split (layer : Layer) where
  own : List (Bytes × Value)
  nested : List (Bytes × Layer)
  entries : (own ++ nested.map fun entry => (entry.1, Value.nested entry.2)).Perm layer
  flat : ∀ entry ∈ own, ∀ inner, entry.2 ≠ .nested inner
  own_sorted : own.Pairwise fun a b => Bytes.Before a.1 b.1
  nested_sorted : nested.Pairwise fun a b => Bytes.Before a.1 b.1

namespace Split

variable {layer : Layer}

/-- Properties have hyphenated names, and all keys are trimmed. -/
def parsed (split : Split layer) : ParsedLayer where
  properties := split.own.map fun entry => ⟨hyphenate (Bytes.trim entry.1), entry.2⟩
  nested := split.nested.map fun entry => (Bytes.trim entry.1, entry.2)

theorem own_perm (split : Split layer) : split.own.Perm layer.ownEntries := by
  have hown : split.own.filterMap own? = split.own :=
    (List.filterMap_congr fun entry hm => own?_eq_self_iff.mpr (split.flat entry hm)).trans
      List.filterMap_some
  have hnested : split.nested.filterMap (own? ∘ fun entry => (entry.1, .nested entry.2)) = [] :=
    List.filterMap_eq_nil_iff.mpr fun _ _ => rfl
  have hpick := split.entries.filterMap own?
  rwa [List.filterMap_append, List.filterMap_map, hown, hnested, List.append_nil] at hpick

theorem nested_perm (split : Split layer) : split.nested.Perm layer.nestedEntries := by
  have hown : split.own.filterMap inner? = [] :=
    List.filterMap_eq_nil_iff.mpr fun entry hm => inner?_of_flat (split.flat entry hm)
  have hnested : split.nested.filterMap (inner? ∘ fun entry => (entry.1, .nested entry.2)) =
      split.nested := List.filterMap_some
  have hpick := split.entries.filterMap inner?
  rwa [List.filterMap_append, List.filterMap_map, hown, hnested, List.nil_append,
    ← nestedEntries] at hpick

theorem own_eq (split : Split layer) : split.own = Bytes.sortByKey layer.ownEntries :=
  Bytes.eq_sortByKey split.own_perm split.own_sorted

theorem nested_eq (split : Split layer) : split.nested = Bytes.sortByKey layer.nestedEntries :=
  Bytes.eq_sortByKey split.nested_perm split.nested_sorted

theorem unique (split other : Split layer) : split = other := by
  have hown : split.own = other.own := split.own_eq.trans other.own_eq.symm
  have hnested : split.nested = other.nested := split.nested_eq.trans other.nested_eq.symm
  cases split
  cases other
  cases hown
  cases hnested
  rfl

end Split

theorem exists_split {layer : Layer} (hn : (layer.map Prod.fst).Nodup) :
    ∃ split : Split layer, Layer.parse layer = split.parsed := by
  have hown := Bytes.sortByKey_perm layer.ownEntries
  have hnested := Bytes.sortByKey_perm layer.nestedEntries
  refine ⟨{
    own := Bytes.sortByKey layer.ownEntries
    nested := Bytes.sortByKey layer.nestedEntries
    entries := (hown.append (hnested.map _)).trans (perm_entries layer)
    flat := fun _ hm => flat_of_mem_ownEntries (hown.mem_iff.mp hm)
    own_sorted := Bytes.before_sortByKey (nodup_ownEntries hn)
    nested_sorted := Bytes.before_sortByKey (nodup_nestedEntries hn) }, ?_⟩
  exact congrArg₂ ParsedLayer.mk (properties_eq hn) (nested_eq hn)

/-- **A layer has one split, and parsing gives it.** In whatever way a layer was
built up, its entries are listed in two parts, each entry once: the nested
layers, under their trimmed keys, and the others, under the hyphenated names of
their trimmed keys. Each part is in strictly increasing order of the raw keys,
and there is no other such pair of lists. -/
theorem parse_built (edits : List Edit) :
    ∃ split : Split (built edits), Layer.parse (built edits) = split.parsed ∧
      ∀ other : Split (built edits), other = split := by
  obtain ⟨split, hparsed⟩ := exists_split (nodup_built edits)
  exact ⟨split, hparsed, fun other => other.unique split⟩

end Layer
end StyleRegistry
