import StyleRegistry.Proofs.Rule.Naming
import StyleRegistry.Proofs.Style.Preorder
import StyleRegistry.Proofs.Style.PropertyName

/-! # Normalised trees

A tree is normalised by writing every key as a layer takes it: the name of a
property, or the trimmed key of a nested layer. Layers are sorted by their raw
keys before that, so a tree and its normalised form compile equally just as far
as normalising keeps the order of the keys. -/
namespace StyleRegistry

open Bytes (ascii)

/-! ## Sorting renamed keys -/

namespace Bytes

variable {α β : Type} {rename : Bytes → Bytes} {entries : List (Bytes × α)}

/-- Keys stand in one order before and after they are renamed. -/
def InOrder (rename : Bytes → Bytes) (keys : List Bytes) : Prop :=
  ∀ a ∈ keys, ∀ b ∈ keys, a < b → rename a < rename b

instance (rename : Bytes → Bytes) (keys : List Bytes) : Decidable (InOrder rename keys) :=
  inferInstanceAs (Decidable (∀ a ∈ keys, ∀ b ∈ keys, a < b → rename a < rename b))

theorem sortByKey_of_sorted (h : entries.Pairwise fun a b => a.1 ≤ b.1) :
    sortByKey entries = entries := by
  induction entries with
  | nil => rfl
  | cons entry rest ih =>
    obtain ⟨hentry, hrest⟩ := List.pairwise_cons.mp h
    rw [sortByKey, List.foldr_cons, ← sortByKey, ih hrest]
    cases rest with
    | nil => rfl
    | cons head rest => rw [insertByKey, if_neg (hentry head List.mem_cons_self)]

/-- A sorted order of entries with distinct keys is the one that sorting gives. -/
theorem sortByKey_eq_of_sorted {sorted : List (Bytes × α)} (hp : entries.Perm sorted)
    (hn : (entries.map Prod.fst).Nodup) (hs : sorted.Pairwise fun a b => a.1 ≤ b.1) :
    sortByKey entries = sorted :=
  (sortByKey_eq_of_perm hp hn).trans (sortByKey_of_sorted hs)

theorem lt_of_le_of_ne {a b : Bytes} (hle : a ≤ b) (hne : a ≠ b) : a < b :=
  (lt_or_gt_of_ne hne).resolve_right (List.not_lt.mpr hle)

theorem pairwise_lt {sorted : List (Bytes × α)} (hs : sorted.Pairwise fun a b => a.1 ≤ b.1)
    (hn : (sorted.map Prod.fst).Nodup) : sorted.Pairwise fun a b => a.1 < b.1 :=
  (hs.and (List.pairwise_map.mp hn)).imp fun h => lt_of_le_of_ne h.1 h.2

theorem nodup_sortByKey (hn : (entries.map Prod.fst).Nodup) :
    ((sortByKey entries).map Prod.fst).Nodup :=
  ((sortByKey_perm entries).map Prod.fst).nodup_iff.mpr hn

/-- Sorting commutes with picking entries by what is under their keys. -/
theorem filterMap_sortByKey {pick : Bytes × α → Option (Bytes × β)}
    (hk : ∀ entry picked, pick entry = some picked → picked.1 = entry.1)
    (hn : (entries.map Prod.fst).Nodup) :
    (sortByKey entries).filterMap pick = sortByKey (entries.filterMap pick) := by
  refine (sortByKey_eq_of_sorted ((sortByKey_perm entries).symm.filterMap pick) ?_ ?_).symm
  · exact (keys_filterMap_sublist hk entries).nodup hn
  · refine (sortByKey_sorted entries).filterMap pick fun a b hle picked hp picked' hp' => ?_
    rw [hk a picked hp, hk b picked' hp']
    exact hle

def renameKeys (rename : Bytes → Bytes) (entries : List (Bytes × α)) : List (Bytes × α) :=
  entries.map fun entry => (rename entry.1, entry.2)

theorem perm_renameKeys (rename : Bytes → Bytes) (entries : List (Bytes × α)) :
    (sortByKey (renameKeys rename entries)).Perm (renameKeys rename (sortByKey entries)) :=
  (sortByKey_perm _).trans ((sortByKey_perm entries).symm.map _)

/-- Where renaming keeps the order, it commutes with sorting. -/
theorem sortByKey_renameKeys (hn : (entries.map Prod.fst).Nodup)
    (hr : ((renameKeys rename entries).map Prod.fst).Nodup)
    (ho : InOrder rename (entries.map Prod.fst)) :
    sortByKey (renameKeys rename entries) = renameKeys rename (sortByKey entries) := by
  have hstrict := pairwise_lt (sortByKey_sorted entries) (nodup_sortByKey hn)
  refine sortByKey_eq_of_sorted ((sortByKey_perm entries).symm.map _) hr ?_
  refine List.pairwise_map.mpr (hstrict.imp_of_mem fun {a b} ha hb hlt => ?_)
  have hkey {entry : Bytes × α} (hm : entry ∈ sortByKey entries) :
      entry.1 ∈ entries.map Prod.fst :=
    List.mem_map_of_mem ((sortByKey_perm entries).mem_iff.mp hm)
  exact List.not_lt.mp (List.lt_asymm (ho a.1 (hkey ha) b.1 (hkey hb) hlt))

/-- It commutes with sorting nowhere else, not even for the keys alone. -/
theorem inOrder_of_sortByKey (hn : (entries.map Prod.fst).Nodup)
    (hr : ((renameKeys rename entries).map Prod.fst).Nodup)
    (hs : (sortByKey (renameKeys rename entries)).map Prod.fst =
      (renameKeys rename (sortByKey entries)).map Prod.fst) :
    InOrder rename (entries.map Prod.fst) := by
  have hraw := pairwise_lt (sortByKey_sorted entries) (nodup_sortByKey hn)
  have hrenamed : (sortByKey entries).Pairwise fun a b => rename a.1 < rename b.1 := by
    have hkeys := List.pairwise_map.mpr (pairwise_lt (sortByKey_sorted _) (nodup_sortByKey hr))
    rw [hs, renameKeys, List.map_map] at hkeys
    exact List.pairwise_map.mp hkeys
  have hall : ∀ x ∈ sortByKey entries, ∀ y ∈ sortByKey entries,
      x.1 < y.1 → rename x.1 < rename y.1 := by
    intro x hx y hy
    refine List.Pairwise.forall_of_forall_of_flip
      (R := fun a b : Bytes × α => a.1 < b.1 → rename a.1 < rename b.1) ?_ ?_ ?_ hx hy
    · exact fun a _ hlt => absurd hlt (List.lt_irrefl _)
    · exact hrenamed.imp fun {a b} h (_ : a.1 < b.1) => h
    · exact hraw.imp fun h hlt => absurd hlt (List.lt_asymm h)
  intro a ha b hb hlt
  obtain ⟨x, hx, rfl⟩ := List.mem_map.mp ha
  obtain ⟨y, hy, rfl⟩ := List.mem_map.mp hb
  have hmem {entry : Bytes × α} : entry ∈ entries → entry ∈ sortByKey entries :=
    (sortByKey_perm entries).mem_iff.mpr
  exact hall x (hmem hx) y (hmem hy) hlt

end Bytes

/-! ## Normalising -/

/-- The form in which a layer takes the key of an entry. -/
def normalKey (entry : Bytes × Value) : Bytes :=
  match entry.2 with
  | .nested _ => Bytes.trim entry.1
  | _ => propertyName entry.1

mutual

def Value.normalise : Value → Value
  | .nested layer => .nested (Layer.normalise layer)
  | value => value

/-- Writes every key of a tree in its normal form, at every depth. -/
def Layer.normalise : Layer → Layer
  | [] => []
  | (key, value) :: rest =>
    (normalKey (key, value), Value.normalise value) :: Layer.normalise rest

end

namespace Layer

variable {styles layer : Layer} {keys : List Bytes}

theorem normalise_eq_map (layer : Layer) :
    layer.normalise = layer.map fun entry => (normalKey entry, entry.2.normalise) := by
  induction layer with
  | nil => rfl
  | cons entry rest ih => rw [normalise, ih, List.map_cons]

/-! ## What a layer is split into -/

/-- An entry that is no nested layer. -/
def own? : Bytes × Value → Option (Bytes × Value)
  | (_, .nested _) => none
  | entry => some entry

def ownEntries (layer : Layer) : List (Bytes × Value) := layer.filterMap own?

theorem eq_of_own? {entry picked : Bytes × Value} (h : own? entry = some picked) :
    picked = entry := by
  obtain ⟨key, value⟩ := entry
  cases value with
  | nested inner => cases h
  | scalar s => exact (Option.some.inj h).symm
  | array items => exact (Option.some.inj h).symm

theorem key_of_inner? {entry : Bytes × Value} {picked : Bytes × Layer}
    (h : inner? entry = some picked) : picked.1 = entry.1 := by
  obtain ⟨key, value⟩ := entry
  cases value with
  | nested inner =>
    cases h
    rfl
  | scalar s => cases h
  | array items => cases h

theorem ownEntries_normalise (layer : Layer) :
    layer.normalise.ownEntries = Bytes.renameKeys propertyName layer.ownEntries := by
  induction layer with
  | nil => rfl
  | cons entry rest ih =>
    obtain ⟨key, value⟩ := entry
    rw [normalise]
    cases value with
    | nested inner => exact ih
    | scalar s => exact congrArg ((propertyName key, Value.scalar s) :: ·) ih
    | array items => exact congrArg ((propertyName key, Value.array items) :: ·) ih

theorem nestedEntries_normalise (layer : Layer) : layer.normalise.nestedEntries =
    Bytes.renameKeys Bytes.trim
      (layer.nestedEntries.map fun entry => (entry.1, entry.2.normalise)) := by
  induction layer with
  | nil => rfl
  | cons entry rest ih =>
    obtain ⟨key, value⟩ := entry
    rw [normalise]
    cases value with
    | nested inner => exact congrArg ((Bytes.trim key, normalise inner) :: ·) ih
    | scalar s => exact ih
    | array items => exact ih

theorem nodup_ownEntries (hn : (layer.map Prod.fst).Nodup) :
    (layer.ownEntries.map Prod.fst).Nodup :=
  (Bytes.keys_filterMap_sublist (fun _ _ h => by rw [eq_of_own? h]) layer).nodup hn

theorem nodup_nestedEntries (hn : (layer.map Prod.fst).Nodup) :
    (layer.nestedEntries.map Prod.fst).Nodup := by
  exact (Bytes.keys_filterMap_sublist (fun _ _ => key_of_inner?) layer).nodup hn

theorem properties_eq (hn : (layer.map Prod.fst).Nodup) : (Layer.parse layer).properties =
    (Bytes.sortByKey layer.ownEntries).map fun entry => ⟨propertyName entry.1, entry.2⟩ := by
  have hown (entry : Bytes × Value) : property? entry =
      (own? entry).map fun entry => ⟨propertyName entry.1, entry.2⟩ := by
    obtain ⟨key, value⟩ := entry
    cases value <;> rfl
  rw [ownEntries, ← Bytes.filterMap_sortByKey (fun _ _ h => by rw [eq_of_own? h]) hn,
    List.map_filterMap]
  exact List.filterMap_congr fun entry _ => hown entry

theorem nested_eq (hn : (layer.map Prod.fst).Nodup) :
    (Layer.parse layer).nested = layer.children := by
  have hinner (entry : Bytes × Value) : nested? entry =
      (inner? entry).map fun entry => (Bytes.trim entry.1, entry.2) := by
    obtain ⟨key, value⟩ := entry
    cases value <;> rfl
  rw [children, nestedEntries, ← Bytes.filterMap_sortByKey (fun _ _ => key_of_inner?) hn,
    List.map_filterMap]
  exact List.filterMap_congr fun entry _ => hinner entry

/-! ## One layer -/

/-- Normalising keeps the order of a layer's own keys and of its nested layers'. -/
structure Aligned (layer : Layer) : Prop where
  own : Bytes.InOrder propertyName (layer.ownEntries.map Prod.fst)
  nested : Bytes.InOrder Bytes.trim (layer.nestedEntries.map Prod.fst)

section Own

variable (hn : (layer.map Prod.fst).Nodup) (hr : (layer.normalise.map Prod.fst).Nodup)

/-- The properties of a layer, under their names in the order of the raw keys. -/
theorem properties_eq_rename (hn : (layer.map Prod.fst).Nodup) : (Layer.parse layer).properties =
    (Bytes.renameKeys propertyName (Bytes.sortByKey layer.ownEntries)).map
      fun entry => ⟨entry.1, entry.2⟩ := by
  rw [properties_eq hn, Bytes.renameKeys, List.map_map]
  rfl

/-- The properties of a normalised layer, in the order of their names. -/
theorem properties_normalise (hr : (layer.normalise.map Prod.fst).Nodup) :
    (Layer.parse layer.normalise).properties =
      (Bytes.sortByKey (Bytes.renameKeys propertyName layer.ownEntries)).map
        fun entry => ⟨entry.1, entry.2⟩ := by
  rw [properties_eq hr, ownEntries_normalise]
  refine List.map_congr_left fun entry hm => ?_
  obtain ⟨raw, -, rfl⟩ := List.mem_map.mp ((Bytes.sortByKey_perm _).mem_iff.mp hm)
  rw [propertyName_propertyName]

include hn hr

theorem properties_perm :
    (Layer.parse layer.normalise).properties.Perm (Layer.parse layer).properties := by
  rw [properties_normalise hr, properties_eq_rename hn]
  exact (Bytes.perm_renameKeys propertyName layer.ownEntries).map _

theorem properties_eq_iff :
    (Layer.parse layer.normalise).properties = (Layer.parse layer).properties ↔
      Bytes.InOrder propertyName (layer.ownEntries.map Prod.fst) := by
  have hkeys := nodup_ownEntries hn
  have hrenamed := nodup_ownEntries hr
  rw [ownEntries_normalise] at hrenamed
  rw [properties_normalise hr, properties_eq_rename hn]
  constructor
  · intro hp
    have hnames := congrArg (List.map Property.name) hp
    rw [List.map_map, List.map_map] at hnames
    exact Bytes.inOrder_of_sortByKey hkeys hrenamed hnames
  · intro ho
    rw [Bytes.sortByKey_renameKeys hkeys hrenamed ho]

end Own

section Nested

/-- The nested layers of a layer, normalised, under their raw keys. -/
def normalNested (layer : Layer) : List (Bytes × Layer) :=
  layer.nestedEntries.map fun entry => (entry.1, entry.2.normalise)

theorem keys_normalNested (layer : Layer) :
    layer.normalNested.map Prod.fst = layer.nestedEntries.map Prod.fst := List.map_map

theorem children_normalise (layer : Layer) : layer.normalise.children =
    Bytes.sortByKey (Bytes.renameKeys Bytes.trim layer.normalNested) := by
  rw [children, nestedEntries_normalise, ← normalNested]
  refine (List.map_congr_left fun entry hm => ?_).trans (List.map_id _)
  obtain ⟨raw, -, rfl⟩ := List.mem_map.mp ((Bytes.sortByKey_perm _).mem_iff.mp hm)
  rw [Bytes.trim_trim]
  rfl

theorem map_children (layer : Layer) :
    (layer.children.map fun child => (child.1, child.2.normalise)) =
      Bytes.renameKeys Bytes.trim (Bytes.sortByKey layer.normalNested) := by
  rw [normalNested, Bytes.sortByKey_map (fun entry : Bytes × Layer => entry.2.normalise), children,
    Bytes.renameKeys, List.map_map, List.map_map]
  rfl

theorem keys_children (layer : Layer) : layer.children.map Prod.fst =
    (Bytes.renameKeys Bytes.trim (Bytes.sortByKey layer.normalNested)).map Prod.fst := by
  rw [← map_children, List.map_map]
  rfl

theorem keys_children_perm (layer : Layer) :
    (layer.normalise.children.map Prod.fst).Perm (layer.children.map Prod.fst) := by
  rw [children_normalise, keys_children]
  exact (Bytes.perm_renameKeys Bytes.trim layer.normalNested).map _

variable (hn : (layer.map Prod.fst).Nodup) (hr : (layer.normalise.map Prod.fst).Nodup)

include hn hr

theorem nodup_normalNested : (layer.normalNested.map Prod.fst).Nodup ∧
    ((Bytes.renameKeys Bytes.trim layer.normalNested).map Prod.fst).Nodup := by
  have hrenamed := nodup_nestedEntries hr
  rw [nestedEntries_normalise] at hrenamed
  exact ⟨keys_normalNested layer ▸ nodup_nestedEntries hn, hrenamed⟩

theorem children_eq (ho : Bytes.InOrder Bytes.trim (layer.nestedEntries.map Prod.fst)) :
    layer.normalise.children = layer.children.map fun child => (child.1, child.2.normalise) := by
  obtain ⟨hkeys, hrenamed⟩ := nodup_normalNested hn hr
  rw [← keys_normalNested] at ho
  rw [children_normalise, map_children, Bytes.sortByKey_renameKeys hkeys hrenamed ho]

theorem keys_children_eq_iff :
    layer.normalise.children.map Prod.fst = layer.children.map Prod.fst ↔
      Bytes.InOrder Bytes.trim (layer.nestedEntries.map Prod.fst) := by
  obtain ⟨hkeys, hrenamed⟩ := nodup_normalNested hn hr
  constructor
  · intro hs
    rw [children_normalise, keys_children] at hs
    exact keys_normalNested layer ▸ Bytes.inOrder_of_sortByKey hkeys hrenamed hs
  · intro ho
    rw [children_eq hn hr ho, List.map_map]
    rfl

end Nested

/-! ## Whole trees -/

theorem Within.proper (h : Within styles keys layer) (hp : styles.Proper) : layer.Proper := by
  induction h with
  | top layer => exact hp
  | nested hm _ ih => exact ih (proper_nested.mp (hp.values _ hm))

/-- The layers of a tree stand in its normalised form at the same ways. -/
theorem Within.normalise (h : Within styles keys layer) :
    Within styles.normalise keys layer.normalise := by
  induction h with
  | top layer => exact .top _
  | @nested layer inner found raw rest hm _ ih =>
    have hentry : (Bytes.trim raw, Value.nested inner.normalise) ∈ layer.normalise := by
      rw [normalise_eq_map]
      exact List.mem_map.mpr ⟨_, hm, rfl⟩
    have hwithin := Within.nested hentry ih
    rwa [Bytes.trim_trim] at hwithin

theorem compile_normalise (styles : Layer) (hp : styles.Proper) (hr : styles.normalise.Proper)
    (h : ∀ {keys layer}, Within styles keys layer → layer.Aligned) :
    styles.normalise.compile = styles.compile := by
  obtain ⟨hown, hnested⟩ := h (.top styles)
  have htext : styles.normalise.text = styles.text := by
    rw [text, text, (properties_eq_iff hp.nodup hr.nodup).mpr hown]
  rw [compile_eq, compile_eq, htext, children_eq hp.nodup hr.nodup hnested, List.map_map]
  refine congrArg (Block.mk styles.text) (List.map_congr_left fun child hm => ?_)
  obtain ⟨raw, hentry, hkey⟩ := mem_children.mp hm
  have hchild {keys : List Bytes} {layer : Layer} (hw : Within child.2 keys layer) :
      Within styles (Bytes.trim raw :: keys) layer := .nested hentry hw
  have hlt := sizeOf_child hm
  refine congrArg (Prod.mk child.1) (compile_normalise child.2 ?_ ?_ fun hw => h (hchild hw))
  · exact (hchild (.top child.2)).proper hp
  · exact (hchild (.top child.2)).normalise.proper hr
termination_by sizeOf styles

/-- **Normalising changes at most the order.** In a tree where no layer has a key
twice, raw or normalised, each layer has the properties and the nested keys
that it has in the normalised tree, and it has them in the same order just when
normalising keeps the order of its own keys and of its nested layers' keys. If
it does so in every layer, the trees compile to one block and have one class
name. -/
theorem parse_normalise (hp : styles.Proper) (hr : styles.normalise.Proper) :
    (∀ {keys layer}, Within styles keys layer → Within styles.normalise keys layer.normalise ∧
      let raw := Layer.parse layer
      let normal := Layer.parse layer.normalise
      normal.properties.Perm raw.properties ∧
      (normal.nested.map Prod.fst).Perm (raw.nested.map Prod.fst) ∧
      (normal.properties = raw.properties ↔
        Bytes.InOrder propertyName (layer.ownEntries.map Prod.fst)) ∧
      (normal.nested.map Prod.fst = raw.nested.map Prod.fst ↔
        Bytes.InOrder Bytes.trim (layer.nestedEntries.map Prod.fst))) ∧
    ((∀ {keys layer}, Within styles keys layer → layer.Aligned) →
      styles.normalise.compile = styles.compile ∧
      ∀ (forest : Forest) (place : Place), (forest.register place styles.normalise).className =
        (forest.register place styles).className) := by
  refine ⟨fun {keys layer} h => ?_, fun h => ?_⟩
  · have hn := (h.proper hp).nodup
    have hn' := (h.normalise.proper hr).nodup
    refine ⟨h.normalise, properties_perm hn hn', ?_, properties_eq_iff hn hn', ?_⟩
    · rw [nested_eq hn, nested_eq hn']
      exact keys_children_perm layer
    · rw [nested_eq hn, nested_eq hn']
      exact keys_children_eq_iff hn hn'
  · have hcompile := compile_normalise styles hp hr h
    refine ⟨hcompile, fun forest place => ?_⟩
    rw [Forest.className_register, Forest.className_register, className, className, texts, texts,
      stops, stops, hcompile]

/-- A tree with capitals and spaces in its keys. -/
def loose : Layer :=
  [(ascii "backgroundColor", .scalar (.text (ascii "red"))),
    (ascii " .x ", .nested [(ascii "MozAppearance ", .scalar (.text (ascii "none")))])]

theorem parse_normalise_loose :
    loose.Proper ∧ loose.normalise.Proper ∧
    (Layer.parse loose.normalise).properties = (Layer.parse loose).properties ∧
    loose.normalise.compile = loose.compile := by
  have hproper {a b c : Bytes} {s t : Scalar} (hab : a ≠ b) :
      Layer.Proper [(a, .scalar s), (b, .nested [(c, .scalar t)])] := by
    refine ⟨by simpa using hab, fun entry hm => ?_⟩
    rcases List.mem_cons.mp hm with rfl | hm
    · exact .scalar s
    · obtain rfl := List.mem_singleton.mp hm
      refine .nested (List.nodup_singleton _) fun entry hm => ?_
      obtain rfl := List.mem_singleton.mp hm
      exact .scalar t
  have hp : loose.Proper := hproper (by decide)
  have hr : loose.normalise.Proper := hproper (by decide)
  have haligned {keys : List Bytes} {layer : Layer} (h : Within loose keys layer) :
      layer.Aligned := by
    cases h with
    | top => exact ⟨by decide, by decide⟩
    | nested hm h =>
      obtain ⟨-, rfl⟩ :
          _ ∧ _ = [(ascii "MozAppearance ", Value.scalar (.text (ascii "none")))] := by
        simpa [loose] using hm
      cases h with
      | top => exact ⟨by decide, by decide⟩
      | nested hm _ => simp at hm
  obtain ⟨hlayers, hwhole⟩ := parse_normalise hp hr
  exact ⟨hp, hr, (hlayers (.top loose)).2.2.2.1.mpr (haligned (.top loose)).own,
    (hwhole haligned).1⟩

/-- A hyphen comes before a capital's bytes, but not before the letter that the
capital becomes; and a space comes before every letter. -/
theorem normalise_reorders :
    let styles : Layer := [(ascii "backgroundColor", .scalar (.text (ascii "red"))),
      (ascii "background-image", .scalar (.text (ascii "none"))), (ascii " b", .nested []),
      (ascii "a", .nested [])]
    styles.Proper ∧ styles.normalise.Proper ∧
    (Layer.parse styles.normalise).properties ≠ (Layer.parse styles).properties ∧
    (Layer.parse styles.normalise).nested.map Prod.fst ≠ (Layer.parse styles).nested.map Prod.fst ∧
    styles.normalise.className ≠ styles.className := by
  intro styles
  have hvalues {a b c d : Bytes} {s t : Scalar} : ∀ entry ∈ [(a, Value.scalar s), (b, .scalar t),
      (c, .nested []), (d, .nested [])], entry.2.Proper := by
    intro entry hm
    simp only [List.mem_cons, List.not_mem_nil, or_false] at hm
    rcases hm with rfl | rfl | rfl | rfl
    · exact .scalar s
    · exact .scalar t
    · exact .nested List.nodup_nil (by simp)
    · exact .nested List.nodup_nil (by simp)
  refine ⟨⟨by decide, hvalues⟩, ⟨by decide, hvalues⟩, fun hp => ?_, by decide, by decide +kernel⟩
  exact absurd (congrArg (List.map Property.name) hp) (by decide)

end Layer
end StyleRegistry
