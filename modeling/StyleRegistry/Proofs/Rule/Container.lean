import StyleRegistry.Rule.Forest
import StyleRegistry.Proofs.Cache.Counts

/-! # Containers along a way of keys

A container holds at-rules with containers of their own, and a way of keys
leads from one to another. A change of the container at the end of a way is
seen there and below; everywhere else a container keeps its keys, its counts
and its blocks' selectors, and only the bodies inside it change. -/
namespace StyleRegistry

open Forest (bodyIn? updateIn)

/-! ## Nodes -/

namespace Node

theorem keyed_key (node : Node) : Keyed.key node = node.key := rfl

@[simp] theorem key_mapBody (change : Container → Container) (node : Node) :
    (node.mapBody change).key = node.key := by cases node <;> rfl

@[simp] theorem key_mapSelectors (change : Cache Selector → Cache Selector) (node : Node) :
    (node.mapSelectors change).key = node.key := by cases node <;> rfl

@[simp] theorem body?_mapBody (change : Container → Container) (node : Node) :
    (node.mapBody change).body? = node.body?.map change := by cases node <;> rfl

@[simp] theorem body?_mapSelectors (change : Cache Selector → Cache Selector) (node : Node) :
    (node.mapSelectors change).body? = node.body? := by cases node <;> rfl

@[simp] theorem selectors?_mapBody (change : Container → Container) (node : Node) :
    (node.mapBody change).selectors? = node.selectors? := by cases node <;> rfl

@[simp] theorem selectors?_mapSelectors (change : Cache Selector → Cache Selector) (node : Node) :
    (node.mapSelectors change).selectors? = node.selectors?.map change := by cases node <;> rfl

theorem mapBody_mapBody (change other : Container → Container) (node : Node) :
    (node.mapBody change).mapBody other = node.mapBody fun body => other (change body) := by
  cases node <;> rfl

theorem mapSelectors_mapSelectors (change other : Cache Selector → Cache Selector) (node : Node) :
    (node.mapSelectors change).mapSelectors other =
      node.mapSelectors fun selectors => other (change selectors) := by cases node <;> rfl

theorem mapSelectors_mapBody (change : Container → Container)
    (alter : Cache Selector → Cache Selector) (node : Node) :
    (node.mapBody change).mapSelectors alter = (node.mapSelectors alter).mapBody change := by
  cases node <;> rfl

theorem mapBody_self {change : Container → Container} {node : Node}
    (h : ∀ body, node.body? = some body → change body = body) : node.mapBody change = node := by
  cases node with
  | style declarations selectors => rfl
  | atRule rule body => simp [mapBody, h body rfl]

theorem mapSelectors_self {change : Cache Selector → Cache Selector} {node : Node}
    (h : ∀ selectors, node.selectors? = some selectors → change selectors = selectors) :
    node.mapSelectors change = node := by
  cases node with
  | style declarations selectors => simp [mapSelectors, h selectors rfl]
  | atRule rule body => rfl

/-- Nothing is in a fresh node. -/
def Fresh (node : Node) : Prop :=
  (∀ body, node.body? = some body → body = .empty) ∧
    ∀ selectors, node.selectors? = some selectors → selectors = .empty

/-- The letter in front of a key tells at-rules from blocks. -/
theorem body?_of_key {node : Node} {rule : Bytes} (h : node.key = Key.atRule rule) :
    node.body?.isSome := by
  cases node with
  | style declarations selectors => cases h
  | atRule rule body => rfl

theorem selectors?_of_key {node : Node} {declarations : Bytes}
    (h : node.key = Key.style declarations) : node.selectors?.isSome := by
  cases node with
  | style declarations selectors => rfl
  | atRule rule body => cases h

end Node

/-! ## Ways -/

namespace Forest

@[simp] theorem bodyIn?_nil (root : Container) : bodyIn? root [] = some root := rfl

theorem bodyIn?_cons (root : Container) (key : Bytes) (path : List Bytes) :
    bodyIn? root (key :: path) = ((root.item? key).bind Node.body?).bind (bodyIn? · path) := by
  rw [bodyIn?]
  split <;> simp [*]

theorem bodyIn?_append (path rest : List Bytes) (root : Container) :
    bodyIn? root (path ++ rest) = (bodyIn? root path).bind (bodyIn? · rest) := by
  induction path generalizing root with
  | nil => rfl
  | cons key path ih =>
    rw [List.cons_append, bodyIn?_cons, bodyIn?_cons]
    cases (root.item? key).bind Node.body? with
    | none => rfl
    | some body => exact ih body

theorem bodyIn?_concat (root : Container) (path : List Bytes) (key : Bytes) :
    bodyIn? root (path ++ [key]) = ((bodyIn? root path).bind (·.item? key)).bind Node.body? := by
  rw [bodyIn?_append]
  cases bodyIn? root path with
  | none => rfl
  | some body => simp [bodyIn?_cons]

variable (change : Container → Container)

@[simp] theorem updateIn_nil (root : Container) : updateIn change [] root = change root := rfl

theorem updateIn_cons (key : Bytes) (path : List Bytes) (root : Container) :
    updateIn change (key :: path) root =
      root.updateItem key (Node.mapBody (updateIn change path)) := rfl

/-- At and below the end of its way, a change shows. -/
theorem bodyIn?_updateIn_append (path rest : List Bytes) (root : Container) :
    bodyIn? (updateIn change path root) (path ++ rest) =
      (bodyIn? root path).bind fun body => bodyIn? (change body) rest := by
  induction path generalizing root with
  | nil => rfl
  | cons key path ih =>
    rw [List.cons_append, bodyIn?_cons, updateIn_cons, Cache.item?_updateItem, if_pos rfl,
      bodyIn?_cons]
    cases root.item? key with
    | none => rfl
    | some node =>
      simp only [Option.map_some, Option.bind_some, Node.body?_mapBody]
      cases node.body? with
      | none => rfl
      | some body => exact ih body

theorem bodyIn?_updateIn (path : List Bytes) (root : Container) :
    bodyIn? (updateIn change path root) path = (bodyIn? root path).map change := by
  have h := bodyIn?_updateIn_append change path [] root
  simpa [Option.map_eq_bind, Function.comp_def] using h

/-- Elsewhere, only a body inside may change. -/
theorem bodyIn?_updateIn_of_not_prefix {path other : List Bytes} (root : Container)
    (h : ¬ path <+: other) :
    bodyIn? (updateIn change path root) other = bodyIn? root other ∨
      ∃ key inner, bodyIn? (updateIn change path root) other =
        (bodyIn? root other).map (·.updateItem key (Node.mapBody inner)) := by
  induction path generalizing other root with
  | nil => exact absurd List.nil_prefix h
  | cons key path ih =>
    cases other with
    | nil => exact .inr ⟨key, updateIn change path, rfl⟩
    | cons first other =>
      rw [updateIn_cons, bodyIn?_cons, bodyIn?_cons, Cache.item?_updateItem]
      by_cases hk : first = key
      · subst hk
        have hp : ¬ path <+: other := fun hp => h (List.cons_prefix_cons.mpr ⟨rfl, hp⟩)
        rw [if_pos rfl]
        cases root.item? first with
        | none => exact .inl rfl
        | some node =>
          simp only [Option.map_some, Option.bind_some, Node.body?_mapBody]
          cases node.body? with
          | none => exact .inl rfl
          | some body => exact ih body hp
      · rw [if_neg hk]
        exact .inl rfl

/-- So a view that does not look into bodies sees no change elsewhere. -/
theorem map_bodyIn?_updateIn {β : Type} (view : Container → β)
    (hv : ∀ body key inner, view (body.updateItem key (Node.mapBody inner)) = view body)
    {path other : List Bytes} (root : Container) (h : ¬ path <+: other) :
    (bodyIn? (updateIn change path root) other).map view = (bodyIn? root other).map view := by
  rcases bodyIn?_updateIn_of_not_prefix change root h with he | ⟨key, inner, he⟩
  · rw [he]
  · rw [he, Option.map_map]
    congr 1
    funext body
    exact hv body key inner

theorem isSome_bodyIn?_updateIn {path other : List Bytes} (root : Container)
    (h : ¬ path <+: other) :
    (bodyIn? (updateIn change path root) other).isSome = (bodyIn? root other).isSome := by
  have hm := congrArg Option.isSome
    (map_bodyIn?_updateIn change (fun _ => ()) (fun _ _ _ => rfl) root h)
  simpa using hm

theorem updateIn_updateIn (other : Container → Container) (path : List Bytes)
    (root : Container) :
    updateIn other path (updateIn change path root) =
      updateIn (fun body => other (change body)) path root := by
  induction path generalizing root with
  | nil => rfl
  | cons key path ih =>
    simp only [updateIn_cons, Cache.updateItem_updateItem, Node.mapBody_mapBody, ih]

variable {change} in
/-- A change that leaves the container at the end of its way as it is, or whose
way ends early, leaves all as it is. -/
theorem updateIn_self {path : List Bytes} {root : Container}
    (h : ∀ body, bodyIn? root path = some body → change body = body) :
    updateIn change path root = root := by
  induction path generalizing root with
  | nil => exact h root rfl
  | cons key path ih =>
    rw [updateIn_cons, Cache.updateItem_self]
    intro node hn
    refine Node.mapBody_self fun body hb => ih ?_
    intro inner hi
    exact h inner (by simp [bodyIn?_cons, hn, hb, hi])

end Forest

/-! ## Well-formed containers -/

namespace Container

/-- Sound, with sound selectors in every block. -/
structure Tidy (body : Container) : Prop where
  sound : Cache.Sound body
  selectors : ∀ key node selectors, body.item? key = some node →
    node.selectors? = some selectors → Cache.Sound selectors

/-- Every container within is tidy: keys are unique and those of their items,
and every entry is referred to, at every depth. -/
def WellFormed (root : Container) : Prop :=
  ∀ path body, bodyIn? root path = some body → Tidy body

theorem tidy_empty : Tidy Cache.empty := ⟨Cache.sound_empty, by simp⟩

theorem Tidy.updateItem {body : Container} {key : Bytes} {change : Node → Node} (h : Tidy body)
    (hk : ∀ node, (change node).key = node.key)
    (hs : ∀ node selectors, body.item? key = some node →
      (change node).selectors? = some selectors → Cache.Sound selectors) :
    Tidy (body.updateItem key change) := by
  refine ⟨h.sound.updateItem _ _ hk, ?_⟩
  intro k node selectors hn hsel
  rw [Cache.item?_updateItem] at hn
  split at hn
  · rename_i hkey
    obtain ⟨old, ho, rfl⟩ := Option.map_eq_some_iff.mp hn
    exact hs old selectors (hkey ▸ ho) hsel
  · exact h.selectors k node selectors hn hsel

theorem Tidy.updateBody {body : Container} (h : Tidy body) (key : Bytes)
    (inner : Container → Container) : Tidy (body.updateItem key (Node.mapBody inner)) :=
  h.updateItem (Node.key_mapBody inner) fun node selectors hn hs =>
    h.selectors key node selectors hn (by simpa using hs)

namespace WellFormed

variable {root : Container}

theorem tidy (h : WellFormed root) : Tidy root := h [] root rfl

theorem body (h : WellFormed root) {path : List Bytes} {body : Container}
    (hb : bodyIn? root path = some body) : WellFormed body := by
  intro rest inner hi
  exact h (path ++ rest) inner (by rw [Forest.bodyIn?_append, hb]; exact hi)

theorem node_key (h : WellFormed root) {path : List Bytes} {body : Container}
    (hb : bodyIn? root path = some body) {key : Bytes} {node : Node}
    (hn : body.item? key = some node) : node.key = key :=
  (h path body hb).sound.key_of_item? hn

/-- A container is well-formed if it is tidy and the bodies in it are well-formed. -/
theorem of_items (ht : Tidy root)
    (h : ∀ key node body, root.item? key = some node → node.body? = some body → WellFormed body) :
    WellFormed root := by
  intro path body hb
  cases path with
  | nil =>
    obtain rfl : root = body := Option.some.inj hb
    exact ht
  | cons key path =>
    rw [Forest.bodyIn?_cons] at hb
    obtain ⟨inner, hi, hb⟩ := Option.bind_eq_some_iff.mp hb
    obtain ⟨node, hn, hi⟩ := Option.bind_eq_some_iff.mp hi
    exact h key node inner hn hi path body hb

theorem empty : WellFormed Cache.empty := of_items tidy_empty (by simp)

theorem updateIn {change : Container → Container} {path : List Bytes} (h : WellFormed root)
    (hc : ∀ body, bodyIn? root path = some body → WellFormed (change body)) :
    WellFormed (updateIn change path root) := by
  intro other body hb
  by_cases hp : path <+: other
  · obtain ⟨rest, rfl⟩ := hp
    rw [Forest.bodyIn?_updateIn_append] at hb
    obtain ⟨inner, hi, hb⟩ := Option.bind_eq_some_iff.mp hb
    exact hc inner hi rest body hb
  · rcases Forest.bodyIn?_updateIn_of_not_prefix change root hp with he | ⟨key, inner, he⟩
    · exact h other body (he ▸ hb)
    · rw [he] at hb
      obtain ⟨old, ho, rfl⟩ := Option.map_eq_some_iff.mp hb
      exact (h other old ho).updateBody key inner

end WellFormed
end Container
end StyleRegistry
