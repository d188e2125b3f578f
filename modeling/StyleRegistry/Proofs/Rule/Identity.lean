import Mathlib.Data.List.Basic
import StyleRegistry.Proofs.Rule.Place

/-! # What places name

A place goes on naming the node that it named when it was taken. The node may
be evicted, alone or with an at-rule around it, and is then found among the
evicted nodes; its selectors and what is in its body may change. Its key never
does, and the key tells what kind of node it is: so a block stays a block, and
an at-rule keeps its body. -/
namespace StyleRegistry

open Forest (bodyIn? updateIn)

namespace Cache

theorem item?_of_evicted? {α : Type} {cache : Cache α} {key : Bytes} {item : α}
    (h : cache.evicted? key = some item) : cache.item? key = some item := by
  obtain ⟨entry, hf, -, rfl⟩ := evicted?_eq_some h
  rw [item?, hf]
  rfl

/-- Releasing a key takes away no other item, nor its own if references are left. -/
theorem Sound.item?_release_of_stays {α : Type} [Keyed α] {cache : Cache α} (h : cache.Sound)
    {key k : Bytes} (hk : cache.evicted? key = none ∨ k ≠ key) :
    (cache.release key).item? k = cache.item? k := by
  rw [h.item?_release]
  split
  · rfl
  · rename_i hgone
    rw [eq_comm, ← Option.not_isSome_iff_eq_none, item?_isSome]
    intro hheld
    rw [(h.release key).contains_iff, h.count_release] at hgone
    have hpos := (h.contains_iff k).mp hheld
    rcases hk with he | hne
    · by_cases hkey : k = key
      · subst hkey
        obtain ⟨entry, hf⟩ := Option.isSome_iff_exists.mp hheld
        have hcount : cache.count k = entry.count := by rw [count, hf]; rfl
        simp only [evicted?, hf, ite_eq_right_iff, reduceCtorEq, imp_false] at he
        rw [if_pos rfl] at hgone
        omega
      · rw [if_neg hkey] at hgone
        omega
    · rw [if_neg hne] at hgone
      omega

end Cache

/-! ## Keys along ways -/

namespace Container

/-- The key of the node that a container at the end of a way has under a key. -/
def named (root : Container) (path : List Bytes) (key : Bytes) : Option Bytes :=
  (bodyIn? root path).bind fun body => (body.item? key).map Node.key

section Named

variable {body : Container} {path rest other : List Bytes} {key : Bytes}

theorem named_nil (root : Container) (key : Bytes) :
    root.named [] key = (root.item? key).map Node.key := rfl

theorem named_append (root : Container) (path rest : List Bytes) (key : Bytes) :
    root.named (path ++ rest) key = (bodyIn? root path).bind fun body => body.named rest key := by
  rw [named, Forest.bodyIn?_append, Option.bind_assoc]
  rfl

theorem named_cons (root : Container) (first : Bytes) (path : List Bytes) (key : Bytes) :
    root.named (first :: path) key =
      ((root.item? first).bind Node.body?).bind fun body => body.named path key := by
  rw [named, Forest.bodyIn?_cons, Option.bind_assoc]
  rfl

theorem named_updateIn_append (change : Container → Container) (path rest : List Bytes)
    (root : Container) (key : Bytes) : (updateIn change path root).named (path ++ rest) key =
      (bodyIn? root path).bind fun body => (change body).named rest key := by
  rw [named, Forest.bodyIn?_updateIn_append, Option.bind_assoc]
  rfl

theorem named_updateIn_of_not_prefix (change : Container → Container) (root : Container)
    (h : ¬ path <+: other) (key : Bytes) :
    (updateIn change path root).named other key = root.named other key := by
  have hview : ∀ (body : Container) k inner,
      ((body.updateItem k (Node.mapBody inner)).item? key).map Node.key =
        (body.item? key).map Node.key := by
    intro body k inner
    rw [Cache.item?_updateItem]
    split
    · rw [Option.map_map]
      exact congrArg (Option.map · _) (funext (Node.key_mapBody inner))
    · rfl
  let view (body : Container) := (body.item? key).map Node.key
  have hm := Forest.map_bodyIn?_updateIn change view hview root h
  have hb := congrArg (Option.bind · id) hm
  rw [Option.bind_map, Option.bind_map] at hb
  exact hb

/-- A reference more hides no node. -/
theorem named_acquire {found : Bytes} (h : body.named rest key = some found) (node : Node) :
    named (body.acquire node) rest key = some found := by
  have hitem : ∀ {k stored}, body.item? k = some stored →
      (body.acquire node).item? k = some stored := by
    intro k stored hs
    rw [Cache.item?_acquire, hs, Option.some_or]
  cases rest with
  | nil =>
    obtain ⟨stored, hs, hk⟩ := Option.map_eq_some_iff.mp h
    rw [named_nil, hitem hs, Option.map_some, hk]
  | cons first rest =>
    rw [named_cons] at h
    obtain ⟨inner, hi, hn⟩ := Option.bind_eq_some_iff.mp h
    obtain ⟨stored, hs, hb⟩ := Option.bind_eq_some_iff.mp hi
    rw [named_cons, hitem hs, Option.bind_some, hb, Option.bind_some, hn]

/-- One less hides only an evicted node and what is in it. -/
theorem named_release (h : Cache.Sound body) {gone : Bytes}
    (hg : body.evicted? gone = none ∨ ¬ [gone] <+: rest ++ [key]) :
    named (body.release gone) rest key = body.named rest key := by
  cases rest with
  | nil =>
    have hk : body.evicted? gone = none ∨ key ≠ gone :=
      hg.imp id fun hp he => hp (by rw [he]; exact List.prefix_rfl)
    rw [named_nil, h.item?_release_of_stays hk, named_nil]
  | cons first rest =>
    have hk : body.evicted? gone = none ∨ first ≠ gone :=
      hg.imp id fun hp he => hp (by rw [he]; exact List.prefix_append [gone] (rest ++ [key]))
    rw [named_cons, h.item?_release_of_stays hk, named_cons]

theorem named_select (body : Container) (slot : Bytes) (change : Cache Selector → Cache Selector)
    (rest : List Bytes) (key : Bytes) :
    named (body.updateItem slot (Node.mapSelectors change)) rest key = body.named rest key := by
  have hkey : Node.key ∘ Node.mapSelectors change = Node.key :=
    funext (Node.key_mapSelectors change)
  cases rest with
  | nil =>
    rw [named_nil, Cache.item?_updateItem, named_nil]
    split
    · rw [Option.map_map, hkey]
    · rfl
  | cons first rest => rw [named, bodyIn?_select_cons, named]

end Named
end Container

/-! ## Keys of addresses -/

namespace Forest

variable {forest after : Forest} {address : Address} {key : Bytes}

/-- The root container, or that of an evicted at-rule. -/
def base? (forest : Forest) : Option Nat → Option Container
  | none => some forest.root
  | some number => (forest.evicted? number).bind Node.body?

theorem containerAt?_eq (forest : Forest) (address : Address) : forest.containerAt? address =
    (forest.base? address.origin).bind fun body => bodyIn? body address.path := by
  obtain ⟨origin, path⟩ := address
  cases origin <;> rfl

/-- The key of the node that an address names. -/
def keyAt? (forest : Forest) (address : Address) : Option Bytes :=
  (forest.nodeAt? address).map Node.key

theorem nodeAt?_nil (forest : Forest) (origin : Option Nat) :
    forest.nodeAt? ⟨origin, []⟩ = origin.bind forest.evicted? := rfl

theorem nodeAt?_concat (forest : Forest) (origin : Option Nat) (path : List Bytes) (key : Bytes) :
    forest.nodeAt? ⟨origin, path ++ [key]⟩ =
      (forest.containerAt? ⟨origin, path⟩).bind (·.item? key) := by
  simp only [nodeAt?, List.getLast?_concat, Address.parent, List.dropLast_concat]

theorem keyAt?_concat (forest : Forest) (origin : Option Nat) (path : List Bytes) (key : Bytes) :
    forest.keyAt? ⟨origin, path ++ [key]⟩ =
      (forest.base? origin).bind fun body => body.named path key := by
  rw [keyAt?, nodeAt?_concat, containerAt?_eq, Option.map_bind, Option.bind_assoc]
  rfl

/-- The container of a node is its body; only the root container has no node. -/
theorem containerAt?_of_nodeAt? {node : Node} (h : forest.nodeAt? address = some node) :
    forest.containerAt? address = node.body? := by
  obtain ⟨origin, path⟩ := address
  rw [containerAt?_eq]
  rcases List.eq_nil_or_concat path with rfl | ⟨path, key, rfl⟩
  · rw [nodeAt?_nil] at h
    cases origin with
    | none => cases h
    | some number =>
      have hn : forest.evicted? number = some node := h
      simp only [base?, hn, Option.bind_some, bodyIn?_nil, Option.bind_fun_some]
  · rw [List.concat_eq_append, nodeAt?_concat, containerAt?_eq] at h
    simp only [List.concat_eq_append, bodyIn?_concat]
    rw [← Option.bind_assoc, ← Option.bind_assoc, h]
    rfl

theorem evicted?_updateEvicted (forest : Forest) (number : Nat) (change : Node → Node) (n : Nat) :
    (forest.updateEvicted number change).evicted? n =
      if n = number then (forest.evicted? n).map change else forest.evicted? n := by
  simp only [updateEvicted, evicted?, List.getElem?_modify, Option.map_eq_map, Option.map_map]
  split
  · rename_i h
    rw [if_pos h.symm]
    rfl
  · rename_i h
    rw [if_neg (Ne.symm h)]
    rfl

theorem map_key_evicted?_updateEvicted {change : Node → Node}
    (hc : ∀ node, (change node).key = node.key) (forest : Forest) (number n : Nat) :
    ((forest.updateEvicted number change).evicted? n).map Node.key =
      (forest.evicted? n).map Node.key := by
  rw [evicted?_updateEvicted]
  split
  · rw [Option.map_map]
    exact congrArg (Option.map · _) (funext hc)
  · rfl

theorem base?_updateContainerAt (forest : Forest) (address : Address)
    (change : Container → Container) (origin : Option Nat) :
    (forest.updateContainerAt address change).base? origin =
      if origin = address.origin then (forest.base? origin).map (updateIn change address.path)
      else forest.base? origin := by
  obtain ⟨own, path⟩ := address
  cases own with
  | none => cases origin <;> rfl
  | some number =>
    cases origin with
    | none => rfl
    | some n =>
      simp only [base?, updateContainerAt, evicted?_updateEvicted, Option.some.injEq]
      split
      · cases forest.evicted? n with
        | none => rfl
        | some node => exact Node.body?_mapBody _ node
      · rfl

theorem keyAt?_nil (forest : Forest) (origin : Option Nat) : forest.keyAt? ⟨origin, []⟩ =
    origin.bind fun number => (forest.evicted? number).map Node.key := by
  cases origin <;> rfl

theorem keyAt?_nil_updateContainerAt (forest : Forest) (address : Address)
    (change : Container → Container) (origin : Option Nat) :
    (forest.updateContainerAt address change).keyAt? ⟨origin, []⟩ =
      forest.keyAt? ⟨origin, []⟩ := by
  rw [keyAt?_nil, keyAt?_nil]
  obtain ⟨own, path⟩ := address
  cases own with
  | none => rfl
  | some number =>
    refine congrArg (origin.bind ·) (funext fun n => ?_)
    exact map_key_evicted?_updateEvicted (Node.key_mapBody _) forest number n

/-- A node that is named in a container at or below the changed one is named
there still; no other is lost anyway. -/
theorem keyAt?_updateContainerAt {changed : Address} {change : Container → Container}
    (hc : ∀ body rest last, forest.containerAt? changed = some body →
      address = ⟨changed.origin, changed.path ++ (rest ++ [last])⟩ →
        ∀ found, body.named rest last = some found → (change body).named rest last = some found)
    (h : forest.keyAt? address = some key) :
    (forest.updateContainerAt changed change).keyAt? address = some key := by
  obtain ⟨origin, path⟩ := address
  rcases List.eq_nil_or_concat path with rfl | ⟨path, last, rfl⟩
  · rw [keyAt?_nil_updateContainerAt]
    exact h
  · rw [List.concat_eq_append] at h hc ⊢
    rw [keyAt?_concat] at h ⊢
    obtain ⟨root, hroot, hnamed⟩ := Option.bind_eq_some_iff.mp h
    rw [base?_updateContainerAt]
    split
    · rename_i ho
      subst ho
      rw [hroot, Option.map_some, Option.bind_some]
      by_cases hp : changed.path <+: path
      · obtain ⟨rest, rfl⟩ := hp
        rw [Container.named_append] at hnamed
        obtain ⟨body, hbody, hnamed⟩ := Option.bind_eq_some_iff.mp hnamed
        have hat : forest.containerAt? changed = some body := by
          rw [containerAt?_eq, hroot, Option.bind_some, hbody]
        rw [Container.named_updateIn_append, hbody, Option.bind_some]
        exact hc body rest last hat (by rw [List.append_assoc]) key hnamed
      · rw [Container.named_updateIn_of_not_prefix change root hp, hnamed]
    · rw [hroot, Option.bind_some, hnamed]

/-- The forest once another node is evicted. -/
def evict (forest : Forest) (eviction : Eviction) : Forest :=
  { forest with evictions := forest.evictions ++ [eviction] }

theorem evicted?_evict (forest : Forest) (eviction : Eviction) (number : Nat) :
    (forest.evict eviction).evicted? number =
      if number = forest.evictions.length then some eviction.node else forest.evicted? number := by
  rw [evicted?, evict, evicted?, List.getElem?_append, List.getElem?_singleton]
  split
  · rename_i hlt
    rw [if_neg (Nat.ne_of_lt hlt)]
  · rename_i hle
    by_cases hn : number = forest.evictions.length
    · simp [hn]
    · rw [if_neg hn, if_neg (by omega), List.getElem?_eq_none (by omega)]

theorem evicted?_evict_of_some {number : Nat} {node : Node}
    (h : forest.evicted? number = some node) (eviction : Eviction) :
    (forest.evict eviction).evicted? number = some node := by
  obtain ⟨stored, hs, -⟩ := Option.map_eq_some_iff.mp h
  have hl := (List.getElem?_eq_some_iff.mp hs).1
  rw [evicted?_evict, if_neg (Nat.ne_of_lt hl), h]

/-- Another eviction hides nothing. -/
theorem keyAt?_evict (h : forest.keyAt? address = some key) (eviction : Eviction) :
    (forest.evict eviction).keyAt? address = some key := by
  obtain ⟨origin, path⟩ := address
  rcases List.eq_nil_or_concat path with rfl | ⟨path, last, rfl⟩
  · rw [keyAt?_nil] at h ⊢
    obtain ⟨number, rfl, hn⟩ := Option.bind_eq_some_iff.mp h
    obtain ⟨node, hnode, rfl⟩ := Option.map_eq_some_iff.mp hn
    rw [Option.bind_some, evicted?_evict_of_some hnode]
    rfl
  · rw [List.concat_eq_append, keyAt?_concat] at h ⊢
    obtain ⟨body, hbase, hn⟩ := Option.bind_eq_some_iff.mp h
    suffices hb : (forest.evict eviction).base? origin = some body by
      rw [hb, Option.bind_some, hn]
    cases origin with
    | none => exact hbase
    | some number =>
      obtain ⟨node, hnode, hbody⟩ := Option.bind_eq_some_iff.mp hbase
      rw [base?, evicted?_evict_of_some hnode]
      exact hbody

/-! ## Places that name nodes -/

/-- Every container within the root and within evicted nodes is tidy. -/
def Sound (forest : Forest) : Prop :=
  ∀ origin body, forest.base? origin = some body → body.WellFormed

/-- The place leads to a node of the key. -/
structure Names (forest : Forest) (place : Place) (key : Bytes) : Prop where
  since : place.since ≤ forest.evictions.length
  key : forest.keyAt? (forest.locate place) = some key

/-- The place leads to the root container or to an at-rule. -/
def Opens (forest : Forest) (place : Place) : Prop :=
  place.since ≤ forest.evictions.length ∧ forest.locate place = .root ∨
    ∃ rule, forest.Names place (Key.atRule rule)

/-- What places named before, they name afterwards. -/
structure Follows (forest after : Forest) : Prop where
  sound : after.Sound
  names : ∀ place key, forest.Names place key → after.Names place key
  opens : ∀ place, forest.Opens place → after.Opens place

theorem Sound.container (h : forest.Sound) {container : Container}
    (hc : forest.containerAt? address = some container) : container.WellFormed := by
  rw [containerAt?_eq] at hc
  obtain ⟨body, hbase, hbody⟩ := Option.bind_eq_some_iff.mp hc
  exact (h _ body hbase).body hbody

theorem Opens.container? {place : Place} (h : forest.Opens place) :
    (forest.container? place).isSome := by
  rcases h with ⟨-, hroot⟩ | ⟨rule, hn⟩
  · rw [Forest.container?, hroot]
    rfl
  · obtain ⟨node, hnode, hkey⟩ := Option.map_eq_some_iff.mp hn.key
    rw [Forest.container?, containerAt?_of_nodeAt? hnode]
    exact Node.body?_of_key hkey

/-- What a block's place leads to is a block. -/
theorem Names.selectors? {place : Place} {declarations : Bytes}
    (h : forest.Names place (Key.style declarations)) :
    ((forest.node? place).bind Node.selectors?).isSome := by
  obtain ⟨node, hnode, hkey⟩ := Option.map_eq_some_iff.mp h.key
  rw [node?, hnode]
  exact Node.selectors?_of_key hkey

theorem Follows.refl (h : forest.Sound) : forest.Follows forest :=
  ⟨h, fun _ _ => id, fun _ => id⟩

theorem Follows.trans {last : Forest} (h : forest.Follows after) (hl : after.Follows last) :
    forest.Follows last :=
  ⟨hl.sound, fun place key hn => hl.names place key (h.names place key hn),
    fun place ho => hl.opens place (h.opens place ho)⟩

/-- A place that leads to the root container has to lead there still. -/
theorem Follows.of_names (hs : after.Sound)
    (hr : ∀ place : Place, place.since ≤ forest.evictions.length → forest.locate place = .root →
      place.since ≤ after.evictions.length ∧ after.locate place = .root)
    (hn : ∀ place key, forest.Names place key → after.Names place key) :
    forest.Follows after := by
  refine ⟨hs, hn, fun place ho => ?_⟩
  rcases ho with ⟨hsince, hroot⟩ | ⟨rule, hrule⟩
  · exact .inl (hr place hsince hroot)
  · exact .inr ⟨rule, hn place _ hrule⟩

/-- No eviction: addresses stay, and so must keys. -/
theorem Follows.of_same (hs : after.Sound)
    (ha : after.evictions.map (·.address) = forest.evictions.map (·.address))
    (hk : ∀ address key, forest.keyAt? address = some key → after.keyAt? address = some key) :
    forest.Follows after := by
  have hl : after.evictions.length = forest.evictions.length := by
    simpa only [List.length_map] using congrArg List.length ha
  refine .of_names hs (fun place hsince hroot => ?_) fun place key hn => ?_
  · exact ⟨hl ▸ hsince, (locate_congr ha place).trans hroot⟩
  · exact ⟨hl ▸ hn.since, (locate_congr ha place) ▸ hk _ key hn.key⟩

/-! ## Evictions -/

/-- What is at or below a node is found at or below it once it is evicted. -/
theorem nodeAt?_below {gone : Address} {node : Node} {number : Nat}
    (hg : forest.nodeAt? gone = some node) (hn : after.evicted? number = some node)
    (rest : List Bytes) :
    after.nodeAt? ⟨some number, rest⟩ = forest.nodeAt? ⟨gone.origin, gone.path ++ rest⟩ := by
  rcases List.eq_nil_or_concat rest with rfl | ⟨rest, last, rfl⟩
  · rw [List.append_nil]
    exact hn.trans hg.symm
  · have hgone := containerAt?_of_nodeAt? hg
    have hnow : after.base? (some number) = node.body? := by rw [base?, hn, Option.bind_some]
    rw [containerAt?_eq] at hgone
    rw [List.concat_eq_append, ← List.append_assoc, nodeAt?_concat, nodeAt?_concat,
      containerAt?_eq, containerAt?_eq, hnow]
    simp only [bodyIn?_append]
    rw [← Option.bind_assoc, hgone]

theorem Sound.evict (h : forest.Sound) {eviction : Eviction}
    (hn : ∀ body, eviction.node.body? = some body → body.WellFormed) :
    (forest.evict eviction).Sound := by
  intro origin body hb
  cases origin with
  | none => exact h none body hb
  | some number =>
    obtain ⟨node, hnode, hbody⟩ := Option.bind_eq_some_iff.mp hb
    rw [evicted?_evict] at hnode
    split at hnode
    · obtain rfl := Option.some.inj hnode
      exact hn body hbody
    · exact h (some number) body (by rw [base?, hnode]; exact hbody)

section Evict

variable {changed : Forest} {gone : Address} {node : Node} {place : Place}

theorem addresses_evict
    (ha : changed.evictions.map (·.address) = forest.evictions.map (·.address)) :
    (changed.evict ⟨gone, node⟩).evictions.map (·.address) =
      forest.evictions.map (·.address) ++ [gone] := by
  rw [evict, List.map_append, ha]
  rfl

theorem since_evict (ha : changed.evictions.map (·.address) = forest.evictions.map (·.address))
    (h : place.since ≤ forest.evictions.length) :
    place.since ≤ (changed.evict ⟨gone, node⟩).evictions.length := by
  have hl := congrArg List.length (@addresses_evict _ _ gone node ha)
  rw [List.length_map, List.length_append, List.length_map] at hl
  exact hl ▸ Nat.le_add_right_of_le h

/-- A node at or below the evicted one is found there now, and every other where it was. -/
theorem Names.evict {key : Bytes} (h : forest.Names place key)
    (hg : forest.nodeAt? gone = some node)
    (ha : changed.evictions.map (·.address) = forest.evictions.map (·.address))
    (hk : ∀ address key, ¬ (address.origin = gone.origin ∧ gone.path <+: address.path) →
      forest.keyAt? address = some key → changed.keyAt? address = some key) :
    (changed.evict ⟨gone, node⟩).Names place key := by
  refine ⟨since_evict ha h.since, ?_⟩
  rw [locate_append (addresses_evict ha) h.since, Address.forward]
  split
  · rename_i hunder
    obtain ⟨ho, hpre⟩ := hunder
    obtain ⟨rest, hpath⟩ := List.isPrefixOf_iff_prefix.mp hpre
    have hl : changed.evictions.length = forest.evictions.length := by
      simpa only [List.length_map] using congrArg List.length ha
    have hnow : (changed.evict ⟨gone, node⟩).evicted? forest.evictions.length = some node := by
      rw [evicted?_evict, if_pos hl.symm]
    rw [keyAt?, ← hpath, List.drop_left, nodeAt?_below hg hnow, hpath, ← ho]
    exact h.key
  · rename_i hunder
    refine keyAt?_evict (hk _ key (fun hc => hunder ?_) h.key) _
    exact ⟨hc.1, List.isPrefixOf_iff_prefix.mpr hc.2⟩

/-- One eviction more, of a node that is in some container. -/
theorem Follows.of_evict (hg : forest.nodeAt? gone = some node) (hp : gone.path ≠ [])
    (ha : changed.evictions.map (·.address) = forest.evictions.map (·.address))
    (hs : (changed.evict ⟨gone, node⟩).Sound)
    (hk : ∀ address key, ¬ (address.origin = gone.origin ∧ gone.path <+: address.path) →
      forest.keyAt? address = some key → changed.keyAt? address = some key) :
    forest.Follows (changed.evict ⟨gone, node⟩) := by
  refine .of_names hs (fun place hsince hroot => ?_) fun place key hn => hn.evict hg ha hk
  refine ⟨since_evict ha hsince, ?_⟩
  rw [locate_append (addresses_evict ha) hsince, hroot, Address.forward, if_neg]
  rintro ⟨-, hpre⟩
  exact hp (List.prefix_nil.mp (List.isPrefixOf_iff_prefix.mp hpre))

end Evict

/-! ## The three changes -/

theorem Sound.updateContainerAt (h : forest.Sound) {changed : Address}
    {change : Container → Container}
    (hc : ∀ body, forest.containerAt? changed = some body → (change body).WellFormed) :
    (forest.updateContainerAt changed change).Sound := by
  intro origin body hb
  rw [base?_updateContainerAt] at hb
  split at hb
  · rename_i ho
    subst ho
    obtain ⟨root, hroot, rfl⟩ := Option.map_eq_some_iff.mp hb
    refine (h _ root hroot).updateIn fun inner hi => hc inner ?_
    rw [containerAt?_eq, hroot, Option.bind_some, hi]
  · exact h origin body hb

/-- A change that keeps all names in a container keeps what places name. -/
theorem Sound.follows_updateContainerAt (h : forest.Sound) {changed : Address}
    {change : Container → Container}
    (hw : ∀ body, forest.containerAt? changed = some body → (change body).WellFormed)
    (hc : ∀ (body : Container) rest last found, forest.containerAt? changed = some body →
      body.named rest last = some found → (change body).named rest last = some found) :
    forest.Follows (forest.updateContainerAt changed change) := by
  refine .of_same (h.updateContainerAt hw) (addresses_updateContainerAt _ _) ?_
  intro address key hk
  exact keyAt?_updateContainerAt (fun body rest last hb _ found => hc body rest last found hb) hk

theorem Sound.acquire (h : forest.Sound) (place : Place) {node : Node} (hf : node.Fresh) :
    forest.Follows (forest.acquire place node).1 := by
  have hu : forest.Follows (forest.updateContainerAt (forest.locate place) (·.acquire node)) :=
    h.follows_updateContainerAt (fun body hb => (h.container hb).acquire hf)
      fun body rest last found _ hn => Container.named_acquire hn node
  simp only [Forest.acquire]
  split
  · exact .refl h
  · split
    · exact hu
    · exact hu

/-- The selectors of an evicted block change no container and no key. -/
theorem Sound.select_evicted (h : forest.Sound) (number : Nat)
    (change : Cache Selector → Cache Selector) :
    forest.Follows (forest.updateEvicted number (Node.mapSelectors change)) := by
  have hbase : ∀ origin, (forest.updateEvicted number (Node.mapSelectors change)).base? origin =
      forest.base? origin := by
    intro origin
    cases origin with
    | none => rfl
    | some n =>
      simp only [base?, evicted?_updateEvicted]
      split
      · cases forest.evicted? n with
        | none => rfl
        | some node => exact Node.body?_mapSelectors _ node
      · rfl
  refine .of_same (fun origin body hb => h origin body (hbase origin ▸ hb))
    (addresses_updateEvicted _ _) fun address key hk => ?_
  obtain ⟨origin, path⟩ := address
  rcases List.eq_nil_or_concat path with rfl | ⟨path, last, rfl⟩
  · rw [keyAt?_nil] at hk ⊢
    obtain ⟨n, rfl, hn⟩ := Option.bind_eq_some_iff.mp hk
    rw [Option.bind_some, map_key_evicted?_updateEvicted (Node.key_mapSelectors change), hn]
  · rw [List.concat_eq_append, keyAt?_concat] at hk ⊢
    rw [hbase, hk]

theorem Sound.select (h : forest.Sound) (place : Place)
    {change : Cache Selector → Cache Selector}
    (hc : ∀ selectors : Cache Selector, selectors.Sound → (change selectors).Sound) :
    forest.Follows (forest.updateNode place (Node.mapSelectors change)) := by
  rw [updateNode]
  generalize forest.locate place = address
  obtain ⟨origin, path⟩ := address
  rcases List.eq_nil_or_concat path with rfl | ⟨path, last, rfl⟩
  · cases origin with
    | none => exact .refl h
    | some number => exact h.select_evicted number change
  · rw [List.concat_eq_append]
    simp only [updateNodeAt, List.getLast?_concat, Address.parent, List.dropLast_concat]
    refine h.follows_updateContainerAt (fun body hb => ?_) fun body rest k found _ hn => ?_
    · exact (h.container hb).selectAt hc [] last
    · rw [Container.named_select, hn]

/-- The last reference to a node is given back. -/
theorem Sound.release_evicted (h : forest.Sound) {place : Place} {key : Bytes}
    {body : Container} {node : Node} (hc : forest.containerAt? (forest.locate place) = some body)
    (he : body.evicted? key = some node) : forest.Follows (forest.release place key).1 := by
  have hgone : forest.nodeAt? ((forest.locate place).child key) = some node := by
    rw [Address.child, nodeAt?_concat]
    exact (congrArg (Option.bind · _) hc).trans (Cache.item?_of_evicted? he)
  have hrelease : (forest.release place key).1 =
      (forest.updateContainerAt (forest.locate place) (·.release key)).evict
        ⟨(forest.locate place).child key, node⟩ := by
    rw [release_of_evicted hc he]
    rfl
  rw [hrelease]
  refine .of_evict hgone (by simp [Address.child]) (addresses_updateContainerAt _ _) ?_ ?_
  · refine Sound.evict (h.updateContainerAt fun inner hi => (h.container hi).release key) ?_
    intro inner hi
    exact h.container ((containerAt?_of_nodeAt? hgone).trans hi)
  · intro address found hne hk
    refine keyAt?_updateContainerAt (fun inner rest last hi haddress name hn => ?_) hk
    obtain rfl : body = inner := Option.some.inj (hc.symm.trans hi)
    have hout : ¬ [key] <+: rest ++ [last] := fun hpre => hne (by
      rw [haddress, Address.child]
      exact ⟨rfl, (List.prefix_append_right_inj _).mpr hpre⟩)
    rw [Container.named_release (h.container hc).tidy.sound (.inr hout), hn]

theorem Sound.release (h : forest.Sound) (place : Place) (key : Bytes) :
    forest.Follows (forest.release place key).1 := by
  cases hc : forest.containerAt? (forest.locate place) with
  | none =>
    rw [release_of_none hc]
    exact .refl h
  | some body =>
    cases he : body.evicted? key with
    | none =>
      rw [release_of_stays hc he]
      refine h.follows_updateContainerAt (fun inner hi => (h.container hi).release key) ?_
      intro inner rest last found hi hn
      obtain rfl : body = inner := Option.some.inj (hc.symm.trans hi)
      rw [Container.named_release (h.container hc).tidy.sound (.inl he), hn]
    | some node => exact h.release_evicted hc he

end Forest
end StyleRegistry
