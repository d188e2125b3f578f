import StyleRegistry.Proofs.Rule.Container

/-! # References along a way

The three elementary changes of a tree of containers: a reference taken or
given back in the container at the end of a way, and a change of the selectors
of a block there. The face of a container is what it shows without a look into
its bodies: keys, texts, counts and selectors, in order. Each change alters
the face of one container only, unless an eviction takes a body away. -/
namespace StyleRegistry

open Forest (bodyIn? updateIn)

/-! ## Faces -/

/-- An entry without what is in its body. -/
structure Face where
  key : Bytes
  text : Bytes
  count : Nat
  selectors : Option (Cache Selector)

def Face.ofEntry (entry : Entry Node) : Face :=
  ⟨entry.key, entry.item.text, entry.count, entry.item.selectors?⟩

namespace Container

def face (body : Container) : List Face := body.entries.map Face.ofEntry

/-- The selectors of the block under a key; none where there is no such block. -/
def selectorsOf (body : Container) (key : Bytes) : Cache Selector :=
  ((body.item? key).bind Node.selectors?).getD .empty

theorem find?_face (body : Container) (key : Bytes) :
    body.face.find? (fun f => f.key == key) = (body.find? key).map Face.ofEntry :=
  List.find?_map ..

section

variable {a b : Container} (h : a.face = b.face) (key : Bytes)
include h

theorem map_find?_of_face : (a.find? key).map Face.ofEntry = (b.find? key).map Face.ofEntry := by
  rw [← find?_face, h, find?_face]

theorem count_of_face : a.count key = b.count key := by
  have hf := congrArg (Option.map Face.count) (map_find?_of_face h key)
  simp only [Option.map_map] at hf
  exact congrArg (Option.getD · 0) hf

theorem contains_of_face : a.contains key = b.contains key := by
  have hf := congrArg Option.isSome (map_find?_of_face h key)
  simpa only [Option.isSome_map, Cache.contains] using hf

theorem selectorsOf_of_face : a.selectorsOf key = b.selectorsOf key := by
  have hf := congrArg (fun f => (Option.bind f Face.selectors).getD .empty)
    (map_find?_of_face h key)
  simp only [Option.bind_map] at hf
  simp only [selectorsOf, Cache.item?, Option.bind_map]
  exact hf

end

theorem face_updateItem {change : Node → Node} (ht : ∀ node, (change node).text = node.text)
    (hs : ∀ node, (change node).selectors? = node.selectors?) (body : Container) (key : Bytes) :
    face (body.updateItem key change) = body.face := by
  refine Cache.map_updateEntry Face.ofEntry ?_ _
  intro entry
  simp [Face.ofEntry, ht, hs]

theorem face_updateBody (body : Container) (key : Bytes) (inner : Container → Container) :
    face (body.updateItem key (Node.mapBody inner)) = body.face :=
  face_updateItem (fun node => by cases node <;> rfl) (Node.selectors?_mapBody inner) body key

/-- The container at the end of a way, an empty one if the way ends early. -/
def bodyAt (root : Container) (path : List Bytes) : Container := (bodyIn? root path).getD .empty

def countAt (root : Container) (path : List Bytes) (key : Bytes) : Nat := (root.bodyAt path).count key

def holds (root : Container) (path : List Bytes) (key : Bytes) : Bool :=
  (root.bodyAt path).contains key

def selectorsAt (root : Container) (path : List Bytes) (key : Bytes) : Cache Selector :=
  (root.bodyAt path).selectorsOf key

theorem bodyAt_of_some {root body : Container} {path : List Bytes}
    (h : bodyIn? root path = some body) : root.bodyAt path = body := by simp [bodyAt, h]

theorem bodyAt_of_none {root : Container} {path : List Bytes} (h : bodyIn? root path = none) :
    root.bodyAt path = .empty := by simp [bodyAt, h]

theorem WellFormed.bodyAt {root : Container} (h : root.WellFormed) (path : List Bytes) :
    (root.bodyAt path).WellFormed := by
  cases hb : bodyIn? root path with
  | none => exact bodyAt_of_none hb ▸ .empty
  | some body => exact bodyAt_of_some hb ▸ h.body hb

theorem WellFormed.holds_iff {root : Container} (h : root.WellFormed) (path : List Bytes)
    (key : Bytes) : root.holds path key = true ↔ 0 < root.countAt path key :=
  (h.bodyAt path).tidy.sound.contains_iff key

theorem not_holds_empty (path : List Bytes) (key : Bytes) :
    ¬ holds .empty path key = true := by
  cases path <;> simp [holds, bodyAt, Forest.bodyIn?_cons]

theorem countAt_eq_zero {root : Container} {path : List Bytes} {key : Bytes}
    (h : ¬ root.holds path key = true) : root.countAt path key = 0 :=
  Cache.count_eq_zero (Bool.eq_false_iff.mpr h)

theorem selectorsAt_of_not_holds {root : Container} {path : List Bytes} {key : Bytes}
    (h : ¬ root.holds path key = true) : root.selectorsAt path key = .empty := by
  rw [holds, ← Cache.item?_isSome, Option.not_isSome_iff_eq_none] at h
  rw [selectorsAt, selectorsOf, h]
  rfl

theorem face_bodyAt_updateIn {change : Container → Container} {path other : List Bytes}
    (root : Container) (h : ¬ path <+: other) :
    ((updateIn change path root).bodyAt other).face = (root.bodyAt other).face := by
  have hm := Forest.map_bodyIn?_updateIn change face face_updateBody root h
  have hd := congrArg (Option.getD · (face .empty)) hm
  simpa only [bodyAt, Option.getD_map] using hd

theorem isSome_bodyIn?_of_holds {root : Container} {path : List Bytes} {key : Bytes}
    (h : root.holds path key = true) : (bodyIn? root path).isSome := by
  unfold holds bodyAt at h
  cases hb : bodyIn? root path with
  | none => simp [hb] at h
  | some body => rfl

/-! ## Taking a reference -/

def acquireAt (root : Container) (path : List Bytes) (node : Node) : Container :=
  updateIn (·.acquire node) path root

section Acquire

variable {root : Container} {path : List Bytes} {node : Node}

/-- Below the container that takes a fresh node, no container has another face:
what is in a new body is nothing. -/
theorem bodyAt_acquire_cons (body : Container) (hf : node.Fresh) (key : Bytes)
    (rest : List Bytes) :
    bodyAt (body.acquire node) (key :: rest) = body.bodyAt (key :: rest) := by
  rw [bodyAt, bodyAt, Forest.bodyIn?_cons, Forest.bodyIn?_cons, Cache.item?_acquire]
  cases body.item? key with
  | some old => rfl
  | none =>
    by_cases hk : key = Keyed.key node
    · cases hb : node.body? with
      | none => simp [hk, hb]
      | some inner =>
        cases rest with
        | nil => simp [hk, hb, hf.1 inner hb]
        | cons first rest => simp [hk, hb, hf.1 inner hb, Forest.bodyIn?_cons]
    · simp [hk]

theorem bodyAt_acquireAt_self (h : (bodyIn? root path).isSome) :
    (root.acquireAt path node).bodyAt path = (root.bodyAt path).acquire node := by
  obtain ⟨body, hb⟩ := Option.isSome_iff_exists.mp h
  rw [bodyAt_of_some hb, bodyAt, acquireAt, Forest.bodyIn?_updateIn, hb]
  rfl

theorem face_bodyAt_acquireAt (h : (bodyIn? root path).isSome) (hf : node.Fresh)
    (other : List Bytes) :
    ((root.acquireAt path node).bodyAt other).face =
      if other = path then face ((root.bodyAt path).acquire node)
      else (root.bodyAt other).face := by
  by_cases ho : other = path
  · rw [if_pos ho, ho, bodyAt_acquireAt_self h]
  · rw [if_neg ho]
    by_cases hp : path <+: other
    · obtain ⟨rest, rfl⟩ := hp
      obtain ⟨body, hb⟩ := Option.isSome_iff_exists.mp h
      cases rest with
      | nil => exact absurd (List.append_nil path) ho
      | cons key rest =>
        have hc := bodyAt_acquire_cons body hf key rest
        unfold bodyAt at hc
        rw [bodyAt, bodyAt, acquireAt, Forest.bodyIn?_updateIn_append, Forest.bodyIn?_append, hb]
        exact congrArg face hc
    · exact face_bodyAt_updateIn root hp

theorem countAt_acquireAt (h : (bodyIn? root path).isSome) (hf : node.Fresh)
    (other : List Bytes) (key : Bytes) :
    (root.acquireAt path node).countAt other key =
      root.countAt other key + if other = path ∧ key = node.key then 1 else 0 := by
  have hface := face_bodyAt_acquireAt h hf other
  by_cases ho : other = path
  · subst ho
    rw [countAt, bodyAt_acquireAt_self h, Cache.count_acquire, Node.keyed_key, countAt]
    simp
  · rw [if_neg ho] at hface
    rw [countAt, count_of_face hface, countAt]
    simp [ho]

theorem selectorsAt_acquireAt (h : (bodyIn? root path).isSome) (hf : node.Fresh)
    (other : List Bytes) (key : Bytes) :
    (root.acquireAt path node).selectorsAt other key = root.selectorsAt other key := by
  have hface := face_bodyAt_acquireAt h hf other
  by_cases ho : other = path
  · subst ho
    rw [selectorsAt, bodyAt_acquireAt_self h, selectorsOf, Cache.item?_acquire, selectorsAt,
      selectorsOf]
    cases (root.bodyAt other).item? key with
    | some old => rfl
    | none =>
      by_cases hk : key = Keyed.key node
      · cases hs : node.selectors? with
        | none => simp [hk, hs]
        | some selectors => simp [hk, hs, hf.2 selectors hs]
      · simp [hk]
  · rw [if_neg ho] at hface
    exact selectorsOf_of_face hface key

theorem WellFormed.acquire {body : Container} (h : body.WellFormed) (hf : node.Fresh) :
    WellFormed (body.acquire node) := by
  have hitem : ∀ key stored, (body.acquire node).item? key = some stored →
      body.item? key = some stored ∨ stored = node := by
    intro key stored hs
    rw [Cache.item?_acquire, Option.or_eq_some_iff] at hs
    rcases hs with hs | ⟨-, hs⟩
    · exact .inl hs
    · split at hs
      · exact .inr (Option.some.inj hs).symm
      · cases hs
  refine .of_items ⟨h.tidy.sound.acquire node, ?_⟩ ?_
  · intro key stored selectors hs hsel
    rcases hitem key stored hs with hs | rfl
    · exact h.tidy.selectors key stored selectors hs hsel
    · exact hf.2 selectors hsel ▸ Cache.sound_empty
  · intro key stored inner hs hb
    rcases hitem key stored hs with hs | rfl
    · have hbody : bodyIn? body [key] = some inner := by simp [Forest.bodyIn?_cons, hs, hb]
      exact h.body hbody
    · exact hf.1 inner hb ▸ .empty

theorem WellFormed.acquireAt (h : root.WellFormed) (hf : node.Fresh) (path : List Bytes) :
    (root.acquireAt path node).WellFormed :=
  h.updateIn fun _ hb => (h.body hb).acquire hf

/-- No container goes away. -/
theorem isSome_bodyIn?_acquireAt {other : List Bytes} (h : (bodyIn? root other).isSome) :
    (bodyIn? (root.acquireAt path node) other).isSome := by
  by_cases hp : path <+: other
  · obtain ⟨rest, rfl⟩ := hp
    rw [Forest.bodyIn?_append] at h
    rw [acquireAt, Forest.bodyIn?_updateIn_append]
    cases hb : bodyIn? root path with
    | none => simp [hb] at h
    | some body =>
      simp only [hb, Option.bind_some] at h ⊢
      cases rest with
      | nil => rfl
      | cons key rest =>
        rw [Forest.bodyIn?_cons] at h
        rw [Forest.bodyIn?_cons, Cache.item?_acquire]
        cases hi : body.item? key with
        | none => simp [hi] at h
        | some old => simpa [hi] using h
  · rw [acquireAt, Forest.isSome_bodyIn?_updateIn _ root hp]
    exact h

end Acquire

/-- A container that is held is there. -/
theorem WellFormed.isSome_bodyIn? {root : Container} (h : root.WellFormed) {path : List Bytes}
    {rule : Bytes} (hh : root.holds path (Key.atRule rule) = true) :
    (bodyIn? root (path ++ [Key.atRule rule])).isSome := by
  unfold holds Container.bodyAt at hh
  rw [Forest.bodyIn?_concat]
  cases hb : bodyIn? root path with
  | none => simp [hb] at hh
  | some body =>
    simp only [hb, Option.getD_some, ← Cache.item?_isSome] at hh
    obtain ⟨node, hn⟩ := Option.isSome_iff_exists.mp hh
    simpa [hn] using Node.body?_of_key (h.node_key hb hn)

theorem holds_of_isSome_bodyIn? {root : Container} {path : List Bytes} {key : Bytes}
    (h : (bodyIn? root (path ++ [key])).isSome) : root.holds path key = true := by
  rw [Forest.bodyIn?_concat] at h
  unfold holds bodyAt
  cases hb : bodyIn? root path with
  | none => simp [hb] at h
  | some body =>
    rw [hb] at h
    rw [Option.getD_some, ← Cache.item?_isSome]
    cases hi : body.item? key with
    | none => simp [hi] at h
    | some node => rfl

/-! ## Giving a reference back -/

def releaseAt (root : Container) (path : List Bytes) (key : Bytes) : Container :=
  updateIn (·.release key) path root

section Release

variable {root : Container} {path : List Bytes} {key : Bytes}

/-- What is left of a way below a release is as it was. -/
theorem bodyIn?_release_cons {body : Container} (h : Cache.Sound body) {k : Bytes}
    {rest : List Bytes} (hs : (bodyIn? (body.release key) (k :: rest)).isSome) :
    bodyIn? (body.release key) (k :: rest) = bodyIn? body (k :: rest) := by
  rw [Forest.bodyIn?_cons, h.item?_release] at hs
  rw [Forest.bodyIn?_cons, h.item?_release, Forest.bodyIn?_cons]
  split
  · rfl
  · rename_i hc
    rw [if_neg hc] at hs
    cases hs

theorem bodyIn?_releaseAt_of_ne (h : root.WellFormed) {other : List Bytes} (ho : other ≠ path)
    (hp : path <+: other) (hs : (bodyIn? (root.releaseAt path key) other).isSome) :
    bodyIn? (root.releaseAt path key) other = bodyIn? root other := by
  obtain ⟨rest, rfl⟩ := hp
  rw [releaseAt, Forest.bodyIn?_updateIn_append] at hs ⊢
  rw [Forest.bodyIn?_append]
  cases hb : bodyIn? root path with
  | none => rfl
  | some body =>
    rw [hb] at hs
    cases rest with
    | nil => exact absurd (List.append_nil path) ho
    | cons k rest => exact bodyIn?_release_cons (h.body hb).tidy.sound hs

theorem bodyAt_releaseAt_self : (root.releaseAt path key).bodyAt path =
    (root.bodyAt path).release key := by
  rw [bodyAt, releaseAt, Forest.bodyIn?_updateIn, bodyAt]
  cases bodyIn? root path with
  | none => rfl
  | some body => rfl

theorem face_bodyAt_releaseAt (h : root.WellFormed) {other : List Bytes}
    (hs : (bodyIn? (root.releaseAt path key) other).isSome) :
    ((root.releaseAt path key).bodyAt other).face =
      if other = path then face ((root.bodyAt path).release key) else (root.bodyAt other).face := by
  by_cases ho : other = path
  · rw [if_pos ho, ho, bodyAt_releaseAt_self]
  · rw [if_neg ho]
    by_cases hp : path <+: other
    · rw [bodyAt, bodyIn?_releaseAt_of_ne h ho hp hs, bodyAt]
    · exact face_bodyAt_updateIn root hp

/-- No container comes up. -/
theorem isSome_bodyIn?_of_releaseAt (h : root.WellFormed) {other : List Bytes}
    (hs : (bodyIn? (root.releaseAt path key) other).isSome) : (bodyIn? root other).isSome := by
  by_cases hp : path <+: other
  · by_cases ho : other = path
    · rw [ho, releaseAt, Forest.bodyIn?_updateIn, Option.isSome_map] at hs
      rwa [ho]
    · rwa [← bodyIn?_releaseAt_of_ne h ho hp hs]
  · rwa [← Forest.isSome_bodyIn?_updateIn (·.release key) root hp]

/-- An evicted body is out of reach. -/
theorem bodyIn?_releaseAt_of_evicted (h : root.WellFormed) {body : Container}
    (hb : bodyIn? root path = some body) {node : Node} (he : body.evicted? key = some node)
    (rest : List Bytes) : bodyIn? (root.releaseAt path key) (path ++ key :: rest) = none := by
  rw [releaseAt, Forest.bodyIn?_updateIn_append, hb, Option.bind_some, Forest.bodyIn?_cons,
    (h path body hb).sound.item?_release_of_evicted he]
  rfl

theorem countAt_releaseAt (h : root.WellFormed) {other : List Bytes}
    (hs : (bodyIn? (root.releaseAt path key) other).isSome) (k : Bytes) :
    (root.releaseAt path key).countAt other k =
      root.countAt other k - if other = path ∧ k = key then 1 else 0 := by
  have hface := face_bodyAt_releaseAt h hs
  by_cases ho : other = path
  · subst ho
    rw [countAt, bodyAt_releaseAt_self, (h.bodyAt other).tidy.sound.count_release, countAt]
    simp
  · rw [if_neg ho] at hface
    rw [countAt, count_of_face hface, countAt]
    simp [ho]

theorem WellFormed.release {body : Container} (h : body.WellFormed) (key : Bytes) :
    WellFormed (body.release key) := by
  have hitem : ∀ k node, (body.release key).item? k = some node → body.item? k = some node := by
    intro k node hn
    rw [h.tidy.sound.item?_release] at hn
    split at hn
    · exact hn
    · cases hn
  refine .of_items ⟨h.tidy.sound.release key, ?_⟩ ?_
  · intro k node selectors hn hs
    exact h.tidy.selectors k node selectors (hitem k node hn) hs
  · intro k node inner hn hb
    have hbody : bodyIn? body [k] = some inner := by
      simp [Forest.bodyIn?_cons, hitem k node hn, hb]
    exact h.body hbody

theorem WellFormed.releaseAt (h : root.WellFormed) (path : List Bytes) (key : Bytes) :
    (root.releaseAt path key).WellFormed :=
  h.updateIn fun _ hb => (h.body hb).release key

theorem holds_of_releaseAt (h : root.WellFormed) {other : List Bytes} {k : Bytes}
    (hh : (root.releaseAt path key).holds other k = true) : root.holds other k = true := by
  have hc := (h.releaseAt path key).holds_iff other k |>.mp hh
  rw [countAt_releaseAt h (isSome_bodyIn?_of_holds hh)] at hc
  exact (h.holds_iff other k).mpr (Nat.lt_of_lt_of_le hc (Nat.sub_le _ _))

theorem selectorsAt_releaseAt (h : root.WellFormed) {other : List Bytes} {k : Bytes}
    (hh : (root.releaseAt path key).holds other k = true) :
    (root.releaseAt path key).selectorsAt other k = root.selectorsAt other k := by
  have hface := face_bodyAt_releaseAt h (isSome_bodyIn?_of_holds hh)
  by_cases ho : other = path
  · subst ho
    rw [holds, bodyAt_releaseAt_self] at hh
    rw [selectorsAt, bodyAt_releaseAt_self, selectorsOf,
      (h.bodyAt other).tidy.sound.item?_release, if_pos hh, selectorsAt, selectorsOf]
  · rw [if_neg ho] at hface
    exact selectorsOf_of_face hface k

end Release

/-! ## Changing selectors -/

def selectAt (root : Container) (path : List Bytes) (key : Bytes)
    (change : Cache Selector → Cache Selector) : Container :=
  updateIn (·.updateItem key (Node.mapSelectors change)) path root

section Select

variable {root : Container} {path : List Bytes} {key : Bytes}
  {change : Cache Selector → Cache Selector}

theorem bodyIn?_select_cons (body : Container) (k : Bytes) (rest : List Bytes) :
    bodyIn? (body.updateItem key (Node.mapSelectors change)) (k :: rest) =
      bodyIn? body (k :: rest) := by
  have hb : Node.body? ∘ Node.mapSelectors change = Node.body? := by
    funext node
    exact node.body?_mapSelectors change
  rw [Forest.bodyIn?_cons, Cache.item?_updateItem, Forest.bodyIn?_cons]
  split
  · rw [Option.bind_map, hb]
  · rfl

theorem bodyAt_selectAt_self : (root.selectAt path key change).bodyAt path =
    (root.bodyAt path).updateItem key (Node.mapSelectors change) := by
  rw [bodyAt, selectAt, Forest.bodyIn?_updateIn, bodyAt]
  cases bodyIn? root path with
  | none => rfl
  | some body => rfl

theorem face_bodyAt_selectAt {other : List Bytes} (ho : other ≠ path) :
    ((root.selectAt path key change).bodyAt other).face = (root.bodyAt other).face := by
  by_cases hp : path <+: other
  · obtain ⟨rest, rfl⟩ := hp
    rw [bodyAt, selectAt, Forest.bodyIn?_updateIn_append, bodyAt, Forest.bodyIn?_append]
    cases bodyIn? root path with
    | none => rfl
    | some body =>
      cases rest with
      | nil => exact absurd (List.append_nil path) ho
      | cons k rest => simp only [Option.bind_some, bodyIn?_select_cons]
  · exact face_bodyAt_updateIn root hp

theorem countAt_selectAt (other : List Bytes) (k : Bytes) :
    (root.selectAt path key change).countAt other k = root.countAt other k := by
  by_cases ho : other = path
  · rw [ho, countAt, bodyAt_selectAt_self, Cache.count_updateItem, countAt]
  · exact count_of_face (face_bodyAt_selectAt ho) k

theorem holds_selectAt (other : List Bytes) (k : Bytes) :
    (root.selectAt path key change).holds other k = root.holds other k := by
  by_cases ho : other = path
  · rw [ho, holds, bodyAt_selectAt_self, Cache.contains_updateItem, holds]
  · exact contains_of_face (face_bodyAt_selectAt ho) k

theorem item?_of_holds {path : List Bytes} {key : Bytes} (h : root.holds path key = true) :
    ∃ body node, bodyIn? root path = some body ∧ body.item? key = some node := by
  unfold holds bodyAt at h
  cases hb : bodyIn? root path with
  | none => simp [hb] at h
  | some body =>
    simp only [hb, Option.getD_some, ← Cache.item?_isSome] at h
    obtain ⟨node, hn⟩ := Option.isSome_iff_exists.mp h
    exact ⟨body, node, rfl, hn⟩

/-- The change is seen by the block and by no other. -/
theorem selectorsAt_selectAt (h : root.WellFormed) {declarations : Bytes}
    (hh : root.holds path (Key.style declarations) = true) (other : List Bytes) (k : Bytes) :
    (root.selectAt path (Key.style declarations) change).selectorsAt other k =
      if other = path ∧ k = Key.style declarations then
        change (root.selectorsAt other k)
      else root.selectorsAt other k := by
  by_cases ho : other = path
  · subst ho
    rw [selectorsAt, bodyAt_selectAt_self, selectorsOf, Cache.item?_updateItem, selectorsAt,
      selectorsOf]
    by_cases hk : k = Key.style declarations
    · obtain ⟨body, node, hb, hn⟩ := item?_of_holds hh
      obtain ⟨selectors, hs⟩ :=
        Option.isSome_iff_exists.mp (Node.selectors?_of_key (h.node_key hb hn))
      simp [hk, bodyAt_of_some hb, hn, hs]
    · simp [hk]
  · rw [if_neg fun hc => ho hc.1]
    exact selectorsOf_of_face (face_bodyAt_selectAt ho) k

theorem WellFormed.selectAt (h : root.WellFormed)
    (hc : ∀ selectors : Cache Selector, selectors.Sound → (change selectors).Sound)
    (path : List Bytes) (key : Bytes) : (root.selectAt path key change).WellFormed := by
  refine h.updateIn fun body hb => ?_
  have hbody := h.body hb
  refine .of_items (hbody.tidy.updateItem (Node.key_mapSelectors change) ?_) ?_
  · intro node selectors hn hs
    rw [Node.selectors?_mapSelectors] at hs
    obtain ⟨old, ho, rfl⟩ := Option.map_eq_some_iff.mp hs
    exact hc old (hbody.tidy.selectors key node old hn ho)
  · intro k node inner hn hi
    rw [Cache.item?_updateItem] at hn
    suffices hin : bodyIn? body [k] = some inner from hbody.body hin
    split at hn
    · obtain ⟨old, ho, rfl⟩ := Option.map_eq_some_iff.mp hn
      rw [Node.body?_mapSelectors] at hi
      simp [Forest.bodyIn?_cons, ho, hi]
    · simp [Forest.bodyIn?_cons, hn, hi]

end Select

/-! ## Undoing -/

section Undo

variable {root : Container}

/-- Giving back the reference that was taken last restores the tree. -/
theorem releaseAt_acquireAt (h : root.WellFormed) (path : List Bytes) (node : Node) :
    (root.acquireAt path node).releaseAt path node.key = root := by
  rw [releaseAt, acquireAt, Forest.updateIn_updateIn]
  exact Forest.updateIn_self fun body hb => Cache.release_acquire (h.body hb).tidy.sound node

theorem selectAt_selectAt (path : List Bytes) (key : Bytes)
    (change other : Cache Selector → Cache Selector) :
    (root.selectAt path key change).selectAt path key other =
      root.selectAt path key fun selectors => other (change selectors) := by
  simp only [selectAt, Forest.updateIn_updateIn, Cache.updateItem_updateItem,
    Node.mapSelectors_mapSelectors]

theorem selectAt_self {path : List Bytes} {key : Bytes} {change : Cache Selector → Cache Selector}
    (h : root.WellFormed)
    (hc : ∀ selectors : Cache Selector, selectors.Sound → change selectors = selectors) :
    root.selectAt path key change = root := by
  refine Forest.updateIn_self fun body hb => ?_
  refine Cache.updateItem_self _ _ _ fun node hn => ?_
  exact Node.mapSelectors_self fun selectors hs =>
    hc selectors ((h path body hb).selectors key node selectors hn hs)

/-- Changes of selectors commute if they do on every cache. -/
theorem selectAt_comm {change other : Cache Selector → Cache Selector}
    (hc : ∀ selectors, change (other selectors) = other (change selectors))
    (path path' : List Bytes) (key key' : Bytes) (root : Container) :
    (root.selectAt path' key' other).selectAt path key change =
      (root.selectAt path key change).selectAt path' key' other := by
  induction path generalizing path' root with
  | nil =>
    cases path' with
    | nil =>
      refine Cache.updateItem_comm _ _ _ fun _ node => ?_
      simp only [Node.mapSelectors_mapSelectors, hc]
    | cons first path' =>
      exact Cache.updateItem_comm _ _ _ fun _ node => Node.mapSelectors_mapBody _ _ node
  | cons first path ih =>
    cases path' with
    | nil =>
      exact Cache.updateItem_comm _ _ _ fun _ node => (Node.mapSelectors_mapBody _ _ node).symm
    | cons first' path' =>
      refine Cache.updateItem_comm _ _ _ fun _ node => ?_
      rw [Node.mapBody_mapBody, Node.mapBody_mapBody]
      congr 1
      funext body
      exact ih path' body

end Undo

end Container
end StyleRegistry
