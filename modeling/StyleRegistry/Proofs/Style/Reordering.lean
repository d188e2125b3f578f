import Mathlib.Data.List.Basic
import StyleRegistry.Style.Block

/-! # Reordered layers

Two layers are reorderings of each other if they have the same entries in
another order, at any depth. In a layer that was built by setting keys, no key
comes twice. Sorting by key then undoes every reordering, so all of them
compile to one block: the properties come in one order, and so do the nested
layers, whose own blocks are equal by the same argument one level down. -/
namespace StyleRegistry

/-! ## Sorting by key -/

namespace Bytes

variable {α β : Type}

theorem lt_or_gt_of_ne {a b : Bytes} (h : a ≠ b) : a < b ∨ b < a := by
  by_cases hab : a < b
  · exact .inl hab
  · refine .inr (Decidable.byContradiction fun hba => ?_)
    exact h (List.le_antisymm hba hab)

theorem insertByKey_comm_of_lt {x y : Bytes × α} (h : x.1 < y.1) (entries : List (Bytes × α)) :
    insertByKey x (insertByKey y entries) = insertByKey y (insertByKey x entries) := by
  have hyx : ¬ y.1 < x.1 := List.lt_asymm h
  induction entries with
  | nil => simp [insertByKey, h, hyx]
  | cons head rest ih =>
    by_cases hx : head.1 < x.1
    · have hy : head.1 < y.1 := List.lt_trans hx h
      simp [insertByKey, hx, hy, ih]
    · by_cases hy : head.1 < y.1
      · simp [insertByKey, hx, hy, h]
      · simp [insertByKey, hx, hy, h, hyx]

theorem insertByKey_comm {x y : Bytes × α} (h : x.1 ≠ y.1) (entries : List (Bytes × α)) :
    insertByKey x (insertByKey y entries) = insertByKey y (insertByKey x entries) := by
  rcases lt_or_gt_of_ne h with hxy | hyx
  · exact insertByKey_comm_of_lt hxy entries
  · exact (insertByKey_comm_of_lt hyx entries).symm

/-- Entries with distinct keys have one sorted order. -/
theorem sortByKey_eq_of_perm {a b : List (Bytes × α)} (h : a.Perm b)
    (hn : (a.map Prod.fst).Nodup) : sortByKey a = sortByKey b := by
  induction h with
  | nil => rfl
  | cons entry _ ih =>
    obtain ⟨-, hrest⟩ := List.nodup_cons.mp hn
    exact congrArg (insertByKey entry) (ih hrest)
  | swap x y rest =>
    obtain ⟨hy, -⟩ := List.nodup_cons.mp hn
    have hne : y.1 ≠ x.1 := fun he => hy (he ▸ List.mem_cons_self)
    exact insertByKey_comm hne (sortByKey rest)
  | trans hab _ ih ih' =>
    have hn' := (hab.map Prod.fst).nodup_iff.mp hn
    exact (ih hn).trans (ih' hn')

theorem sortByKey_map (view : Bytes × α → β) (entries : List (Bytes × α)) :
    sortByKey (entries.map fun entry => (entry.1, view entry)) =
      (sortByKey entries).map fun entry => (entry.1, view entry) := by
  have hinsert (x : Bytes × α) (sorted : List (Bytes × α)) :
      insertByKey (x.1, view x) (sorted.map fun entry => (entry.1, view entry)) =
        (insertByKey x sorted).map fun entry => (entry.1, view entry) := by
    induction sorted with
    | nil => rfl
    | cons head rest ih =>
      simp only [List.map_cons, insertByKey]
      split
      · rw [ih, List.map_cons]
      · rfl
  induction entries with
  | nil => rfl
  | cons head rest ih =>
    rw [List.map_cons, sortByKey, List.foldr_cons, ← sortByKey, ih, hinsert]
    rfl

theorem keys_filterMap_sublist {pick : Bytes × α → Option (Bytes × β)}
    (hk : ∀ entry picked, pick entry = some picked → picked.1 = entry.1)
    (entries : List (Bytes × α)) :
    ((entries.filterMap pick).map Prod.fst).Sublist (entries.map Prod.fst) := by
  induction entries with
  | nil => exact .slnil
  | cons entry rest ih =>
    cases hp : pick entry with
    | none =>
      rw [List.filterMap_cons_none hp]
      exact ih.cons entry.1
    | some picked =>
      rw [List.filterMap_cons_some hp, List.map_cons, List.map_cons, hk entry picked hp]
      exact ih.cons_cons entry.1

end Bytes

/-! ## Layers without repeated keys -/

/-- No layer within has a key twice. -/
inductive Value.Proper : Value → Prop
  | scalar (s : Scalar) : Proper (.scalar s)
  | array (items : List Scalar) : Proper (.array items)
  | nested {layer : Layer} : (layer.map Prod.fst).Nodup → (∀ entry ∈ layer, Proper entry.2) →
    Proper (.nested layer)

structure Layer.Proper (layer : Layer) : Prop where
  nodup : (layer.map Prod.fst).Nodup
  values : ∀ entry ∈ layer, entry.2.Proper

namespace Layer

theorem proper_nested {layer : Layer} : (Value.nested layer).Proper ↔ layer.Proper := by
  constructor
  · rintro (_ | _ | ⟨hn, hv⟩)
    exact ⟨hn, hv⟩
  · rintro ⟨hn, hv⟩
    exact .nested hn hv

theorem proper_empty : Proper [] := ⟨List.nodup_nil, by simp⟩

/-- Setting a key keeps the others where they are. -/
theorem keys_set (key : Bytes) (value : Value) (layer : Layer) :
    (set key value layer).map Prod.fst =
      if key ∈ layer.map Prod.fst then layer.map Prod.fst else layer.map Prod.fst ++ [key] := by
  induction layer with
  | nil => rfl
  | cons entry rest ih =>
    rw [set]
    by_cases he : entry.1 = key
    · simp [he]
    · rw [if_neg he, List.map_cons, ih, List.map_cons]
      by_cases hm : key ∈ rest.map Prod.fst
      · rw [if_pos hm, if_pos (List.mem_cons_of_mem _ hm)]
      · have hm' : key ∉ entry.1 :: rest.map Prod.fst := by
          rintro (_ | ⟨_, h⟩)
          · exact he rfl
          · exact hm h
        rw [if_neg hm, if_neg hm']
        rfl

theorem mem_set {key : Bytes} {value : Value} {layer : Layer} {entry : Bytes × Value}
    (h : entry ∈ set key value layer) : entry = (key, value) ∨ entry ∈ layer := by
  induction layer with
  | nil => exact .inl (List.mem_singleton.mp h)
  | cons first rest ih =>
    rw [set] at h
    split at h
    · rcases List.mem_cons.mp h with rfl | h
      · exact .inl rfl
      · exact .inr (List.mem_cons_of_mem _ h)
    · rcases List.mem_cons.mp h with rfl | h
      · exact .inr List.mem_cons_self
      · exact (ih h).imp id (List.mem_cons_of_mem _)

theorem nodup_set {layer : Layer} (hn : (layer.map Prod.fst).Nodup) (key : Bytes) (value : Value) :
    ((set key value layer).map Prod.fst).Nodup := by
  rw [keys_set]
  split
  · exact hn
  · rename_i hm
    exact List.nodup_append.mpr ⟨hn, by simp, by
      rintro a ha b hb rfl
      exact hm (List.mem_singleton.mp hb ▸ ha)⟩

theorem erase_eq_eraseP (layer : Layer) (key : Bytes) :
    erase layer key = List.eraseP (fun entry => entry.1 == key) layer := by
  rw [erase, remove, List.eraseP_eq_eraseIdx]
  cases List.findIdx? (fun entry => entry.1 == key) layer <;> rfl

theorem erase_sublist (layer : Layer) (key : Bytes) : (erase layer key).Sublist layer :=
  erase_eq_eraseP layer key ▸ List.eraseP_sublist

theorem nodup_erase {layer : Layer} (hn : (layer.map Prod.fst).Nodup) (key : Bytes) :
    ((erase layer key).map Prod.fst).Nodup :=
  ((erase_sublist layer key).map Prod.fst).nodup hn

theorem Proper.set {layer : Layer} (h : layer.Proper) (key : Bytes) {value : Value}
    (hv : value.Proper) : (Layer.set key value layer).Proper := by
  refine ⟨nodup_set h.nodup key value, fun entry he => ?_⟩
  rcases mem_set he with rfl | he
  · exact hv
  · exact h.values entry he

theorem Proper.erase {layer : Layer} (h : layer.Proper) (key : Bytes) :
    (Layer.erase layer key).Proper :=
  ⟨nodup_erase h.nodup key, fun entry he => h.values entry ((erase_sublist layer key).subset he)⟩

/-- What is built by setting keys has no key twice. -/
theorem proper_ofPairs {pairs : List (Bytes × Value)} (h : ∀ pair ∈ pairs, pair.2.Proper) :
    (ofPairs pairs).Proper := by
  have hfold (layer : Layer) (hl : layer.Proper) :
      (pairs.foldl (fun layer pair => Layer.set pair.1 pair.2 layer) layer).Proper := by
    induction pairs generalizing layer with
    | nil => exact hl
    | cons pair rest ih =>
      have hpair := hl.set pair.1 (h pair List.mem_cons_self)
      exact ih (fun p hp => h p (List.mem_cons_of_mem _ hp)) _ hpair
  exact hfold [] proper_empty

end Layer

/-! ## Reorderings -/

mutual

/-- The items of an array keep their order. -/
inductive Value.Reorders : Value → Value → Prop
  | scalar (s : Scalar) : Value.Reorders (.scalar s) (.scalar s)
  | array (items : List Scalar) : Value.Reorders (.array items) (.array items)
  | nested {a b : Layer} : Layer.Reorders a b → Value.Reorders (.nested a) (.nested b)

inductive Layer.Reorders : List (Bytes × Value) → List (Bytes × Value) → Prop
  | nil : Layer.Reorders [] []
  | cons (key : Bytes) {v w : Value} {a b : Layer} : Value.Reorders v w → Layer.Reorders a b →
    Layer.Reorders ((key, v) :: a) ((key, w) :: b)
  | swap (x y : Bytes × Value) (rest : Layer) : Layer.Reorders (x :: y :: rest) (y :: x :: rest)
  | trans {a b c : Layer} : Layer.Reorders a b → Layer.Reorders b c → Layer.Reorders a c

end

mutual

theorem Value.Reorders.refl : ∀ value : Value, Value.Reorders value value
  | .scalar s => .scalar s
  | .array items => .array items
  | .nested layer => .nested (Layer.Reorders.refl layer)

theorem Layer.Reorders.refl : ∀ layer : List (Bytes × Value), Layer.Reorders layer layer
  | [] => .nil
  | (key, value) :: rest => .cons key (Value.Reorders.refl value) (Layer.Reorders.refl rest)

end

/-- Any permutation of the entries of one layer is a reordering. -/
theorem Layer.Reorders.of_perm {a b : Layer} (h : a.Perm b) : Layer.Reorders a b := by
  induction h with
  | nil => exact .nil
  | cons entry _ ih => exact .cons entry.1 (.refl entry.2) ih
  | swap x y rest => exact .swap y x rest
  | trans _ _ hab hbc => exact .trans hab hbc

/-! ## What compilation sees -/

namespace Block

/-- A value as the declarations of its layer see it: they pass over nested layers. -/
def flat : Value → Value
  | .nested _ => .nested []
  | value => value

/-- What an entry contributes to its layer's block. -/
def share (entry : Bytes × Value) : Bytes × (Value × Option Block) :=
  (entry.1, flat entry.2, ofValue? entry.2)

theorem property?_flat (entry : Bytes × Value) :
    property? (entry.1, flat entry.2) = property? entry := by
  obtain ⟨key, value⟩ := entry
  cases value <;> rfl

theorem properties_eq (layer : Layer) : (Layer.parse layer).properties =
    (Bytes.sortByKey (layer.map share)).filterMap fun s => property? (s.1, s.2.1) := by
  have hs : layer.map share =
      layer.map fun entry => (entry.1, (fun e => (flat e.2, ofValue? e.2)) entry) := rfl
  rw [hs, Bytes.sortByKey_map, List.filterMap_map, Layer.parse]
  refine List.filterMap_congr fun entry _ => ?_
  exact (property?_flat entry).symm

theorem ofEntries_eq (layer : Layer) :
    ofEntries layer = (layer.map share).filterMap fun s => s.2.2.map fun block => (s.1, block) := by
  induction layer with
  | nil => rfl
  | cons entry rest ih =>
    obtain ⟨key, value⟩ := entry
    rw [ofEntries, List.map_cons, List.filterMap_cons, share]
    cases ofValue? value with
    | none => simpa using ih
    | some block => simpa using ih

end Block

theorem Layer.map_share_fst (layer : Layer) :
    (layer.map Block.share).map Prod.fst = layer.map Prod.fst := by
  rw [List.map_map]
  rfl

/-- Layers whose entries contribute the same, in any order, compile to one block. -/
theorem Layer.compile_eq_of_perm {a b : Layer} (hn : (a.map Prod.fst).Nodup)
    (h : (a.map Block.share).Perm (b.map Block.share)) : a.compile = b.compile := by
  have hkeys : ((a.map Block.share).map Prod.fst).Nodup := by rwa [map_share_fst]
  have hproperties : (Layer.parse a).properties = (Layer.parse b).properties := by
    rw [Block.properties_eq, Block.properties_eq, Bytes.sortByKey_eq_of_perm h hkeys]
  have hblocks : Bytes.sortByKey (Block.ofEntries a) = Bytes.sortByKey (Block.ofEntries b) := by
    rw [Block.ofEntries_eq, Block.ofEntries_eq]
    refine Bytes.sortByKey_eq_of_perm (h.filterMap _) ?_
    refine (Bytes.keys_filterMap_sublist (fun share picked hp => ?_) _).nodup hkeys
    obtain ⟨block, -, rfl⟩ := Option.map_eq_some_iff.mp hp
    rfl
  rw [compile, compile, hproperties, Block.arrange, hblocks, Block.arrange]

/-! ## Compilation undoes reorderings -/

mutual

theorem Value.Reorders.share_eq {v w : Value} (h : Value.Reorders v w) (hv : v.Proper) :
    w.Proper ∧ Block.flat v = Block.flat w ∧ Block.ofValue? v = Block.ofValue? w :=
  match h with
  | .scalar s => ⟨hv, rfl, rfl⟩
  | .array items => ⟨hv, rfl, rfl⟩
  | .nested hab => by
    have hp := Layer.proper_nested.mp hv
    obtain ⟨hvalues, hperm⟩ := Layer.Reorders.perm_share hab hp.values
    have hkeys := hperm.map Prod.fst
    rw [Layer.map_share_fst, Layer.map_share_fst] at hkeys
    refine ⟨.nested (hkeys.nodup_iff.mp hp.nodup) hvalues, rfl, ?_⟩
    exact congrArg some (Layer.compile_eq_of_perm hp.nodup hperm)

theorem Layer.Reorders.perm_share {a b : List (Bytes × Value)} (h : Layer.Reorders a b)
    (ha : ∀ entry ∈ a, entry.2.Proper) :
    (∀ entry ∈ b, entry.2.Proper) ∧ (a.map Block.share).Perm (b.map Block.share) :=
  match h with
  | .nil => ⟨ha, .nil⟩
  | .cons key hvw hab => by
    obtain ⟨hw, hflat, hblock⟩ := Value.Reorders.share_eq hvw (ha _ List.mem_cons_self)
    obtain ⟨hb, hperm⟩ := Layer.Reorders.perm_share hab fun e he => ha e (List.mem_cons_of_mem _ he)
    refine ⟨fun entry he => ?_, ?_⟩
    · rcases List.mem_cons.mp he with rfl | he
      · exact hw
      · exact hb entry he
    · rw [List.map_cons, List.map_cons, Block.share, Block.share, hflat, hblock]
      exact hperm.cons _
  | .swap x y rest => by
    refine ⟨fun entry he => ha entry ?_, .swap _ _ _⟩
    exact (List.Perm.swap x y rest).mem_iff.mp he
  | .trans hab hbc => by
    obtain ⟨hb, hperm⟩ := Layer.Reorders.perm_share hab ha
    obtain ⟨hc, hperm'⟩ := Layer.Reorders.perm_share hbc hb
    exact ⟨hc, hperm.trans hperm'⟩

end

namespace Layer.Reorders

variable {a b : Layer}

theorem compile_eq (h : Layer.Reorders a b) (ha : a.Proper) : b.compile = a.compile :=
  (compile_eq_of_perm ha.nodup (h.perm_share ha.values).2).symm

end Layer.Reorders
end StyleRegistry
