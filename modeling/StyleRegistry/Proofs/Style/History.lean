import StyleRegistry.Proofs.Style.Splitting

/-! # What a layer remembers

A layer is a list, and what it holds is told by the edits that made it. A key has
the value that the last edit about it set, and none if that edit erased it. It
stands where it was put when it last became present: setting it again leaves it
there, and only erasing it makes it lose its place. Keys being distinct, this is
all there is to say: no other layer fits the same edits. -/
namespace StyleRegistry.Layer

/-! ## What edits did to a key -/

def Edit.key : Edit → Bytes
  | .set key _ => key
  | .erase key => key

/-- The last edit about the key set this value. -/
def LastSet (edits : List Edit) (key : Bytes) (value : Value) : Prop :=
  ∃ before after, edits = before ++ .set key value :: after ∧ ∀ edit ∈ after, edit.key ≠ key

/-- The key was set, and was not erased after that. -/
def Present (edits : List Edit) (key : Bytes) : Prop := ∃ value, LastSet edits key value

/-- So many edits were made when the key became present for the last time: it was
absent, the next edit set it, and none after that erased it. -/
def Appeared (edits : List Edit) (key : Bytes) (time : Nat) : Prop :=
  ∃ before value after, edits = before ++ .set key value :: after ∧ before.length = time ∧
    ¬ Present before key ∧ .erase key ∉ after

/-- The first key became present before the second, each for the last time. -/
def Earlier (edits : List Edit) (first second : Bytes) : Prop :=
  ∀ s t, Appeared edits first s → Appeared edits second t → s < t

/-- What a layer is after these edits. -/
structure Chronicle (edits : List Edit) (layer : Layer) : Prop where
  distinct : (layer.map Prod.fst).Nodup
  found : ∀ key value, layer.find? key = some value ↔ LastSet edits key value
  answered : ∀ key, (layer.remove key).2 = true ↔ Present edits key
  since : ∀ key ∈ layer.map Prod.fst, ∃! time, Appeared edits key time
  ordered : (layer.map Prod.fst).Pairwise (Earlier edits)

section Edits

variable {edits : List Edit} {edit : Edit} {key : Bytes} {value : Value} {time : Nat}

/-! ## One more edit -/

/-- An edit among edits is the last one or stands before it. -/
theorem concat_eq_split {before after : List Edit} {last : Edit} :
    edits ++ [last] = before ++ edit :: after ↔
      (edits = before ∧ last = edit ∧ after = []) ∨
        ∃ rest, edits = before ++ edit :: rest ∧ after = rest ++ [last] := by
  constructor
  · intro he
    rcases List.eq_nil_or_concat after with rfl | ⟨rest, b, rfl⟩
    · obtain ⟨hbefore, hlast⟩ := List.append_singleton_inj.mp he
      exact .inl ⟨hbefore, hlast, rfl⟩
    · rw [List.concat_eq_append, ← List.cons_append, ← List.append_assoc] at he
      obtain ⟨hbefore, rfl⟩ := List.append_singleton_inj.mp he
      exact .inr ⟨rest, hbefore, List.concat_eq_append⟩
  · rintro (⟨rfl, rfl, rfl⟩ | ⟨rest, rfl, rfl⟩)
    · rfl
    · simp

theorem lastSet_concat : LastSet (edits ++ [edit]) key value ↔
    edit = .set key value ∨ edit.key ≠ key ∧ LastSet edits key value := by
  constructor
  · rintro ⟨before, after, he, hafter⟩
    rcases concat_eq_split.mp he with ⟨-, hlast, -⟩ | ⟨rest, hedits, rfl⟩
    · exact .inl hlast
    · refine .inr ⟨hafter edit List.mem_concat_self, before, rest, hedits, fun other hm => ?_⟩
      exact hafter other (List.mem_append_left _ hm)
  · rintro (rfl | ⟨hne, before, after, rfl, hafter⟩)
    · exact ⟨edits, [], rfl, fun _ hm => absurd hm List.not_mem_nil⟩
    · refine ⟨before, after ++ [edit], by simp, fun other hm => ?_⟩
      rcases List.mem_append.mp hm with hm | hm
      · exact hafter other hm
      · rwa [List.mem_singleton.mp hm]

theorem present_concat_set : Present (edits ++ [.set key value]) key :=
  ⟨value, lastSet_concat.mpr (.inl rfl)⟩

theorem present_concat_erase : ¬ Present (edits ++ [.erase key]) key := by
  rintro ⟨value, h⟩
  rcases lastSet_concat.mp h with he | ⟨hne, -⟩
  · cases he
  · exact hne rfl

theorem present_concat_of_ne (h : edit.key ≠ key) :
    Present (edits ++ [edit]) key ↔ Present edits key := by
  refine exists_congr fun value => lastSet_concat.trans ⟨?_, fun hl => .inr ⟨h, hl⟩⟩
  rintro (rfl | ⟨-, hl⟩)
  · exact absurd rfl h
  · exact hl

theorem appeared_concat : Appeared (edits ++ [edit]) key time ↔
    (edit ≠ .erase key ∧ Appeared edits key time) ∨
      (time = edits.length ∧ ¬ Present edits key ∧ ∃ value, edit = .set key value) := by
  constructor
  · rintro ⟨before, value, after, he, htime, habsent, hafter⟩
    rcases concat_eq_split.mp he with ⟨rfl, hlast, -⟩ | ⟨rest, hedits, rfl⟩
    · exact .inr ⟨htime.symm, habsent, value, hlast⟩
    · refine .inl ⟨?_, before, value, rest, hedits, htime, habsent, fun hm => ?_⟩
      · rintro rfl
        exact hafter List.mem_concat_self
      · exact hafter (List.mem_append_left _ hm)
  · rintro (⟨hne, before, value, after, rfl, htime, habsent, hafter⟩ | ⟨rfl, habsent, value, rfl⟩)
    · refine ⟨before, value, after ++ [edit], by simp, htime, habsent, fun hm => ?_⟩
      rcases List.mem_append.mp hm with hm | hm
      · exact hafter hm
      · exact hne (List.mem_singleton.mp hm).symm
    · exact ⟨edits, value, [], rfl, rfl, habsent, List.not_mem_nil⟩

/-- Only a key that is absent can become present. -/
theorem Appeared.of_concat (hp : Present edits key) (h : Appeared (edits ++ [edit]) key time) :
    Appeared edits key time := by
  rcases appeared_concat.mp h with ⟨-, hbefore⟩ | ⟨-, habsent, -⟩
  · exact hbefore
  · exact absurd hp habsent

theorem Earlier.concat {first second : Bytes} (h : Earlier edits first second)
    (hf : Present edits first) (hs : Present edits second) :
    Earlier (edits ++ [edit]) first second := by
  intro s t hfirst hsecond
  exact h s t (hfirst.of_concat hf) (hsecond.of_concat hs)

/-! ## When a key became present -/

theorem Appeared.lt_length (h : Appeared edits key time) : time < edits.length := by
  obtain ⟨before, value, after, rfl, rfl, -, -⟩ := h
  simp

theorem Appeared.present (h : Appeared edits key time) : Present edits key := by
  induction edits using List.reverseRecOn with
  | nil => exact absurd h.lt_length (Nat.not_lt_zero _)
  | append_singleton edits edit ih =>
    rcases appeared_concat.mp h with ⟨hne, hbefore⟩ | ⟨-, -, value, rfl⟩
    · by_cases hkey : edit.key = key
      · cases edit with
        | set other value =>
          obtain rfl : other = key := hkey
          exact present_concat_set
        | erase other =>
          obtain rfl : other = key := hkey
          exact absurd rfl hne
      · exact (present_concat_of_ne hkey).mpr (ih hbefore)
    · exact present_concat_set

theorem Appeared.unique {other : Nat} (h : Appeared edits key time)
    (ho : Appeared edits key other) : time = other := by
  induction edits using List.reverseRecOn with
  | nil => exact absurd h.lt_length (Nat.not_lt_zero _)
  | append_singleton edits edit ih =>
    rcases appeared_concat.mp h with ⟨-, hbefore⟩ | ⟨htime, habsent, -⟩
    · rcases appeared_concat.mp ho with ⟨-, hobefore⟩ | ⟨-, habsent, -⟩
      · exact ih hbefore hobefore
      · exact absurd hbefore.present habsent
    · rcases appeared_concat.mp ho with ⟨-, hobefore⟩ | ⟨hother, -, -⟩
      · exact absurd hobefore.present habsent
      · exact htime.trans hother.symm

theorem Present.exists_appeared (h : Present edits key) : ∃ time, Appeared edits key time := by
  induction edits using List.reverseRecOn with
  | nil =>
    obtain ⟨value, before, after, he, -⟩ := h
    simp at he
  | append_singleton edits edit ih =>
    by_cases hbefore : Present edits key
    · obtain ⟨time, htime⟩ := ih hbefore
      refine ⟨time, appeared_concat.mpr (.inl ⟨?_, htime⟩)⟩
      rintro rfl
      exact present_concat_erase h
    · obtain ⟨value, hl⟩ := h
      rcases lastSet_concat.mp hl with he | ⟨-, hl⟩
      · exact ⟨edits.length, appeared_concat.mpr (.inr ⟨rfl, hbefore, value, he⟩)⟩
      · exact absurd ⟨value, hl⟩ hbefore

theorem Present.existsUnique_appeared (h : Present edits key) :
    ∃! time, Appeared edits key time := by
  obtain ⟨time, htime⟩ := h.exists_appeared
  exact ⟨time, htime, fun other ho => ho.unique htime⟩

end Edits

/-! ## Looking up -/

section Lookup

variable {layer : Layer} {key other : Bytes} {value : Value}

theorem find?_cons (entry : Bytes × Value) (rest : Layer) (key : Bytes) :
    find? (entry :: rest) key = if entry.1 = key then some entry.2 else find? rest key := by
  by_cases h : entry.1 = key
  · simp [find?, h]
  · simp [find?, h]

theorem find?_set (layer : Layer) (key other : Bytes) (value : Value) :
    find? (set key value layer) other = if key = other then some value else find? layer other := by
  induction layer with
  | nil => exact find?_cons (key, value) [] other
  | cons entry rest ih =>
    rw [set, find?_cons]
    by_cases he : entry.1 = key
    · rw [if_pos he, find?_cons, he]
      split
      · rfl
      · rfl
    · rw [if_neg he, find?_cons, ih]
      by_cases ho : entry.1 = other
      · rw [if_pos ho, if_pos ho, if_neg fun hk => he (ho.trans hk.symm)]
      · rw [if_neg ho, if_neg ho]

/-- No key stands twice, so what is erased is all there is of a key. -/
theorem erase_eq_filter (hn : (layer.map Prod.fst).Nodup) (key : Bytes) :
    erase layer key = layer.filter fun entry => entry.1 != key := by
  induction layer with
  | nil => rfl
  | cons entry rest ih =>
    obtain ⟨hfresh, hrest⟩ := List.nodup_cons.mp hn
    rw [erase_eq_eraseP, List.eraseP_cons, ← erase_eq_eraseP, ih hrest]
    by_cases he : entry.1 = key
    · have hothers : ∀ e ∈ rest, (e.1 != key) = true := by
        intro e hm
        rw [bne_iff_ne]
        rintro rfl
        exact hfresh (he ▸ List.mem_map_of_mem hm)
      rw [he, beq_self_eq_true, cond_true, List.filter_cons, he, bne_self_eq_false,
        if_neg Bool.false_ne_true, List.filter_eq_self.mpr hothers]
    · rw [beq_eq_false_iff_ne.mpr he, cond_false, List.filter_cons, if_pos (bne_iff_ne.mpr he)]

theorem keys_erase (hn : (layer.map Prod.fst).Nodup) (key : Bytes) :
    (erase layer key).map Prod.fst = (layer.map Prod.fst).filter (· != key) := by
  rw [erase_eq_filter hn, List.filter_map]
  rfl

theorem mem_keys_iff : key ∈ layer.map Prod.fst ↔ ∃ value, find? layer key = some value := by
  induction layer with
  | nil => simp [find?]
  | cons entry rest ih =>
    rw [List.map_cons, List.mem_cons, ih, find?_cons]
    by_cases he : entry.1 = key
    · simp [he]
    · simp [he, Ne.symm he]

theorem contains_iff : contains layer key = true ↔ key ∈ layer.map Prod.fst := by
  have hany : contains layer key = List.any layer fun entry => entry.1 == key := by
    rw [contains, remove, ← List.findIdx?_isSome]
    cases List.findIdx? (fun entry => entry.1 == key) layer <;> rfl
  simp [hany]

theorem find?_erase (hn : (layer.map Prod.fst).Nodup) (key other : Bytes) :
    find? (erase layer key) other = if key = other then none else find? layer other := by
  rw [erase_eq_filter hn, find?, List.find?_filter]
  split
  · rename_i h
    obtain rfl := h
    rw [Option.map_eq_none_iff, List.find?_eq_none]
    intro entry _ hboth
    obtain ⟨hne, he⟩ := of_decide_eq_true hboth
    exact bne_iff_ne.mp hne (beq_iff_eq.mp he)
  · rename_i h
    have hsame : (fun entry : Bytes × Value => decide ((entry.1 != key) = true ∧
        (entry.1 == other) = true)) = fun entry => entry.1 == other := by
      funext entry
      by_cases he : entry.1 = other
      · simp [he, Ne.symm h]
      · simp [he]
    rw [hsame, ← find?]

/-- Keys in order, and what each of them has, are the whole layer. -/
theorem eq_of_lookup {other : Layer} (hn : (layer.map Prod.fst).Nodup)
    (hk : layer.map Prod.fst = other.map Prod.fst)
    (hf : ∀ key, find? layer key = find? other key) : layer = other := by
  induction layer generalizing other with
  | nil => exact (List.map_eq_nil_iff.mp hk.symm).symm
  | cons entry rest ih =>
    obtain ⟨hfresh, hrest⟩ := List.nodup_cons.mp hn
    obtain ⟨first, others, rfl, hfirst, hothers⟩ := List.map_eq_cons_iff.mp hk.symm
    have hvalue := hf entry.1
    rw [find?_cons, find?_cons, if_pos rfl, if_pos hfirst] at hvalue
    have hentry : entry = first := Prod.ext hfirst.symm (Option.some.inj hvalue)
    refine congrArg₂ List.cons hentry (ih hrest hothers.symm fun key => ?_)
    by_cases hkey : entry.1 = key
    · -- The first key has no second place in either layer.
      have hnone (l : Layer) (hl : l.map Prod.fst = rest.map Prod.fst) : find? l key = none := by
        rw [Option.eq_none_iff_forall_ne_some]
        intro value hv
        have hmem : key ∈ l.map Prod.fst := mem_keys_iff.mpr ⟨value, hv⟩
        exact hfresh (hkey ▸ hl ▸ hmem)
      rw [hnone rest rfl, hnone others hothers]
    · have hkeys := hf key
      rwa [find?_cons, find?_cons, if_neg hkey, if_neg (hfirst ▸ hkey)] at hkeys

end Lookup

/-! ## Layers that were built up -/

theorem built_concat (edits : List Edit) (edit : Edit) :
    built (edits ++ [edit]) = (built edits).edited edit := List.foldl_concat ..

theorem find?_built (edits : List Edit) (key : Bytes) (value : Value) :
    find? (built edits) key = some value ↔ LastSet edits key value := by
  induction edits using List.reverseRecOn with
  | nil =>
    refine iff_of_false (by simp [built, find?]) ?_
    rintro ⟨before, after, he, -⟩
    simp at he
  | append_singleton edits edit ih =>
    rw [built_concat, lastSet_concat]
    cases edit with
    | set other v =>
      rw [edited, find?_set]
      by_cases hkey : other = key
      · simp [hkey, Edit.key]
      · simp [hkey, Edit.key, ih]
    | erase other =>
      rw [edited, find?_erase (nodup_built edits)]
      by_cases hkey : other = key
      · simp [hkey, Edit.key]
      · simp [hkey, Edit.key, ih]

theorem mem_built_iff {edits : List Edit} {key : Bytes} :
    key ∈ (built edits).map Prod.fst ↔ Present edits key :=
  mem_keys_iff.trans (exists_congr fun value => find?_built edits key value)

theorem ordered_built (edits : List Edit) :
    ((built edits).map Prod.fst).Pairwise (Earlier edits) := by
  induction edits using List.reverseRecOn with
  | nil => exact List.Pairwise.nil
  | append_singleton edits edit ih =>
    have hkept : ((built edits).map Prod.fst).Pairwise (Earlier (edits ++ [edit])) := by
      refine ih.imp_of_mem fun hfirst hsecond hearlier => ?_
      exact hearlier.concat (mem_built_iff.mp hfirst) (mem_built_iff.mp hsecond)
    rw [built_concat]
    cases edit with
    | set key value =>
      rw [edited, keys_set]
      split
      · exact hkept
      · rename_i hnew
        refine List.pairwise_append.mpr ⟨hkept, List.pairwise_singleton _ _, ?_⟩
        intro first hfirst second hsecond s t hs ht
        obtain rfl := List.mem_singleton.mp hsecond
        have hold := hs.of_concat (mem_built_iff.mp hfirst)
        rcases appeared_concat.mp ht with ⟨-, hbefore⟩ | ⟨htime, -, -⟩
        · exact absurd (mem_built_iff.mpr hbefore.present) hnew
        · rw [htime]
          exact hold.lt_length
    | erase key =>
      rw [edited, keys_erase (nodup_built edits)]
      exact hkept.filter _

theorem chronicle_built (edits : List Edit) : Chronicle edits (built edits) where
  distinct := nodup_built edits
  found := find?_built edits
  answered _ := contains_iff.trans mem_built_iff
  since _ hm := (mem_built_iff.mp hm).existsUnique_appeared
  ordered := ordered_built edits

/-- Two layers with one chronicle have the same keys, in the same order. -/
theorem Chronicle.keys_eq {edits : List Edit} {layer other : Layer} (h : Chronicle edits layer)
    (ho : Chronicle edits other) : layer.map Prod.fst = other.map Prod.fst := by
  have hmem (key : Bytes) : key ∈ layer.map Prod.fst ↔ key ∈ other.map Prod.fst := by
    exact contains_iff.symm.trans ((h.answered key).trans
      ((ho.answered key).symm.trans contains_iff))
  have hperm := (List.perm_ext_iff_of_nodup h.distinct ho.distinct).mpr hmem
  refine hperm.eq_of_pairwise ?_ h.ordered ho.ordered
  intro first second hfirst hsecond hbefore hafter
  obtain ⟨s, hs, -⟩ := h.since first hfirst
  obtain ⟨t, ht, -⟩ := ho.since second hsecond
  exact absurd (hbefore s t hs ht) (Nat.lt_asymm (hafter t s ht hs))

theorem Chronicle.eq_built {edits : List Edit} {layer : Layer} (h : Chronicle edits layer) :
    layer = built edits := by
  have hbuilt := chronicle_built edits
  refine eq_of_lookup h.distinct (h.keys_eq hbuilt) fun key => Option.ext fun value => ?_
  rw [h.found, hbuilt.found]

/-- **A layer is told by its edits.** What an empty layer becomes by any edits is
the one layer whose keys are distinct, in which each key has the value that was
set last and not erased since, and whose keys stand in the order in which they
last became present. Whether a key is there is what removing it answers. Setting
a key that is there moves none; setting another puts it behind the rest. -/
theorem eq_built_iff (edits : List Edit) :
    (∀ layer, layer = built edits ↔ Chronicle edits layer) ∧
    ∀ key value, (built (edits ++ [.set key value])).map Prod.fst =
      if (built edits).contains key then (built edits).map Prod.fst
      else (built edits).map Prod.fst ++ [key] := by
  refine ⟨fun layer => ⟨?_, Chronicle.eq_built⟩, fun key value => ?_⟩
  · rintro rfl
    exact chronicle_built edits
  · rw [built_concat, edited, keys_set]
    simp only [contains_iff]

/-- A key that is erased and set again loses its place. -/
example (old new other : Value) :
    (built [.set [97] old, .set [98] other, .erase [97], .set [97] new]).map Prod.fst =
      [[98], [97]] := rfl

end StyleRegistry.Layer
