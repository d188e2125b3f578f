import Mathlib.Data.List.Nodup
import StyleRegistry.Cache.Subscribers

/-! # Subscribers that come and go

Subscribers stand in the order of their ids, whoever joins and leaves. A round
calls them by their place in the list, which is read anew each time: who joins
during the round stands at the end and is called in it, and who leaves makes
those behind it move up. If the one who leaves has had its turn, the one who
was next in line moves to a place that the round has left behind, and is passed
over. This is the only way to miss a turn, and nobody is called twice. -/
namespace StyleRegistry.Subscribers

variable {α : Type} {subscribers : Subscribers α}

/-! ## Who is there -/

def ids (subscribers : Subscribers α) : List Nat := subscribers.present.map (·.1)

@[simp] theorem ids_empty : (empty : Subscribers α).ids = [] := rfl

@[simp] theorem ids_add (subscribers : Subscribers α) (subscriber : α) :
    (subscribers.add subscriber).ids = subscribers.ids ++ [subscribers.issued + 1] :=
  List.map_append

@[simp] theorem issued_add (subscribers : Subscribers α) (subscriber : α) :
    (subscribers.add subscriber).issued = subscribers.issued + 1 := rfl

@[simp] theorem ids_remove (subscribers : Subscribers α) (id : Nat) :
    (subscribers.remove id).ids = subscribers.ids.erase id := by
  have hgone : (fun subscriber : Nat × α => subscriber.1 == id) = (id == ·) ∘ (·.1) :=
    funext fun _ => Bool.beq_comm
  rw [ids, ids, List.erase_eq_eraseP, List.eraseP_map, ← hgone]
  rfl

@[simp] theorem issued_remove (subscribers : Subscribers α) (id : Nat) :
    (subscribers.remove id).issued = subscribers.issued := rfl

@[simp] theorem ids_set (subscribers : Subscribers α) (index : Nat) (subscriber : α) :
    (subscribers.set index subscriber).ids = subscribers.ids := by
  refine List.ext_getElem? fun i => ?_
  simp only [ids, set, List.getElem?_map, List.getElem?_modify]
  split <;> simp [Option.map_map, Function.comp_def]

@[simp] theorem issued_set (subscribers : Subscribers α) (index : Nat) (subscriber : α) :
    (subscribers.set index subscriber).issued = subscribers.issued := rfl

theorem contains_iff {id : Nat} : subscribers.contains id = true ↔ id ∈ subscribers.ids := by
  simp [contains, ids]

/-- Ids stand in order, and none is there that was not issued. -/
structure Sound (subscribers : Subscribers α) : Prop where
  ascending : subscribers.ids.Pairwise (· < ·)
  issued : ∀ id ∈ subscribers.ids, id ≤ subscribers.issued

theorem sound_empty : Sound (empty : Subscribers α) := ⟨.nil, by simp⟩

namespace Sound

/-- Only the ids matter. -/
theorem of_ids {after : Subscribers α} (h : subscribers.Sound) (hids : after.ids = subscribers.ids)
    (hissued : after.issued = subscribers.issued) : after.Sound := by
  refine ⟨hids ▸ h.ascending, ?_⟩
  rw [hids, hissued]
  exact h.issued

theorem add (h : subscribers.Sound) (subscriber : α) : (subscribers.add subscriber).Sound := by
  constructor
  · rw [ids_add, List.pairwise_append]
    refine ⟨h.ascending, List.pairwise_singleton _ _, fun id hid last hlast => ?_⟩
    rw [List.mem_singleton.mp hlast]
    exact Nat.lt_succ_of_le (h.issued id hid)
  · intro id hid
    rw [ids_add, List.mem_append, List.mem_singleton] at hid
    rcases hid with hid | rfl
    · exact Nat.le_succ_of_le (h.issued id hid)
    · exact Nat.le_refl _

theorem remove (h : subscribers.Sound) (id : Nat) : (subscribers.remove id).Sound := by
  constructor
  · rw [ids_remove]
    exact h.ascending.sublist List.erase_sublist
  · intro other hother
    rw [ids_remove] at hother
    exact h.issued other (List.mem_of_mem_erase hother)

theorem set (h : subscribers.Sound) (index : Nat) (subscriber : α) :
    (subscribers.set index subscriber).Sound := h.of_ids (ids_set ..) (issued_set ..)

theorem nodup (h : subscribers.Sound) : subscribers.ids.Nodup := h.ascending.imp Nat.ne_of_lt

theorem lt_of_getElem? (h : subscribers.Sound) {i j a b : Nat} (hij : i < j)
    (ha : subscribers.ids[i]? = some a) (hb : subscribers.ids[j]? = some b) : a < b := by
  obtain ⟨hi, rfl⟩ := List.getElem?_eq_some_iff.mp ha
  obtain ⟨hj, rfl⟩ := List.getElem?_eq_some_iff.mp hb
  exact List.pairwise_iff_getElem.mp h.ascending i j hi hj hij

end Sound

/-- Whoever leaves, all others stay. -/
theorem Sound.present_remove (h : subscribers.Sound) (id : Nat) : (subscribers.remove id).present =
    subscribers.present.filter fun subscriber => subscriber.1 != id := by
  have hn := h.nodup
  unfold ids at hn
  rw [Subscribers.remove]
  generalize subscribers.present = present at hn
  induction present with
  | nil => rfl
  | cons first rest ih =>
    obtain ⟨hfirst, hrest⟩ := List.nodup_cons.mp hn
    by_cases he : first.1 = id
    · have hothers : ∀ subscriber ∈ rest, (subscriber.1 != id) = true := by
        intro subscriber hm
        rw [bne_iff_ne, ← he]
        exact fun heq => hfirst (List.mem_map.mpr ⟨subscriber, hm, heq⟩)
      rw [List.eraseP_cons_of_pos (by simpa using he), List.filter_cons_of_neg (by simpa using he),
        List.filter_eq_self.mpr hothers]
    · rw [List.eraseP_cons_of_neg (by simpa using he), List.filter_cons_of_pos (by simpa using he)]
      exact congrArg _ (ih hrest)

/-! ## What holds of everyone -/

def All (subscribers : Subscribers α) (property : α → Prop) : Prop :=
  ∀ subscriber ∈ subscribers.present, property subscriber.2

namespace All

variable {property : α → Prop}

theorem of_get? (h : subscribers.All property) {index : Nat} {subscriber : α}
    (hget : subscribers.get? index = some subscriber) : property subscriber := by
  obtain ⟨pair, hp, rfl⟩ := Option.map_eq_some_iff.mp hget
  exact h pair (List.mem_of_getElem? hp)

theorem add (h : subscribers.All property) {subscriber : α} (hs : property subscriber) :
    (subscribers.add subscriber).All property :=
  List.forall_mem_append.mpr ⟨h, List.forall_mem_singleton.mpr hs⟩

theorem remove (h : subscribers.All property) (id : Nat) : (subscribers.remove id).All property :=
  fun subscriber hm => h subscriber (List.eraseP_sublist.subset hm)

theorem set (h : subscribers.All property) (index : Nat) {subscriber : α}
    (hs : property subscriber) : (subscribers.set index subscriber).All property := by
  intro pair hm
  obtain ⟨i, hi⟩ := List.getElem?_of_mem hm
  rw [Subscribers.set, List.getElem?_modify] at hi
  obtain ⟨before, hb, rfl⟩ := Option.map_eq_some_iff.mp hi
  split
  · exact hs
  · exact h before (List.mem_of_getElem? hb)

end All

/-! ## What others see of them -/

def map {β : Type} (view : α → β) (subscribers : Subscribers α) : Subscribers β :=
  ⟨subscribers.issued, subscribers.present.map fun subscriber =>
    (subscriber.1, view subscriber.2)⟩

section Map

variable {β : Type} (view : α → β)

theorem map_add (subscribers : Subscribers α) (subscriber : α) :
    (subscribers.add subscriber).map view = (subscribers.map view).add (view subscriber) := by
  simp [map, add]

theorem map_remove (subscribers : Subscribers α) (id : Nat) :
    (subscribers.remove id).map view = (subscribers.map view).remove id := by
  simp only [map, remove, List.eraseP_map]
  rfl

theorem map_set {index : Nat} {old subscriber : α} (h : subscribers.get? index = some old)
    (hv : view subscriber = view old) :
    (subscribers.set index subscriber).map view = subscribers.map view := by
  unfold get? at h
  obtain ⟨⟨id, found⟩, hf, rfl⟩ := Option.map_eq_some_iff.mp h
  simp only [map, set, mk.injEq, true_and]
  refine List.ext_getElem? fun i => ?_
  rw [List.getElem?_map, List.getElem?_map, List.getElem?_modify]
  split
  · rename_i hi
    obtain rfl := hi
    simp [hf, hv]
  · simp

end Map

/-! ## A round -/

/-- Who is passed over if this one leaves before the turn at `next`: the one
whose turn it was, if the one who leaves stands before it. -/
def passedOver (subscribers : Subscribers α) (id next : Nat) : Option Nat :=
  if subscribers.ids.idxOf id < next then subscribers.ids[next]? else none

/-- A round that began with these and is at the turn `next`: those before it
that were there at the start have been called, or else they were passed over,
and those from it on come after all of these. -/
structure Round (before : List Nat) (subscribers : Subscribers α) (next : Nat)
    (calls missed : List Nat) : Prop where
  issued : ∀ id ∈ before ++ calls ++ missed, id ≤ subscribers.issued
  ascending : calls.Pairwise (· < ·)
  done : ∀ i id, i < next → subscribers.ids[i]? = some id → id ∈ before →
    (id ∈ calls ↔ id ∉ missed)
  ahead : ∀ i id, next ≤ i → subscribers.ids[i]? = some id → ∀ past ∈ calls ++ missed, past < id

namespace Round

variable {before calls missed : List Nat} {next : Nat}

theorem start (h : subscribers.Sound) : Round subscribers.ids subscribers 0 [] [] where
  issued id hid := h.issued id (by simpa using hid)
  ascending := .nil
  done i id hi _ _ := absurd hi (Nat.not_lt_zero i)
  ahead _ _ _ _ past hpast := absurd hpast List.not_mem_nil

theorem of_ids {after : Subscribers α} (h : Round before subscribers next calls missed)
    (hids : after.ids = subscribers.ids) (hissued : after.issued = subscribers.issued) :
    Round before after next calls missed := by
  refine ⟨?_, h.ascending, ?_, ?_⟩
  · rw [hissued]
    exact h.issued
  · rw [hids]
    exact h.done
  · rw [hids]
    exact h.ahead

/-- The one whose turn it is comes after all that were called, and before all
that are ahead of it. -/
theorem visit (h : Round before subscribers next calls missed) (hsound : subscribers.Sound)
    {id : Nat} (hid : subscribers.ids[next]? = some id) :
    Round before subscribers (next + 1) (calls ++ [id]) missed := by
  have hpast := h.ahead next id (Nat.le_refl _) hid
  refine ⟨fun other hother => ?_, ?_, fun i other hi hother hbefore => ?_,
    fun i other hi hother past hp => ?_⟩
  · by_cases he : other = id
    · rw [he]
      exact hsound.issued id (List.mem_of_getElem? hid)
    · refine h.issued other ?_
      simpa [he] using hother
  · rw [List.pairwise_append]
    refine ⟨h.ascending, List.pairwise_singleton _ _, fun past hp last hlast => ?_⟩
    rw [List.mem_singleton.mp hlast]
    exact hpast past (List.mem_append_left _ hp)
  · rcases Nat.lt_succ_iff_lt_or_eq.mp hi with hlt | rfl
    · have hne : other ≠ id := Nat.ne_of_lt (hsound.lt_of_getElem? hlt hother hid)
      have hdone := h.done i other hlt hother hbefore
      simpa [hne] using hdone
    · obtain rfl : id = other := Option.some.inj (hid.symm.trans hother)
      have hmissed : id ∉ missed := fun hm =>
        Nat.lt_irrefl id (hpast id (List.mem_append_right _ hm))
      simpa using hmissed
  · rw [List.mem_append, List.mem_append, List.mem_singleton] at hp
    have hlt := hsound.lt_of_getElem? hi hid hother
    rcases hp with (hp | rfl) | hp
    · exact Nat.lt_trans (hpast past (List.mem_append_left _ hp)) hlt
    · exact hlt
    · exact Nat.lt_trans (hpast past (List.mem_append_right _ hp)) hlt

/-- Who joins has a new id and stands behind all others. -/
theorem add (h : Round before subscribers next calls missed) (subscriber : α) :
    Round before (subscribers.add subscriber) next calls missed := by
  have hmem {i id : Nat} (hid : (subscribers.add subscriber).ids[i]? = some id) :
      subscribers.ids[i]? = some id ∨ id = subscribers.issued + 1 := by
    rw [ids_add, List.getElem?_append] at hid
    split at hid
    · exact .inl hid
    · exact .inr (List.mem_singleton.mp (List.mem_of_getElem? hid))
  refine ⟨fun id hid => Nat.le_succ_of_le (h.issued id hid), h.ascending,
    fun i id hi hid hbefore => ?_, fun i id hi hid past hpast => ?_⟩
  · rcases hmem hid with hid | rfl
    · exact h.done i id hi hid hbefore
    · have hle := h.issued (subscribers.issued + 1) (by simp [hbefore])
      exact absurd hle (Nat.not_succ_le_self _)
  · rcases hmem hid with hid | rfl
    · exact h.ahead i id hi hid past hpast
    · refine Nat.lt_succ_of_le (h.issued past ?_)
      rw [List.append_assoc]
      exact List.mem_append_right _ hpast

theorem ids_remove_getElem? (subscribers : Subscribers α) (gone i : Nat) :
    (subscribers.remove gone).ids[i]? =
      if i < subscribers.ids.idxOf gone then subscribers.ids[i]? else subscribers.ids[i + 1]? := by
  rw [ids_remove, ← List.eraseIdx_idxOf_eq_erase, List.getElem?_eraseIdx]

/-- Who leaves before its turn leaves everybody else's turn as it was. -/
theorem remove_ahead (h : Round before subscribers next calls missed) {gone : Nat}
    (hgone : next ≤ subscribers.ids.idxOf gone) :
    Round before (subscribers.remove gone) next calls missed := by
  refine ⟨h.issued, h.ascending, fun i id hi hid hbefore => ?_,
    fun i id hi hid past hpast => ?_⟩
  · rw [ids_remove_getElem?, if_pos (Nat.lt_of_lt_of_le hi hgone)] at hid
    exact h.done i id hi hid hbefore
  · rw [ids_remove_getElem?] at hid
    split at hid
    · exact h.ahead i id hi hid past hpast
    · exact h.ahead (i + 1) id (Nat.le_succ_of_le hi) hid past hpast

/-- Who leaves after its turn makes the next in line miss its own. -/
theorem remove_past (h : Round before subscribers next calls missed) (hsound : subscribers.Sound)
    {gone : Nat} (hgone : subscribers.ids.idxOf gone < next) :
    Round before (subscribers.remove gone) next calls
      (missed ++ subscribers.ids[next]?.toList) := by
  refine ⟨fun id hid => ?_, h.ascending, fun i id hi hid hbefore => ?_,
    fun i id hi hid past hpast => ?_⟩
  · rw [← List.append_assoc, List.mem_append, Option.mem_toList] at hid
    rcases hid with hid | hid
    · exact h.issued id hid
    · exact hsound.issued id (List.mem_of_getElem? hid)
  · -- What stood at `next` is now the last of those whose turn is over.
    have hmoved (hnext : subscribers.ids[next]? = some id) :
        id ∈ calls ↔ id ∉ missed ++ subscribers.ids[next]?.toList := by
      have hcalls : id ∉ calls := fun hc =>
        Nat.lt_irrefl id (h.ahead next id (Nat.le_refl _) hnext id (List.mem_append_left _ hc))
      simp [hcalls, hnext]
    have hstays {j : Nat} (hj : j < next) (hid : subscribers.ids[j]? = some id) :
        id ∈ calls ↔ id ∉ missed ++ subscribers.ids[next]?.toList := by
      have hne : subscribers.ids[next]? ≠ some id := fun hnext =>
        Nat.lt_irrefl id (hsound.lt_of_getElem? hj hid hnext)
      rw [h.done j id hj hid hbefore, List.mem_append, Option.mem_toList]
      simp [hne]
    rw [ids_remove_getElem?] at hid
    split at hid
    · exact hstays hi hid
    · rcases Nat.lt_or_eq_of_le (Nat.succ_le_of_lt hi) with hlt | heq
      · exact hstays hlt hid
      · exact hmoved (heq ▸ hid)
  · have hi' : ¬ i < subscribers.ids.idxOf gone := by omega
    rw [ids_remove_getElem?, if_neg hi'] at hid
    rw [← List.append_assoc, List.mem_append, Option.mem_toList] at hpast
    rcases hpast with hpast | hpast
    · exact h.ahead (i + 1) id (Nat.le_succ_of_le hi) hid past hpast
    · exact hsound.lt_of_getElem? (Nat.lt_succ_of_le hi) hpast hid

theorem remove (h : Round before subscribers next calls missed) (hsound : subscribers.Sound)
    (gone : Nat) : Round before (subscribers.remove gone) next calls
      (missed ++ (subscribers.passedOver gone next).toList) := by
  unfold passedOver
  split
  · rename_i hgone
    exact h.remove_past hsound hgone
  · rename_i hgone
    rw [Option.toList_none, List.append_nil]
    exact h.remove_ahead (Nat.le_of_not_lt hgone)

/-- When nobody is left to call, those that were there all along have been
called once each, but for those that were passed over. -/
theorem count_calls (h : Round before subscribers next calls missed)
    (hend : subscribers.ids.length ≤ next) {id : Nat} (hfirst : id ∈ before)
    (hlast : id ∈ subscribers.ids) : calls.count id = if id ∈ missed then 0 else 1 := by
  obtain ⟨i, hi, hid⟩ := List.getElem_of_mem hlast
  have hdone := h.done i id (Nat.lt_of_lt_of_le hi hend)
    (List.getElem?_eq_some_iff.mpr ⟨hi, hid⟩) hfirst
  have hnodup : calls.Nodup := h.ascending.imp Nat.ne_of_lt
  split
  · rename_i hmissed
    exact List.count_eq_zero.mpr fun hc => hdone.mp hc hmissed
  · rename_i hmissed
    exact List.count_eq_one_of_mem hnodup (hdone.mpr hmissed)

end Round
end StyleRegistry.Subscribers
