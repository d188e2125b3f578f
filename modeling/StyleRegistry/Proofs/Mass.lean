import Mathlib.Algebra.Group.Action.Defs
import Mathlib.Algebra.Order.BigOperators.Group.List
import Mathlib.Algebra.Order.Ring.Nat
import StyleRegistry.Callback
import StyleRegistry.Proofs.Cache.Counts

/-! # What runs use up

A run has mass and a stack of frames. What it does uses mass up and never brings
any back, and a unit of mass is worth more steps than all frames that can be put
on the stack for it. So a step that uses some up may start as much as it likes,
and the other steps go on with a frame, which has fewer steps left then. -/
namespace StyleRegistry

/-! ## Totals -/

theorem total_eq_sum (amounts : List Nat) : total amounts = amounts.sum := rfl

@[simp] theorem total_nil : total [] = 0 := rfl

@[simp] theorem total_cons (amount : Nat) (amounts : List Nat) :
    total (amount :: amounts) = amount + total amounts := rfl

@[simp] theorem total_append (first second : List Nat) :
    total (first ++ second) = total first + total second := by
  simp only [total_eq_sum, List.sum_append]

section Totals

variable {α : Type} (weigh : α → Nat) {items : List α} {item : α}

theorem le_total (h : item ∈ items) : weigh item ≤ total (items.map weigh) :=
  List.le_sum_of_mem (List.mem_map_of_mem h)

/-- What weighs at least one each is no more than it weighs. -/
theorem length_le_total (items : List α) (h : ∀ item, 0 < weigh item) :
    items.length ≤ total (items.map weigh) := by
  have hone : ∀ weight ∈ items.map weigh, 1 ≤ weight := by
    intro weight hm
    obtain ⟨item, -, rfl⟩ := List.mem_map.mp hm
    exact h item
  have hle := List.length_le_sum_of_one_le _ hone
  rwa [List.length_map] at hle

theorem total_le_length_mul {amount : Nat} (h : ∀ item ∈ items, weigh item ≤ amount) :
    total (items.map weigh) ≤ items.length * amount := by
  have hle := List.sum_le_card_nsmul (items.map weigh) amount fun weight hm => by
    obtain ⟨item, hitem, rfl⟩ := List.mem_map.mp hm
    exact h item hitem
  rwa [List.length_map, smul_eq_mul] at hle

theorem total_modify {index : Nat} (h : items[index]? = some item) (change : α → α) :
    total ((items.modify index change).map weigh) + weigh item =
      total (items.map weigh) + weigh (change item) := by
  induction items generalizing index with
  | nil => simp at h
  | cons first rest ih =>
    cases index with
    | zero =>
      obtain rfl : first = item := by simpa using h
      simp only [List.modify_zero_cons, List.map_cons, total_cons]
      omega
    | succ index =>
      have hrest := @ih index (by simpa using h)
      simp only [List.modify_succ_cons, List.map_cons, total_cons]
      omega

end Totals

/-! ## The mass of a cache -/

namespace Cache

variable {α : Type}

theorem size_le_mass (cache : Cache α) : cache.size ≤ cache.mass :=
  length_le_total (fun entry : Entry α => entry.count + 1) cache.entries fun _ => Nat.succ_pos _

theorem count_le_mass (cache : Cache α) (key : Bytes) : cache.count key ≤ cache.mass := by
  rw [count]
  cases he : cache.find? key with
  | none => exact Nat.zero_le _
  | some entry =>
    exact Nat.le_of_succ_le (le_total (fun entry => entry.count + 1) (mem_of_find? he))

theorem total_updateEntry_le {view : Entry α → Nat} {change : Entry α → Entry α} (more : Nat)
    (h : ∀ entry, view (change entry) ≤ view entry + more) (key : Bytes)
    (entries : List (Entry α)) :
    total ((updateEntry key change entries).map view) ≤ total (entries.map view) + more := by
  induction entries with
  | nil => exact Nat.zero_le _
  | cons entry rest ih =>
    have hentry := h entry
    rw [updateEntry]
    split
    · simp only [List.map_cons, total_cons]
      omega
    · simp only [List.map_cons, total_cons]
      omega

theorem mass_updateItem_le (cache : Cache α) (key : Bytes) (change : α → α) :
    (cache.updateItem key change).mass ≤ cache.mass :=
  total_updateEntry_le 0 (fun entry => by simp) key cache.entries

theorem mass_acquire_le [Keyed α] (cache : Cache α) (item : α) :
    (cache.acquire item).mass ≤ cache.mass + 2 := by
  unfold acquire
  dsimp only
  split
  · exact total_updateEntry_le 2 (fun entry => by simp) _ cache.entries
  · simp [mass]

theorem mass_release_lt {cache : Cache α} {key : Bytes} {item : α}
    (h : cache.evicted? key = some item) : (cache.release key).mass < cache.mass := by
  obtain ⟨entry, he, -, -⟩ := evicted?_eq_some h
  have hkey : (entry.key == key) = true := by simpa using key_of_find? he
  obtain ⟨found, before, after, -, -, hl, hr⟩ :=
    List.exists_of_eraseP (p := fun entry => entry.key == key) (mem_of_find? he) hkey
  have hrelease : (cache.release key).entries = before ++ after := by
    rw [release, h]
    exact hr
  simp only [mass, hrelease, hl, List.map_append, List.map_cons, total_append, total_cons]
  omega

theorem mass_release_le (cache : Cache α) (key : Bytes) :
    (cache.release key).mass ≤ cache.mass := by
  cases hv : cache.evicted? key with
  | some item => exact (mass_release_lt hv).le
  | none =>
    rw [release, hv]
    exact total_updateEntry_le 0 (fun entry => by simp) key cache.entries

end Cache

/-! ## The mass of subscribers -/

namespace Subscribers

variable {α : Type} (weigh : α → Nat) {subscribers : Subscribers α} {index : Nat} {old : α}

theorem lt_mass (h : ∀ subscriber, 0 < weigh subscriber) (hi : subscribers.get? index = some old) :
    index < subscribers.mass weigh := by
  obtain ⟨subscriber, hs, -⟩ := Option.map_eq_some_iff.mp hi
  have hlength := length_le_total (fun subscriber : Nat × α => weigh subscriber.2)
    subscribers.present fun subscriber => h subscriber.2
  exact Nat.lt_of_lt_of_le (List.getElem?_eq_some_iff.mp hs).1 hlength

theorem mass_add (subscribers : Subscribers α) (subscriber : α) :
    (subscribers.add subscriber).mass weigh = subscribers.mass weigh + weigh subscriber := by
  simp [mass, add]

theorem mass_remove_le (subscribers : Subscribers α) (id : Nat) :
    (subscribers.remove id).mass weigh ≤ subscribers.mass weigh :=
  (List.eraseP_sublist.map _).sum_le_sum fun _ _ => Nat.zero_le _

theorem mass_set (h : subscribers.get? index = some old) (subscriber : α) :
    (subscribers.set index subscriber).mass weigh + weigh old =
      subscribers.mass weigh + weigh subscriber := by
  obtain ⟨pair, hp, rfl⟩ := Option.map_eq_some_iff.mp h
  exact total_modify (fun subscriber => weigh subscriber.2) hp _

end Subscribers

/-- A firing is used up before its script runs. -/
theorem Callback.firings_spend {α : Type} {callback : Callback α} {event : Bytes}
    (h : callback.fires event = true) (amount : Nat) :
    callback.firings * amount = callback.spend.firings * amount + amount := by
  have hpos : 0 < callback.firings := of_decide_eq_true (Bool.and_eq_true_iff.mp h).1
  rw [← Nat.succ_mul]
  exact congrArg (· * amount) (Nat.succ_pred_eq_of_pos hpos).symm

/-! ## Tariffs -/

/-- What is charged in a run of some mass: the steps that a unit of mass is worth
and the steps that a frame takes before more mass is used up. -/
structure Tariff (α : Type) where
  reserve : Nat → Nat
  cost : Nat → α → Nat
  reserve_mono : Monotone reserve
  cost_mono (frame : α) : Monotone (cost · frame)
  cost_pos (m : Nat) (frame : α) : 0 < cost m frame

namespace Tariff

variable {α : Type} (tariff : Tariff α) {m n : Nat} {frame : α} {frames : List α}

def costs (m : Nat) (frames : List α) : Nat := total (frames.map (tariff.cost m))

@[simp] theorem costs_nil (m : Nat) : tariff.costs m [] = 0 := rfl

@[simp] theorem costs_cons (m : Nat) (frame : α) (frames : List α) :
    tariff.costs m (frame :: frames) = tariff.cost m frame + tariff.costs m frames := rfl

@[simp] theorem costs_append (m : Nat) (frames rest : List α) :
    tariff.costs m (frames ++ rest) = tariff.costs m frames + tariff.costs m rest := by
  simp [costs]

theorem costs_mono (frames : List α) : Monotone (tariff.costs · frames) := by
  intro n m h
  induction frames with
  | nil => exact Nat.le_refl _
  | cons frame frames ih => exact Nat.add_le_add (tariff.cost_mono frame h) ih

/-- The steps of a run of mass `m` with these frames on the stack. -/
def bound (m : Nat) (frames : List α) : Nat := m * tariff.reserve m + tariff.costs m frames

/-- A step that uses mass up may put as much on the stack as a unit is worth. -/
theorem bound_lt_of_lighter (hm : n < m)
    (hc : tariff.costs m frames < tariff.reserve m + tariff.cost m frame) (below : List α) :
    tariff.bound n (frames ++ below) < tariff.bound m (frame :: below) := by
  have hcosts := tariff.costs_mono (frames ++ below) hm.le
  have hmass : n * tariff.reserve n + tariff.reserve m ≤ m * tariff.reserve m := by
    calc _ ≤ n * tariff.reserve m + tariff.reserve m :=
          Nat.add_le_add_right (Nat.mul_le_mul_left _ (tariff.reserve_mono hm.le)) _
      _ = (n + 1) * tariff.reserve m := (Nat.succ_mul _ _).symm
      _ ≤ _ := Nat.mul_le_mul_right _ hm
  simp only [bound, costs_append, costs_cons] at hcosts ⊢
  omega

/-- A step that uses none up goes on with a frame. -/
theorem bound_lt_of_level (hm : n ≤ m) (hc : tariff.costs m frames < tariff.cost m frame)
    (below : List α) : tariff.bound n (frames ++ below) < tariff.bound m (frame :: below) := by
  have hcosts := tariff.costs_mono (frames ++ below) hm
  have hmass := Nat.mul_le_mul hm (tariff.reserve_mono hm)
  simp only [bound, costs_append, costs_cons] at hcosts ⊢
  omega

/-- A failure drops everything. -/
theorem bound_nil_lt (hm : n ≤ m) (frame : α) (below : List α) :
    tariff.bound n [] < tariff.bound m (frame :: below) := by
  have hmass := Nat.mul_le_mul hm (tariff.reserve_mono hm)
  have hpos := tariff.cost_pos m frame
  simp only [bound, costs_nil, costs_cons]
  omega

end Tariff
end StyleRegistry
