import Mathlib.Algebra.GroupWithZero.Nat
import StyleRegistry.Proofs.Rule.Removal

/-! # Blocks covered by selectors

Every reference to a block comes with a selector for it, and the selectors count
their own references. An undoing may take references of blocks that other
trees brought, and then it finds none of its own selectors there: it takes less
from the selectors than from the block. So a block never has more references
than its selectors have together, and a block that is there has a selector. -/
namespace StyleRegistry

open Bytes (ascii)

/-! ## Totals -/

namespace Cache

variable {α : Type}

/-- The references to all items of a cache. -/
def total (cache : Cache α) : Nat := (cache.entries.map (·.count)).sum

theorem total_updateEntry_succ {key : Bytes} {entries : List (Entry α)}
    (h : key ∈ entries.map (·.key)) :
    ((updateEntry key (fun entry => { entry with count := entry.count + 1 }) entries).map
      (·.count)).sum = (entries.map (·.count)).sum + 1 := by
  induction entries with
  | nil => exact absurd h List.not_mem_nil
  | cons entry rest ih =>
    rw [updateEntry]
    split
    · simp only [List.map_cons, List.sum_cons]
      omega
    · rename_i hne
      have hrest := ih ((List.mem_cons.mp h).resolve_left (Ne.symm hne))
      simp only [List.map_cons, List.sum_cons] at hrest ⊢
      omega

@[simp] theorem total_acquire [Keyed α] (cache : Cache α) (item : α) :
    (cache.acquire item).total = cache.total + 1 := by
  by_cases hc : cache.contains (Keyed.key item) = true
  · rw [acquire, if_pos hc]
    exact total_updateEntry_succ (contains_iff_mem.mp hc)
  · rw [acquire, if_neg hc, total, List.map_append, List.sum_append]
    rfl

/-- A release takes one reference at most. -/
theorem total_le_release (cache : Cache α) (key : Bytes) :
    cache.total ≤ (cache.release key).total + 1 := by
  rw [release_eq, total, total]
  induction cache.entries with
  | nil => exact Nat.zero_le _
  | cons entry rest ih =>
    rw [released]
    split
    · split
      · simp only [List.map_cons, List.sum_cons]
        omega
      · simp only [List.map_cons, List.sum_cons]
        omega
    · simp only [List.map_cons, List.sum_cons] at ih ⊢
      omega

theorem entries_ne_nil_of_total {cache : Cache α} (h : 0 < cache.total) : cache.entries ≠ [] := by
  intro he
  rw [total, he] at h
  exact Nat.lt_irrefl 0 h

end Cache

/-! ## Totals of selectors -/

namespace Container

variable {root : Container} {styles : Layer}

/-- No block has more references than its selectors have together. -/
def Covered (root : Container) : Prop :=
  ∀ path declarations, root.countAt path (Key.style declarations) ≤
    (root.selectorsAt path (Key.style declarations)).total

/-- Changes that give so many references to selectors and take no more than so many. -/
def Shifts (change : Selector → Cache Selector → Cache Selector) (gain loss : Nat) : Prop :=
  ∀ selector selectors, selectors.total + gain ≤ (change selector selectors).total + loss

theorem shifts_grant : Shifts grant 1 0 := fun selector selectors =>
  Nat.le_of_eq (Cache.total_acquire selectors selector).symm

theorem shifts_revoke : Shifts revoke 0 1 := fun _ selectors => selectors.total_le_release _

section Shifts

variable {change : Selector → Cache Selector → Cache Selector} {gain loss : Nat}
  {path : List Bytes} {key declarations : Bytes}

theorem total_selectStop (hs : Shifts change gain loss) (h : root.WellFormed) (name : Bytes)
    {stop : Stop} (hh : root.holds stop.path stop.key = true) (hk : key = Key.style declarations) :
    (root.selectorsAt path key).total +
        gain * (if path = stop.path ∧ key = stop.key then 1 else 0) ≤
      ((selectStop change name root stop).selectorsAt path key).total +
        loss * (if path = stop.path ∧ key = stop.key then 1 else 0) := by
  cases stop with
  | atRule rules rule =>
    have hne : ¬ (path = (Stop.atRule rules rule).path ∧ key = (Stop.atRule rules rule).key) := by
      rintro ⟨-, he⟩
      rw [hk] at he
      cases he
    rw [if_neg hne]
    exact Nat.le_refl _
  | block rules text stored =>
    have hsel : (selectStop change name root (.block rules text stored)).selectorsAt path key =
        if path = rules.map Key.atRule ∧ key = Key.style stored then
          change (Selector.below name text) (root.selectorsAt path key)
        else root.selectorsAt path key := selectorsAt_selectAt h hh path key
    have hslot : (path = (Stop.block rules text stored).path ∧
        key = (Stop.block rules text stored).key) =
          (path = rules.map Key.atRule ∧ key = Key.style stored) := rfl
    simp only [hsel, hslot]
    split
    · rw [Nat.mul_one, Nat.mul_one]
      exact hs _ _
    · exact Nat.le_refl _

/-- The selectors of a block gain and lose with the stops that refer to it. -/
theorem total_selectEach (hs : Shifts change gain loss) {move : Nat → Nat → Nat}
    (hc : Moves change move) (h : root.WellFormed) (name : Bytes) {stops : List Stop}
    (hh : ∀ stop ∈ stops, root.holds stop.path stop.key = true)
    (hk : key = Key.style declarations) :
    (root.selectorsAt path key).total + gain * (stops.map Stop.slot).count (path, key) ≤
      ((root.selectEach change name stops).selectorsAt path key).total +
        loss * (stops.map Stop.slot).count (path, key) := by
  induction stops generalizing root with
  | nil => exact Nat.le_refl _
  | cons stop rest ih =>
    have hrest : ∀ s ∈ rest, (selectStop change name root stop).holds s.path s.key = true := by
      intro s hm
      rw [holds_selectStop]
      exact hh s (List.mem_cons_of_mem _ hm)
    have hfirst := @total_selectStop _ _ _ _ path _ _ hs h name _ (hh stop List.mem_cons_self) hk
    have hlast := ih (h.selectStop hc stop) hrest
    rw [selectEach_cons, Stop.count_slot_cons, Nat.mul_add, Nat.mul_add]
    omega

end Shifts

/-! ## Calls -/

theorem covered_empty : Covered .empty := by
  intro path declarations
  rw [countAt_eq_zero (not_holds_empty path _)]
  exact Nat.zero_le _

/-- Registering gives a block as many references to selectors as it gets itself. -/
theorem Covered.registered (hc : root.Covered) (h : root.WellFormed) (styles : Layer) :
    (root.registered styles).Covered := by
  intro path declarations
  have hh : ∀ stop ∈ styles.stops,
      (root.acquireEach styles.stops).holds stop.path stop.key = true := by
    intro stop hs
    rw [(h.acquireEach _).holds_iff, countAt_acquireEach (h.grounded styles)]
    exact Nat.add_pos_right _ (Layer.references_pos hs)
  have htotal := @total_selectEach _ _ _ _ path _ declarations shifts_grant _ moves_grant
    (h.acquireEach styles.stops) styles.className _ hh rfl
  have hroot := hc path declarations
  rw [selectorsAt_acquireEach (h.grounded styles)] at htotal
  rw [countAt_registered h, Container.registered, Layer.references]
  omega

/-- Undoing takes as many references from a block that stays, and no more from
its selectors. -/
theorem Covered.undone (hc : root.Covered) (h : root.WellFormed) (styles : Layer) :
    (root.undone styles).Covered := by
  intro path declarations
  by_cases hh : (root.undone styles).holds path (Key.style declarations) = true
  · -- The block loses all of the tree's references to it and its selectors no more.
    let held := root.held styles.stops
    have hw : (root.selectEach revoke styles.className held).WellFormed :=
      h.selectEach moves_revoke held
    have hheld : root.holds path (Key.style declarations) = true := by
      rw [← holds_selectEach held]
      exact holds_of_releaseEach hw hh
    have htotal := @total_selectEach _ _ _ _ path _ declarations shifts_revoke _ moves_revoke h
      styles.className held (fun _ => holds_of_mem_held) rfl
    have hroot := hc path declarations
    rw [count_held styles.stops hheld] at htotal
    rw [countAt_undone h styles (isSome_bodyIn?_of_holds hh), Container.undone,
      selectorsAt_releaseEach hw hh, Layer.references]
    omega
  · rw [countAt_eq_zero hh]
    exact Nat.zero_le _

end Container
end StyleRegistry
