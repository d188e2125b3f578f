import Mathlib.Data.List.ReduceOption
import StyleRegistry.ClassList

/-! # Joined class lists

A nested list is joined before the list around it is, and its text counts there
as one name. That comes to the same as joining all names at once, with one
exception: a nested list in which there is nothing to join gives the empty text,
and this still stands between two separators. -/
namespace StyleRegistry

/-! ## Joining -/

namespace Bytes

variable {separator : Bytes} {texts others : List Bytes}

/-- The texts in order, each behind a separator. -/
def lead (separator : Bytes) (texts : List Bytes) : Bytes :=
  texts.flatMap fun text => separator ++ text

theorem lead_cons (text : Bytes) (rest : List Bytes) :
    lead separator (text :: rest) = separator ++ text ++ lead separator rest := List.flatMap_cons

theorem lead_append : lead separator (texts ++ others) =
    lead separator texts ++ lead separator others := List.flatMap_append

theorem separator_append_join (h : texts ≠ []) :
    separator ++ join separator texts = lead separator texts := by
  induction texts with
  | nil => exact absurd rfl h
  | cons text rest ih =>
    cases rest with
    | nil => simp [join, lead]
    | cons next rest =>
      have hrest := ih (List.cons_ne_nil _ _)
      rw [lead_cons, ← hrest, join]
      · simp only [List.append_assoc]
      · exact List.cons_ne_nil _ _

theorem join_eq_join_iff (ht : texts ≠ []) (ho : others ≠ []) :
    join separator texts = join separator others ↔
      lead separator texts = lead separator others := by
  rw [← separator_append_join ht, ← separator_append_join ho, List.append_right_inj]

end Bytes

namespace ClassItem

open Bytes (ascii lead)

/-! ## Names and gaps -/

mutual

/-- The names in an item, a nested list's among them. -/
def flatten : ClassItem → List Bytes
  | .null => []
  | .name text => [text]
  | .list items => flattenAll items
  | .flags flagged => enabled flagged

def flattenAll : List ClassItem → List Bytes
  | [] => []
  | item :: rest => flatten item ++ flattenAll rest

end

/-- A gap, where there is nothing else. -/
def orGap : List (Option Bytes) → List (Option Bytes)
  | [] => [none]
  | slots => slots

mutual

/-- The names in an item, and a gap for each nested list in which there is
nothing. -/
def slots : ClassItem → List (Option Bytes)
  | .null => []
  | .name text => [some text]
  | .list items => orGap (slotsAll items)
  | .flags flagged => (enabled flagged).map some

def slotsAll : List ClassItem → List (Option Bytes)
  | [] => []
  | item :: rest => slots item ++ slotsAll rest

end

def gaps (items : List ClassItem) : Nat := (slotsAll items).count none

/-- A gap is written as an empty name. -/
def written (slots : List (Option Bytes)) : List Bytes := slots.map (·.getD [])

theorem slotsAll_append (items more : List ClassItem) :
    slotsAll (items ++ more) = slotsAll items ++ slotsAll more := by
  induction items with
  | nil => rfl
  | cons item rest ih => rw [List.cons_append, slotsAll, ih, slotsAll, List.append_assoc]

theorem orGap_ne_nil (slots : List (Option Bytes)) : orGap slots ≠ [] := by
  cases slots <;> exact List.cons_ne_nil _ _

theorem orGap_of_ne_nil {slots : List (Option Bytes)} (h : slots ≠ []) : orGap slots = slots := by
  cases slots with
  | nil => exact absurd rfl h
  | cons slot rest => rfl

theorem reduceOption_orGap (slots : List (Option Bytes)) :
    (orGap slots).reduceOption = slots.reduceOption := by
  cases slots <;> rfl

mutual

theorem reduceOption_slots : ∀ item : ClassItem, (slots item).reduceOption = flatten item
  | .null => rfl
  | .name text => rfl
  | .list items => by rw [slots, reduceOption_orGap, reduceOption_slotsAll items, flatten]
  | .flags flagged => by
    rw [slots, flatten, List.reduceOption, List.filterMap_map]
    exact List.filterMap_some

theorem reduceOption_slotsAll :
    ∀ items : List ClassItem, (slotsAll items).reduceOption = flattenAll items
  | [] => rfl
  | item :: rest => by
    rw [slotsAll, List.reduceOption_append, reduceOption_slots item, reduceOption_slotsAll rest,
      flattenAll]

end

/-! ## Joining level by level -/

mutual

theorem names_eq_nil_iff : ∀ item : ClassItem, names item = [] ↔ slots item = []
  | .null => ⟨fun _ => rfl, fun _ => rfl⟩
  | .name text => by simp [names, slots]
  | .list items => by simp [names, slots, orGap_ne_nil]
  | .flags flagged => by rw [names, slots, List.map_eq_nil_iff]

theorem allNames_eq_nil_iff : ∀ items : List ClassItem, allNames items = [] ↔ slotsAll items = []
  | [] => ⟨fun _ => rfl, fun _ => rfl⟩
  | item :: rest => by
    rw [allNames, slotsAll, List.append_eq_nil_iff, List.append_eq_nil_iff, names_eq_nil_iff item,
      allNames_eq_nil_iff rest]

end

mutual

theorem lead_names :
    ∀ item : ClassItem, lead separator (names item) = lead separator (written (slots item))
  | .null => rfl
  | .name text => rfl
  | .list items => by
    have hall := lead_allNames items
    by_cases hs : slotsAll items = []
    · rw [names, (allNames_eq_nil_iff items).mpr hs, slots, hs]
      rfl
    · have hn : allNames items ≠ [] := mt (allNames_eq_nil_iff items).mp hs
      rw [slots, orGap_of_ne_nil hs, ← hall, ← Bytes.separator_append_join hn, names, lead,
        List.flatMap_singleton]
  | .flags flagged => by
    rw [names, slots, written, List.map_map]
    exact congrArg (lead separator) (List.map_id _).symm

theorem lead_allNames : ∀ items : List ClassItem,
    lead separator (allNames items) = lead separator (written (slotsAll items))
  | [] => rfl
  | item :: rest => by
    rw [allNames, slotsAll, written, List.map_append, Bytes.lead_append, Bytes.lead_append,
      lead_names item, lead_allNames rest, written, written]

end

/-- All levels are joined at once, gaps as empty names. -/
theorem join_eq (items : List ClassItem) :
    join items = Bytes.join separator (written (slotsAll items)) := by
  rw [join]
  by_cases hs : slotsAll items = []
  · rw [hs, (allNames_eq_nil_iff items).mpr hs]
    rfl
  · have hn : allNames items ≠ [] := mt (allNames_eq_nil_iff items).mp hs
    have hw : written (slotsAll items) ≠ [] := mt List.map_eq_nil_iff.mp hs
    exact (Bytes.join_eq_join_iff hn hw).mpr (lead_allNames items)

/-! ## What gaps change -/

/-- A gap adds its separator and no more. -/
theorem length_lead_written (slots : List (Option Bytes)) :
    (lead separator (written slots)).length =
      (lead separator slots.reduceOption).length + slots.count none := by
  induction slots with
  | nil => rfl
  | cons slot rest ih =>
    rw [written, List.map_cons, ← written, Bytes.lead_cons, List.length_append, ih]
    cases slot with
    | none =>
      have hgap : (separator ++ (none : Option Bytes).getD []).length = 1 := rfl
      rw [hgap, List.reduceOption_cons_of_none, List.count_cons_self]
      omega
    | some text =>
      rw [List.reduceOption_cons_of_some, Bytes.lead_cons,
        List.count_cons_of_ne (Option.some_ne_none text), Option.getD_some]
      simp only [List.length_append, Nat.add_assoc]

theorem length_join_written {slots : List (Option Bytes)} (h : slots ≠ []) :
    (Bytes.join separator (written slots)).length + 1 =
      (lead separator slots.reduceOption).length + slots.count none := by
  have hw : written slots ≠ [] := mt List.map_eq_nil_iff.mp h
  rw [← length_lead_written, ← Bytes.separator_append_join hw, List.length_append]
  exact Nat.add_comm ..

theorem written_of_no_gap {slots : List (Option Bytes)} (h : slots.count none = 0) :
    written slots = slots.reduceOption := by
  induction slots with
  | nil => rfl
  | cons slot rest ih =>
    cases slot with
    | none => simp at h
    | some text =>
      rw [List.count_cons_of_ne (Option.some_ne_none text)] at h
      rw [written, List.map_cons, ← written, ih h, List.reduceOption_cons_of_some]
      rfl

/-- A single gap goes unseen where there are no names; more than one and a gap
among names do not. -/
theorem join_written_iff (slots : List (Option Bytes)) :
    Bytes.join separator (written slots) = Bytes.join separator slots.reduceOption ↔
      slots.count none = 0 ∨ slots.reduceOption = [] ∧ slots.count none = 1 := by
  constructor
  · intro hj
    by_cases hs : slots = []
    · exact .inl (hs ▸ rfl)
    have hlength := length_join_written hs
    by_cases hn : slots.reduceOption = []
    · rw [hj, hn] at hlength
      exact .inr ⟨hn, by simpa [Bytes.join, lead] using hlength.symm⟩
    · rw [hj, ← Bytes.separator_append_join hn, List.length_append] at hlength
      have hone : separator.length = 1 := rfl
      exact .inl (by omega)
  · rintro (hc | ⟨hn, hc⟩)
    · rw [written_of_no_gap hc]
    · obtain ⟨count, rfl⟩ := (List.reduceOption_eq_nil_iff slots).mp hn
      rw [List.count_replicate_self] at hc
      rw [hc]
      rfl

/-- One gap more is seen wherever there is something else. -/
theorem join_written_gap_iff (before after : List (Option Bytes)) :
    Bytes.join separator (written (before ++ none :: after)) =
        Bytes.join separator (written (before ++ after)) ↔ before ++ after = [] := by
  constructor
  · intro hj
    by_contra hne
    have hgap := length_join_written
      (List.append_ne_nil_of_right_ne_nil before (List.cons_ne_nil none after))
    have hnone := length_join_written hne
    rw [hj, List.reduceOption_append, List.reduceOption_cons_of_none, List.count_append,
      List.count_cons_self] at hgap
    rw [List.reduceOption_append, List.count_append] at hnone
    omega
  · intro hnil
    obtain ⟨rfl, rfl⟩ := List.append_eq_nil_iff.mp hnil
    rfl

/-! ## Lists around lists -/

/-- The items as a nested list, with others before and after it, and this again
as a nested list, and so on outwards. -/
def enclose : List (List ClassItem × List ClassItem) → List ClassItem → List ClassItem
  | [], items => items
  | (before, after) :: outer, items => enclose outer (before ++ .list items :: after)

theorem allNames_append (items more : List ClassItem) :
    allNames (items ++ more) = allNames items ++ allNames more := by
  induction items with
  | nil => rfl
  | cons item rest ih => rw [List.cons_append, allNames, ih, allNames, List.append_assoc]

theorem join_surrounded_iff (before after items others : List ClassItem) :
    join (before ++ .list items :: after) = join (before ++ .list others :: after) ↔
      join items = join others := by
  have hall (items : List ClassItem) : allNames (before ++ .list items :: after) =
      allNames before ++ (join items :: allNames after) := by
    rw [allNames_append, allNames, names, join]
    rfl
  have hne (text : Bytes) : allNames before ++ (text :: allNames after) ≠ [] := by simp
  rw [join, join, hall, hall, Bytes.join_eq_join_iff (hne _) (hne _), Bytes.lead_append,
    Bytes.lead_append, List.append_right_inj, Bytes.lead_cons, Bytes.lead_cons,
    List.append_left_inj, List.append_right_inj]

theorem join_enclose_iff (levels : List (List ClassItem × List ClassItem))
    (items others : List ClassItem) :
    join (enclose levels items) = join (enclose levels others) ↔ join items = join others := by
  induction levels generalizing items others with
  | nil => exact Iff.rfl
  | cons level outer ih =>
    rw [enclose, enclose, ih]
    exact join_surrounded_iff level.1 level.2 items others

/-- Taking a list out of its place is seen where it leaves a gap among others. -/
theorem join_splice_iff (before inner after : List ClassItem) :
    join (before ++ .list inner :: after) = join (before ++ inner ++ after) ↔
      slotsAll inner ≠ [] ∨ slotsAll (before ++ after) = [] := by
  have hlist : slotsAll (before ++ .list inner :: after) =
      slotsAll before ++ (orGap (slotsAll inner) ++ slotsAll after) := by
    rw [slotsAll_append, slotsAll, slots]
  have hspliced : slotsAll (before ++ inner ++ after) =
      slotsAll before ++ (slotsAll inner ++ slotsAll after) := by
    rw [slotsAll_append, slotsAll_append, List.append_assoc]
  rw [join_eq, join_eq, hlist, hspliced, slotsAll_append]
  by_cases hi : slotsAll inner = []
  · rw [hi]
    refine (join_written_gap_iff (slotsAll before) (slotsAll after)).trans ?_
    simp
  · rw [orGap_of_ne_nil hi]
    exact ⟨fun _ => .inl hi, fun _ => rfl⟩

/-! ## The joined text -/

/-- **Names are joined as if no list were nested, but for empty lists.** The
joined text has all names of the items, those of nested lists in their places,
with a space between neighbours, and an empty name for each gap: a nested list
in which there is neither a name nor a further list. So it is the joined text of
the names alone just when there is no gap, or one gap and no name. A nested list
of the items, at any depth, may be replaced by the items just when there is
something in it or nothing beside it. -/
theorem join_flattens_iff (items : List ClassItem) :
    join items = Bytes.join separator (written (slotsAll items)) ∧
    (slotsAll items).reduceOption = flattenAll items ∧
    (join items = Bytes.join separator (flattenAll items) ↔
      gaps items = 0 ∨ flattenAll items = [] ∧ gaps items = 1) ∧
    ∀ (levels : List (List ClassItem × List ClassItem)) (before after : List ClassItem),
      join (enclose levels (before ++ .list items :: after)) =
          join (enclose levels (before ++ items ++ after)) ↔
        slotsAll items ≠ [] ∨ slotsAll (before ++ after) = [] := by
  refine ⟨join_eq items, reduceOption_slotsAll items, ?_, fun levels before after => ?_⟩
  · rw [join_eq, ← reduceOption_slotsAll, gaps]
    exact join_written_iff (slotsAll items)
  · rw [join_enclose_iff]
    exact join_splice_iff before items after

/-- An empty list between two names keeps them two spaces apart. -/
theorem join_of_empty_list :
    let items := [.name (ascii "a"), .list [], .name (ascii "b")]
    flattenAll items = [ascii "a", ascii "b"] ∧
      join items ≠ Bytes.join separator (flattenAll items) ∧
      join items ≠ join [.name (ascii "a"), .name (ascii "b")] := by
  decide

end ClassItem
end StyleRegistry
