import Mathlib.Algebra.BigOperators.Group.Multiset.Basic
import Mathlib.Algebra.Order.BigOperators.Group.Multiset
import Mathlib.Algebra.Order.Group.Nat
import StyleRegistry.Rule.Session
import StyleRegistry.Proofs.Rule.Removal

/-! # Live registrations

A registration is live until it is undone. While every undoing is of a live
registration, a container holds what the live ones refer to and counts just
their references, in whatever order the calls came. An undoing of any other
tree is idle only if the tree shares no node with a live registration. -/
namespace StyleRegistry

open Bytes (ascii)
open Forest (bodyIn?)

/-! ## References of many trees -/

/-- How many times the walks of some trees refer to a key in the container at a way. -/
def referencesOf (live : Multiset Layer) (path : List Bytes) (key : Bytes) : Nat :=
  (live.map (·.references path key)).sum

def selectorReferencesOf (live : Multiset Layer) (path : List Bytes) (key selector : Bytes) : Nat :=
  (live.map (·.selectorReferences path key selector)).sum

variable {live : Multiset Layer}

@[simp] theorem referencesOf_cons (styles : Layer) (path : List Bytes) (key : Bytes) :
    referencesOf (styles ::ₘ live) path key =
      styles.references path key + referencesOf live path key := by
  rw [referencesOf, Multiset.map_cons, Multiset.sum_cons, referencesOf]

@[simp] theorem selectorReferencesOf_cons (styles : Layer) (path : List Bytes)
    (key selector : Bytes) : selectorReferencesOf (styles ::ₘ live) path key selector =
      styles.selectorReferences path key selector +
        selectorReferencesOf live path key selector := by
  rw [selectorReferencesOf, Multiset.map_cons, Multiset.sum_cons, selectorReferencesOf]

theorem referencesOf_pos {path : List Bytes} {key : Bytes} :
    0 < referencesOf live path key ↔ ∃ styles ∈ live, 0 < styles.references path key := by
  rw [referencesOf, Nat.pos_iff_ne_zero, ne_eq, Multiset.sum_eq_zero_iff]
  simp [Nat.pos_iff_ne_zero]

theorem selectorReferencesOf_eq_zero {path : List Bytes} {key : Bytes}
    (h : referencesOf live path key = 0) (selector : Bytes) :
    selectorReferencesOf live path key selector = 0 := by
  rw [referencesOf, Multiset.sum_eq_zero_iff] at h
  rw [selectorReferencesOf, Multiset.sum_eq_zero_iff]
  intro count hc
  obtain ⟨styles, hs, rfl⟩ := Multiset.mem_map.mp hc
  have hz := h _ (Multiset.mem_map_of_mem _ hs)
  by_contra hne
  have hp := Layer.references_of_selectorReferences (Nat.pos_of_ne_zero hne)
  omega

/-- The tree refers to no node that a live registration refers to. -/
def Apart (live : Multiset Layer) (styles : Layer) : Prop :=
  ∀ path key, 0 < styles.references path key → referencesOf live path key = 0

/-! ## Closed references -/

/-- Who refers to something in a body refers to the body's at-rule. -/
def Closed (refs : List Bytes → Bytes → Nat) : Prop :=
  ∀ path last key, 0 < refs (path ++ [last]) key →
    (∃ rule, last = Key.atRule rule) ∧ 0 < refs path last

theorem closed_referencesOf (live : Multiset Layer) : Closed (referencesOf live) := by
  intro path last key h
  obtain ⟨styles, hs, hr⟩ := referencesOf_pos.mp h
  obtain ⟨hrule, hl⟩ := Layer.references_of_append hr
  exact ⟨hrule, referencesOf_pos.mpr ⟨styles, hs, hl⟩⟩

namespace Closed

variable {refs : List Bytes → Bytes → Nat} {root : Container}

/-- The containers that are referred to are there, if the counts are right in
those that are: on the way to each, the at-rules are referred to as well. -/
theorem isSome_bodyIn? (hc : Closed refs) (hw : root.WellFormed)
    (h : ∀ path key, (bodyIn? root path).isSome → root.countAt path key = refs path key) :
    ∀ {path : List Bytes} {key : Bytes}, 0 < refs path key → (bodyIn? root path).isSome := by
  intro path
  induction path using List.reverseRecOn with
  | nil => exact fun _ => rfl
  | append_singleton path last ih =>
    intro key hk
    obtain ⟨⟨rule, rfl⟩, hlast⟩ := hc path last key hk
    refine hw.isSome_bodyIn? ((hw.holds_iff _ _).mpr ?_)
    rw [h _ _ (ih hlast)]
    exact hlast

/-- So the counts are right everywhere. -/
theorem countAt_eq (hc : Closed refs) (hw : root.WellFormed)
    (h : ∀ path key, (bodyIn? root path).isSome → root.countAt path key = refs path key)
    (path : List Bytes) (key : Bytes) : root.countAt path key = refs path key := by
  cases hb : bodyIn? root path with
  | some body => exact h path key (by rw [hb]; rfl)
  | none =>
    have hz : ¬ 0 < refs path key := by
      intro hp
      rw [← Option.not_isSome_iff_eq_none] at hb
      exact hb (hc.isSome_bodyIn? hw h hp)
    rw [Container.countAt, Container.bodyAt_of_none hb, Cache.count_empty]
    omega

end Closed

/-! ## Balance -/

/-- A container whose counts are those of the live registrations. -/
structure Balanced (root : Container) (live : Multiset Layer) : Prop where
  wellFormed : root.WellFormed
  count : ∀ path key, root.countAt path key = referencesOf live path key
  selector : ∀ path key selector, (root.selectorsAt path key).count selector =
    selectorReferencesOf live path key selector

namespace Balanced

variable {root : Container}

theorem empty : Balanced .empty 0 where
  wellFormed := .empty
  count path key := Container.countAt_eq_zero (Container.not_holds_empty path key)
  selector path key selector := by
    rw [Container.selectorsAt_of_not_holds (Container.not_holds_empty path key)]
    rfl

theorem registered (h : Balanced root live) (styles : Layer) :
    Balanced (root.registered styles) (styles ::ₘ live) where
  wellFormed := h.wellFormed.registered styles
  count path key := by
    rw [Container.countAt_registered h.wellFormed, h.count, referencesOf_cons, Nat.add_comm]
  selector path key selector := by
    rw [Container.count_selectorsAt_registered h.wellFormed, h.selector,
      selectorReferencesOf_cons, Nat.add_comm]

theorem undone {styles : Layer} (h : Balanced root (styles ::ₘ live)) :
    Balanced (root.undone styles) live := by
  have hw := h.wellFormed.undone styles
  have hc := (closed_referencesOf live).countAt_eq hw fun path key hs => by
    rw [Container.countAt_undone h.wellFormed styles hs, h.count, referencesOf_cons,
      Nat.add_sub_cancel_left]
  refine ⟨hw, hc, ?_⟩
  intro path key selector
  by_cases hh : (root.undone styles).holds path key = true
  · rw [Container.count_selectorsAt_undone h.wellFormed styles hh, h.selector,
      selectorReferencesOf_cons, Nat.add_sub_cancel_left]
  · have hz : referencesOf live path key = 0 := by
      rw [← hc, Container.countAt_eq_zero hh]
    rw [selectorReferencesOf_eq_zero hz, Container.selectorsAt_of_not_holds hh,
      Cache.count_empty]

theorem holds_iff (h : Balanced root live) (path : List Bytes) (key : Bytes) :
    root.holds path key = true ↔ 0 < referencesOf live path key := by
  rw [h.wellFormed.holds_iff, h.count]

theorem contains_iff (h : Balanced root live) (path : List Bytes) (key selector : Bytes) :
    (root.selectorsAt path key).contains selector = true ↔
      0 < selectorReferencesOf live path key selector := by
  rw [(h.wellFormed.sound_selectorsAt path key).contains_iff, h.selector]

theorem unheld_iff (h : Balanced root live) {styles : Layer} :
    root.Unheld styles ↔ Apart live styles := by
  simp only [Container.Unheld, Apart, h.count]

theorem eq_empty (h : Balanced root 0) : root = .empty := by
  refine h.wellFormed.tidy.sound.eq_empty fun key => ?_
  exact (h.count [] key).trans rfl

end Balanced

/-! ## Runs -/

namespace RuleSession

namespace Call

/-- The call looks at the containers or at their listeners, at any depth. -/
def observes : Call → Bool
  | .count _ | .find _ | .render | .listen _ | .unlisten _ => true
  | _ => false

end Call

namespace Session

variable {session : Session}

theorem forest_call_of_observes {call : Call} (h : call.observes = true) (rules : List Bytes) :
    (session.call rules call).1.forest = session.forest := by
  rw [Session.call]
  split
  · rfl
  · cases call <;> first | rfl | cases h

/-- No at-rules lead to the root container. -/
theorem call_nil (call : Call) : session.call [] call =
    session.callIn (session.forest.place .root) session.forest.root call := by
  have hc := @Forest.container?_place session.forest []
  simp only [Session.call, List.map_nil, hc, Forest.bodyIn?_nil]
  rfl

theorem root_call_register (styles : Layer) :
    (session.call [] (.register styles)).1.forest.root = session.forest.root.registered styles := by
  rw [call_nil, callIn, Forest.register_eq]
  rfl

theorem root_call_unregister (h : session.forest.root.WellFormed) (styles : Layer) :
    (session.call [] (.unregister styles)).1.forest.root = session.forest.root.undone styles := by
  rw [call_nil, callIn, ← Forest.root_unregister h]
  rfl

end Session

/-- Sessions that start with an empty container, register trees and undo them,
and the registrations that are live in them. `stray` tells which trees may be
undone besides those that are live. -/
inductive Run (stray : Multiset Layer → Layer → Prop) : Session → Multiset Layer → Prop
  | start : Run stray .initial 0
  | observe {session : Session} {live : Multiset Layer} (rules : List Bytes) (call : Call) :
    Run stray session live → call.observes = true → Run stray (session.call rules call).1 live
  | register {session : Session} {live : Multiset Layer} (styles : Layer) :
    Run stray session live → Run stray (session.call [] (.register styles)).1 (styles ::ₘ live)
  | undo {session : Session} {live : Multiset Layer} (styles : Layer) :
    Run stray session (styles ::ₘ live) →
      Run stray (session.call [] (.unregister styles)).1 live
  | undoStray {session : Session} {live : Multiset Layer} (styles : Layer) :
    Run stray session live → stray live styles →
      Run stray (session.call [] (.unregister styles)).1 live

/-- Every undoing is of a live registration. -/
abbrev OrderlyRun : Session → Multiset Layer → Prop := Run fun _ _ => False

variable {stray : Multiset Layer → Layer → Prop} {session : Session} {live : Multiset Layer}

theorem Run.wellFormed (h : Run stray session live) : session.forest.root.WellFormed := by
  induction h with
  | start => exact .empty
  | observe rules call _ hc ih =>
    rw [Session.forest_call_of_observes hc]
    exact ih
  | register styles _ ih =>
    rw [Session.root_call_register]
    exact ih.registered styles
  | undo styles _ ih =>
    rw [Session.root_call_unregister ih]
    exact ih.undone styles
  | undoStray styles _ _ ih =>
    rw [Session.root_call_unregister ih]
    exact ih.undone styles

/-- Nothing is there that is not live. -/
theorem Run.countAt_le (h : Run stray session live) (path : List Bytes) (key : Bytes) :
    session.forest.root.countAt path key ≤ referencesOf live path key := by
  induction h with
  | start => exact (Container.countAt_eq_zero (Container.not_holds_empty path key)).le
  | observe rules call _ hc ih =>
    rw [Session.forest_call_of_observes hc]
    exact ih
  | register styles hr ih =>
    rw [Session.root_call_register, Container.countAt_registered hr.wellFormed,
      referencesOf_cons]
    omega
  | undo styles hr ih =>
    have hle := Container.countAt_undone_le hr.wellFormed styles path key
    rw [referencesOf_cons] at ih
    rw [Session.root_call_unregister hr.wellFormed]
    omega
  | undoStray styles hr _ ih =>
    have hle := Container.countAt_undone_le hr.wellFormed styles path key
    rw [Session.root_call_unregister hr.wellFormed]
    omega

theorem Run.balanced (h : Run stray session live)
    (hs : ∀ live styles, stray live styles → Apart live styles) :
    Balanced session.forest.root live := by
  induction h with
  | start => exact .empty
  | observe rules call _ hc ih =>
    rw [Session.forest_call_of_observes hc]
    exact ih
  | register styles _ ih =>
    rw [Session.root_call_register]
    exact ih.registered styles
  | undo styles _ ih =>
    rw [Session.root_call_unregister ih.wellFormed]
    exact ih.undone
  | undoStray styles _ ha ih =>
    rw [Session.root_call_unregister ih.wellFormed,
      Container.undone_of_unheld ih.wellFormed (ih.unheld_iff.mpr (hs _ _ ha))]
    exact ih

/-- **What is live is what is held.** In every run, each node has as many
references as the walks of the live trees make to it, and so has each selector
of each block; nothing else is there, at any depth. So the counts depend on
what is live and not on how it came to be, and when nothing is live the
container is empty. -/
theorem OrderlyRun.counts (h : OrderlyRun session live) :
    (∀ path key, session.forest.root.countAt path key = referencesOf live path key ∧
      (session.forest.root.holds path key = true ↔ 0 < referencesOf live path key)) ∧
    (∀ path key selector,
      (session.forest.root.selectorsAt path key).count selector =
        selectorReferencesOf live path key selector ∧
      ((session.forest.root.selectorsAt path key).contains selector = true ↔
        0 < selectorReferencesOf live path key selector)) ∧
    (∀ other, OrderlyRun other live → ∀ path key,
      other.forest.root.countAt path key = session.forest.root.countAt path key ∧
      ∀ selector, (other.forest.root.selectorsAt path key).count selector =
        (session.forest.root.selectorsAt path key).count selector) ∧
    (live = 0 → session.forest.root = .empty) := by
  have hb := h.balanced fun _ _ => False.elim
  refine ⟨fun path key => ⟨hb.count path key, hb.holds_iff path key⟩,
    fun path key selector => ⟨hb.selector path key selector, hb.contains_iff path key selector⟩,
    ?_, ?_⟩
  · intro other ho path key
    have hb' := ho.balanced fun _ _ => False.elim
    exact ⟨(hb'.count path key).trans (hb.count path key).symm, fun selector =>
      (hb'.selector path key selector).trans (hb.selector path key selector).symm⟩
  · rintro rfl
    exact hb.eq_empty

/-- A tree of one declaration, and the same declaration below a selector. -/
def plainRed : Layer := [(ascii "color", .scalar (.text (ascii "red")))]

def nestedRed : Layer := [(ascii ".x", .nested plainRed)]

/-- Two trees that share a block: one reference is left when one of them is undone. -/
theorem counts_of_shared_block :
    let session := ((Session.initial.call [] (.register nestedRed)).1.call [] (.register plainRed)).1
    session.forest.root.countAt [] (Key.style (ascii "color:red;")) = 2 ∧
    (session.call [] (.unregister plainRed)).1.forest.root.countAt []
      (Key.style (ascii "color:red;")) = 1 := by
  intro session
  have run : OrderlyRun session (plainRed ::ₘ nestedRed ::ₘ 0) := .register _ (.register _ .start)
  exact ⟨((OrderlyRun.counts run).1 [] _).1.trans (by decide +kernel),
    ((OrderlyRun.counts (.undo _ run)).1 [] _).1.trans (by decide +kernel)⟩

/-- **A stray undoing is idle only if it is apart.** In every run, undoing any
tree lowers the counts by the tree's references as far as they go. So it changes
no count just when the tree refers to nothing that is there, and then it changes
nothing at all. While the strays of a run were apart from what was live, each
node has just the references of the live trees, and the next stray is idle just
when it is apart. -/
theorem Run.stray_idle_iff (h : Run stray session live) (styles : Layer) :
    (∀ path key, session.forest.root.countAt path key ≤ referencesOf live path key) ∧
    (∀ path key,
      (bodyIn? (session.call [] (.unregister styles)).1.forest.root path).isSome →
      (session.call [] (.unregister styles)).1.forest.root.countAt path key =
        session.forest.root.countAt path key - styles.references path key) ∧
    ((∀ path key, (session.call [] (.unregister styles)).1.forest.root.countAt path key =
      session.forest.root.countAt path key) ↔ session.forest.root.Unheld styles) ∧
    (session.forest.root.Unheld styles →
      (session.call [] (.unregister styles)).1.forest.root = session.forest.root) ∧
    ((∀ live styles, stray live styles → Apart live styles) →
      (∀ path key, session.forest.root.countAt path key = referencesOf live path key) ∧
      (∀ path key selector, (session.forest.root.selectorsAt path key).count selector =
        selectorReferencesOf live path key selector) ∧
      (session.forest.root.Unheld styles ↔ Apart live styles)) := by
  have hw := h.wellFormed
  rw [Session.root_call_unregister hw]
  refine ⟨h.countAt_le, fun path key hs => Container.countAt_undone hw styles hs key,
    Container.countAt_undone_eq_iff hw styles, Container.undone_of_unheld hw, fun hs => ?_⟩
  have hb := h.balanced hs
  exact ⟨hb.count, hb.selector, hb.unheld_iff⟩

/-- A tree below an at-rule that nothing else refers to is undone without effect. -/
theorem stray_idle_of_plainRed :
    let session := (Session.initial.call [] (.register plainRed)).1
    (session.call [] (.unregister [(ascii "@media print", .nested plainRed)])).1.forest.root.countAt
      [] (Key.style (ascii "color:red;")) = 1 := by
  intro session
  have run : Run Apart session (plainRed ::ₘ 0) := .register _ .start
  have idle := Run.stray_idle_iff run [(ascii "@media print", .nested plainRed)]
  refine (idle.2.1 [] _ rfl).trans ?_
  rw [(idle.2.2.2.2 fun _ _ apart => apart).1]
  decide +kernel

/-- A tree that was never registered takes the block of one that is live. -/
theorem stray_evicts_live :
    let session := (Session.initial.call [] (.register plainRed)).1
    session.forest.root.holds [] (Key.style (ascii "color:red;")) = true ∧
    (session.call [] (.unregister nestedRed)).1.forest.root.holds []
      (Key.style (ascii "color:red;")) = false := by
  decide +kernel

end RuleSession
end StyleRegistry
