import Mathlib.Algebra.GroupWithZero.Nat
import StyleRegistry.Proofs.Rule.Live

/-! # Shares of unfinished calls

A call that is under way has taken, or has still to give back, the references
of the first stops of its tree: its share. While calls wait for one another the
container holds the references of the live registrations together with all
shares. A tree's at-rules come before what is below them, so whatever a share
refers to is there, and a reference that is given back takes nothing away that
a share or a live registration still stands on. -/
namespace StyleRegistry

open Forest (bodyIn?)

/-! ## Ways -/

/-- Every step of the way is among the slots. -/
def Covers (slots : List (List Bytes × Bytes)) (way : List Bytes) : Prop :=
  ∀ pre last, pre ++ [last] <+: way → (pre, last) ∈ slots

namespace Covers

variable {slots more : List (List Bytes × Bytes)} {way : List Bytes} {key : Bytes}

theorem nil (slots : List (List Bytes × Bytes)) : Covers slots [] := by
  intro pre last hp
  have he := List.prefix_nil.mp hp
  exact absurd he (List.append_ne_nil_of_right_ne_nil pre (List.cons_ne_nil _ _))

theorem mono (h : Covers slots way) (hs : slots ⊆ more) : Covers more way :=
  fun pre last hp => hs (h pre last hp)

theorem child (h : Covers slots way) (hk : (way, key) ∈ slots) : Covers slots (way ++ [key]) := by
  intro pre last hp
  rcases List.prefix_concat_iff.mp hp with he | hp
  · obtain ⟨rfl, hlast⟩ := List.append_inj' he rfl
    obtain rfl := List.singleton_inj.mp hlast
    exact hk
  · exact h pre last hp

theorem append {share : List Stop} (h : Covers (share.map Stop.slot) way) (later : List Stop) :
    Covers ((share ++ later).map Stop.slot) way := by
  refine h.mono ?_
  rw [List.map_append]
  exact List.subset_append_left _ _

end Covers

/-- A container is there if all at-rules on the way to it are held. -/
theorem Container.WellFormed.isSome_bodyIn?_of_covers {root : Container} (h : root.WellFormed)
    {slots : List (List Bytes × Bytes)} (hh : ∀ slot ∈ slots, root.holds slot.1 slot.2 = true)
    {rules : List Bytes} (hc : Covers slots (rules.map Key.atRule)) :
    (bodyIn? root (rules.map Key.atRule)).isSome := by
  cases rules using List.reverseRecOn with
  | nil => rfl
  | append_singleton rules rule =>
    rw [List.map_append] at hc ⊢
    exact h.isSome_bodyIn? (hh _ (hc _ _ List.prefix_rfl))

namespace Layer

variable {styles : Layer} {share : List Stop} {stop : Stop}

/-- A walk refers to the at-rules on the way to a stop before it makes the stop. -/
theorem covers_of_concat (h : share ++ [stop] <+: styles.stops) :
    Covers (share.map Stop.slot) stop.path := by
  obtain ⟨rest, hr⟩ := h
  have hg := Container.WellFormed.empty.grounded styles
  rw [← hr, Container.grounded_append_iff, Container.grounded_append_iff] at hg
  obtain ⟨⟨hshare, hstop, -⟩, -⟩ := hg
  rintro pre last ⟨post, hp⟩
  rw [← hp, Forest.bodyIn?_append] at hstop
  have hs : (bodyIn? (Container.acquireEach .empty share) (pre ++ [last])).isSome := by
    rw [Option.isSome_iff_exists] at hstop ⊢
    obtain ⟨_, hb⟩ := hstop
    obtain ⟨body, hb, -⟩ := Option.bind_eq_some_iff.mp hb
    exact ⟨body, hb⟩
  have hh := Container.holds_of_isSome_bodyIn? hs
  rw [(Container.WellFormed.empty.acquireEach share).holds_iff,
    Container.countAt_acquireEach hshare,
    Container.countAt_eq_zero (Container.not_holds_empty _ _), Nat.zero_add] at hh
  exact List.count_pos_iff.mp hh

theorem covers_of_mem (h : share <+: styles.stops) (hs : stop ∈ share) :
    Covers (share.map Stop.slot) stop.path := by
  obtain ⟨before, after, rfl⟩ := List.append_of_mem hs
  have hb : before ++ [stop] <+: before ++ stop :: after :=
    ⟨after, (List.append_cons before stop after).symm⟩
  exact (covers_of_concat (hb.trans h)).append (stop :: after)

end Layer

/-! ## References of shares -/

/-- How many of the stops of some shares refer to a key in the container at a way. -/
def sharesOf (shares : List (List Stop)) (path : List Bytes) (key : Bytes) : Nat :=
  (shares.map fun share => (share.map Stop.slot).count (path, key)).sum

variable {shares : List (List Stop)} {share : List Stop} {stop : Stop} {live : Multiset Layer}
  {root : Container} {styles : Layer}

@[simp] theorem sharesOf_nil (path : List Bytes) (key : Bytes) : sharesOf [] path key = 0 := rfl

@[simp] theorem sharesOf_cons (path : List Bytes) (key : Bytes) :
    sharesOf (share :: shares) path key =
      (share.map Stop.slot).count (path, key) + sharesOf shares path key := by
  rw [sharesOf, List.map_cons, List.sum_cons, sharesOf]

theorem count_slot_concat (share : List Stop) (stop : Stop) (path : List Bytes) (key : Bytes) :
    ((share ++ [stop]).map Stop.slot).count (path, key) = (share.map Stop.slot).count (path, key) +
      if path = stop.path ∧ key = stop.key then 1 else 0 := by
  have hone := Stop.count_slot_cons stop [] path key
  rw [List.map_append, List.count_append]
  exact congrArg (_ + ·) hone

theorem sharesOf_pos {path : List Bytes} {key : Bytes} :
    0 < sharesOf shares path key ↔ ∃ share ∈ shares, (path, key) ∈ share.map Stop.slot := by
  induction shares with
  | nil => simp
  | cons share shares ih =>
    rw [sharesOf_cons, List.exists_mem_cons_iff, ← ih, ← List.count_pos_iff]
    omega

/-- Each share is what the walk of some tree refers to first. -/
def Begun (shares : List (List Stop)) : Prop :=
  ∀ share ∈ shares, ∃ styles : Layer, share <+: styles.stops

theorem Begun.closed (h : Begun shares) : Closed (sharesOf shares) := by
  intro path last key hp
  obtain ⟨share, hs, hm⟩ := sharesOf_pos.mp hp
  obtain ⟨stop, hstop, hslot⟩ := List.mem_map.mp hm
  obtain ⟨styles, hprefix⟩ := h share hs
  have hpath : stop.path = path ++ [last] := congrArg Prod.fst hslot
  refine ⟨?_, sharesOf_pos.mpr ⟨share, hs, ?_⟩⟩
  · obtain ⟨-, rest, -, -, hrest⟩ := List.map_eq_append_iff.mp hpath
    obtain ⟨rule, -, rfl⟩ := List.map_eq_singleton_iff.mp hrest
    exact ⟨rule, rfl⟩
  · exact Layer.covers_of_mem hprefix hstop path last (by rw [hpath])

theorem Closed.add {refs more : List Bytes → Bytes → Nat} (h : Closed refs) (hm : Closed more) :
    Closed fun path key => refs path key + more path key := by
  intro path last key hp
  rcases Nat.add_pos_iff_pos_or_pos.mp hp with hp | hp
  · obtain ⟨hrule, hl⟩ := h path last key hp
    exact ⟨hrule, Nat.add_pos_left hl _⟩
  · obtain ⟨hrule, hl⟩ := hm path last key hp
    exact ⟨hrule, Nat.add_pos_right _ hl⟩

/-! ## Containers that calls share -/

/-- A container with the references of the live registrations and of the
shares; only registrations that are live have selectors in it. -/
structure Holding (root : Container) (live : Multiset Layer) (shares : List (List Stop)) :
    Prop where
  wellFormed : root.WellFormed
  begun : Begun shares
  count : ∀ path key, root.countAt path key = referencesOf live path key + sharesOf shares path key
  selector : ∀ path key selector, (root.selectorsAt path key).count selector =
    selectorReferencesOf live path key selector

namespace Holding

theorem ofBalanced (h : Balanced root live) : Holding root live [] where
  wellFormed := h.wellFormed
  begun := by simp [Begun]
  count := h.count
  selector := h.selector

theorem balanced (h : Holding root live []) : Balanced root live where
  wellFormed := h.wellFormed
  count := h.count
  selector := h.selector

theorem closed (h : Holding root live shares) :
    Closed fun path key => referencesOf live path key + sharesOf shares path key :=
  (closed_referencesOf live).add h.begun.closed

theorem begin (h : Holding root live shares) : Holding root live ([] :: shares) where
  wellFormed := h.wellFormed
  begun share hs := by
    rcases List.mem_cons.mp hs with rfl | hs
    · exact ⟨[], List.nil_prefix⟩
    · exact h.begun share hs
  count path key := by
    rw [h.count, sharesOf_cons, List.map_nil, List.count_nil, Nat.zero_add]
  selector := h.selector

theorem finish (h : Holding root live ([] :: shares)) : Holding root live shares where
  wellFormed := h.wellFormed
  begun share hs := h.begun share (List.mem_cons_of_mem _ hs)
  count path key := by
    rw [h.count, sharesOf_cons, List.map_nil, List.count_nil, Nat.zero_add]
  selector := h.selector

/-- What a share refers to is there. -/
theorem holds (h : Holding root live shares) (hs : share ∈ shares) :
    ∀ slot ∈ share.map Stop.slot, root.holds slot.1 slot.2 = true := by
  intro slot hm
  rw [h.wellFormed.holds_iff, h.count]
  exact Nat.add_pos_right _ (sharesOf_pos.mpr ⟨share, hs, hm⟩)

/-- The container of the next stop of an unfinished walk is there. -/
theorem reaches (h : Holding root live (share :: shares)) (hp : share ++ [stop] <+: styles.stops) :
    (bodyIn? root stop.path).isSome :=
  h.wellFormed.isSome_bodyIn?_of_covers (h.holds List.mem_cons_self) (Layer.covers_of_concat hp)

/-- An unfinished walk takes its next reference. -/
theorem take (h : Holding root live (share :: shares)) (hp : share ++ [stop] <+: styles.stops) :
    Holding (root.acquireAt stop.path stop.node) live ((share ++ [stop]) :: shares) where
  wellFormed := h.wellFormed.acquireAt stop.fresh_node _
  begun other ho := by
    rcases List.mem_cons.mp ho with rfl | ho
    · exact ⟨styles, hp⟩
    · exact h.begun other (List.mem_cons_of_mem _ ho)
  count path key := by
    rw [Container.countAt_acquireAt (h.reaches hp) stop.fresh_node, h.count, sharesOf_cons,
      sharesOf_cons, count_slot_concat, Stop.key]
    omega
  selector path key selector := by
    rw [Container.selectorsAt_acquireAt (h.reaches hp) stop.fresh_node, h.selector]

/-- An unfinished undoing gives the last reference of its share back. -/
theorem give (h : Holding root live ((share ++ [stop]) :: shares)) :
    Holding (root.releaseAt stop.path stop.key) live (share :: shares) := by
  have hw := h.wellFormed.releaseAt stop.path stop.key
  have hbegun : Begun (share :: shares) := by
    intro other ho
    rcases List.mem_cons.mp ho with rfl | ho
    · obtain ⟨styles, hp⟩ := h.begun _ List.mem_cons_self
      exact ⟨styles, (List.prefix_append _ _).trans hp⟩
    · exact h.begun other (List.mem_cons_of_mem _ ho)
  have hc := ((closed_referencesOf live).add hbegun.closed).countAt_eq hw fun path key hs => by
    rw [Container.countAt_releaseAt h.wellFormed hs, h.count, sharesOf_cons, sharesOf_cons,
      count_slot_concat]
    omega
  refine ⟨hw, hbegun, hc, ?_⟩
  intro path key selector
  by_cases hh : (root.releaseAt stop.path stop.key).holds path key = true
  · rw [Container.selectorsAt_releaseAt h.wellFormed hh, h.selector]
  · have hz : referencesOf live path key = 0 := by
      have hsum := hc path key
      rw [Container.countAt_eq_zero hh] at hsum
      omega
    rw [selectorReferencesOf_eq_zero hz, Container.selectorsAt_of_not_holds hh, Cache.count_empty]

/-! ## Beginning to undo, having registered -/

/-- All of a live registration is held. -/
theorem held_stops (h : Holding root (styles ::ₘ live) shares) :
    root.held styles.stops = styles.stops := by
  refine List.filter_eq_self.mpr ?_
  intro stop hs
  have hr := Layer.references_pos hs
  rw [h.wellFormed.holds_iff, h.count, referencesOf_cons]
  omega

/-- The selectors of a registration go at once; its references become a share. -/
theorem undoing (h : Holding root (styles ::ₘ live) shares) :
    Holding (root.selectEach Container.revoke styles.className styles.stops) live
      (styles.stops :: shares) where
  wellFormed := h.wellFormed.selectEach Container.moves_revoke _
  begun share hs := by
    rcases List.mem_cons.mp hs with rfl | hs
    · exact ⟨styles, List.prefix_rfl⟩
    · exact h.begun share hs
  count path key := by
    rw [Container.countAt_selectEach, h.count, referencesOf_cons, sharesOf_cons, Layer.references]
    omega
  selector path key selector := by
    have hh : ∀ stop ∈ styles.stops, root.holds stop.path stop.key = true :=
      fun stop hs => Container.holds_of_mem_held (h.held_stops.symm ▸ hs)
    rw [Container.count_selectorsAt_selectEach Container.moves_revoke h.wellFormed hh, h.selector,
      selectorReferencesOf_cons, Layer.selectorReferences, Nat.add_sub_cancel_left]

/-- The whole of a tree is a live registration once the blocks have their selectors. -/
theorem registered (h : Holding root live (styles.stops :: shares)) :
    Holding (root.selectEach Container.grant styles.className styles.stops) (styles ::ₘ live)
      shares where
  wellFormed := h.wellFormed.selectEach Container.moves_grant _
  begun share hs := h.begun share (List.mem_cons_of_mem _ hs)
  count path key := by
    rw [Container.countAt_selectEach, h.count, referencesOf_cons, sharesOf_cons, Layer.references]
    omega
  selector path key selector := by
    have hh : ∀ stop ∈ styles.stops, root.holds stop.path stop.key = true :=
      fun stop hs => h.holds List.mem_cons_self _ (List.mem_map_of_mem hs)
    rw [Container.count_selectorsAt_selectEach Container.moves_grant h.wellFormed hh, h.selector,
      selectorReferencesOf_cons, Layer.selectorReferences, Nat.add_comm]

end Holding
end StyleRegistry
