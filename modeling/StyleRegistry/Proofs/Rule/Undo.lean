import StyleRegistry.Proofs.Rule.Removal

/-! # Undoing at once

A registration that is undone at once leaves the container as it was. The
references are given back in the reverse of the order in which they were taken,
so each is the last one taken when its turn comes. The selectors are taken away
in the order in which they were given, but the order of that does not matter. -/
namespace StyleRegistry

open Bytes (ascii)
open Forest (bodyIn?)

/-- Acts that are undone in reverse leave no trace if each one can be undone at once. -/
theorem foldl_reverse_foldl {α β : Type} (valid : α → Prop) {act undo : α → β → α}
    (hv : ∀ a b, valid a → valid (act a b)) (hu : ∀ a b, valid a → undo (act a b) b = a)
    (steps : List β) {a : α} (ha : valid a) :
    steps.reverse.foldl undo (steps.foldl act a) = a := by
  induction steps generalizing a with
  | nil => rfl
  | cons b rest ih =>
    rw [List.reverse_cons, List.foldl_append]
    exact (congrArg (undo · b) (ih (hv a b ha))).trans (hu a b ha)

namespace Container

variable {root : Container}

/-! ## References -/

theorem releaseEach_acquireEach (h : root.WellFormed) (stops : List Stop) :
    (root.acquireEach stops).releaseEach stops.reverse = root :=
  foldl_reverse_foldl WellFormed (fun _ stop hw => hw.acquireAt stop.fresh_node stop.path)
    (fun _ stop hw => releaseAt_acquireAt hw stop.path stop.node) stops h

/-! ## Selectors -/

theorem selectStop_selectStop (h : root.WellFormed) (name : Bytes) (stop : Stop) :
    selectStop revoke name (selectStop grant name root stop) stop = root := by
  cases stop with
  | block rules selector declarations =>
    refine (selectAt_selectAt _ _ _ _).trans (selectAt_self h fun selectors hs => ?_)
    exact Cache.release_acquire hs _
  | atRule rules rule => rfl

theorem selectStop_revoke_comm (name : Bytes) (root : Container) (first second : Stop) :
    selectStop revoke name (selectStop revoke name root first) second =
      selectStop revoke name (selectStop revoke name root second) first := by
  cases first with
  | atRule rules rule => rfl
  | block rules selector declarations =>
    cases second with
    | atRule rules rule => rfl
    | block rules' selector' declarations' =>
      exact selectAt_comm (fun selectors => Cache.release_comm selectors _ _) _ _ _ _ root

/-- Selectors may be taken away in any order. -/
theorem selectEach_revoke_reverse (name : Bytes) (root : Container) (stops : List Stop) :
    root.selectEach revoke name stops.reverse = root.selectEach revoke name stops :=
  (List.reverse_perm stops).foldl_eq' (fun first _ second _ root =>
    selectStop_revoke_comm name root first second) root

theorem selectEach_revoke_grant (h : root.WellFormed) (name : Bytes) (stops : List Stop) :
    (root.selectEach grant name stops).selectEach revoke name stops = root := by
  rw [← selectEach_revoke_reverse]
  exact foldl_reverse_foldl WellFormed (fun _ stop hw => hw.selectStop moves_grant stop)
    (fun _ stop hw => selectStop_selectStop hw name stop) stops h

/-! ## Whole trees -/

/-- A container holds what was just registered in it. -/
theorem held_registered (h : root.WellFormed) (styles : Layer) :
    (root.registered styles).held styles.stops = styles.stops := by
  refine List.filter_eq_self.mpr fun stop hs => ?_
  rw [(h.registered styles).holds_iff, countAt_registered h]
  exact Nat.lt_of_lt_of_le (Layer.references_pos hs) (Nat.le_add_left _ _)

theorem selectEach_revoke_registered (h : root.WellFormed) (styles : Layer) :
    (root.registered styles).selectEach revoke styles.className styles.stops =
      root.acquireEach styles.stops :=
  selectEach_revoke_grant (h.acquireEach _) styles.className styles.stops

theorem undone_registered (h : root.WellFormed) (styles : Layer) :
    (root.registered styles).undone styles = root := by
  rw [undone, held_registered h, selectEach_revoke_registered h, releaseEach_acquireEach h]

/-! ## Newcomers -/

/-- The nodes that stops bring into containers, with the ways to these. -/
def newcomers (root : Container) : List Stop → List (List Bytes × Node)
  | [] => []
  | stop :: rest =>
    (if root.holds stop.path stop.key then [] else [(stop.path, stop.node)]) ++
      (root.acquireAt stop.path stop.node).newcomers rest

end Container

/-- What would be told if what came went. -/
def Event.toldGone (event : Event) : Address × Change × Bytes × Node :=
  (event.container.address, .remove, event.key, event.node)

/-- What is told of a node that comes or goes. -/
def tellOf (change : Change) (newcomer : List Bytes × Node) : Address × Change × Bytes × Node :=
  (⟨none, newcomer.1⟩, change, newcomer.2.key, newcomer.2)

namespace Forest

variable {forest : Forest}

theorem told_arrivals {stops : List Stop} (hg : forest.root.Grounded stops) :
    (forest.arrivals stops).map Event.told =
      (forest.root.newcomers stops).map (tellOf .add) := by
  induction stops generalizing forest with
  | nil => rfl
  | cons stop rest ih =>
    obtain ⟨hs, hrest⟩ := hg
    have hroot : (forest.visit stop).1.root = forest.root.acquireAt stop.path stop.node := by
      rw [visit_fst]
    rw [← hroot] at hrest
    rw [arrivals, List.map_append, ih hrest, Container.newcomers, List.map_append, hroot,
      ← Option.toList_map, visit, told_acquire hs, Stop.key]
    refine congrArg (· ++ _) ?_
    split <;> rfl

theorem removeEach_append (first second : List Removal) (forest : Forest) :
    forest.removeEach (first ++ second) =
      (((forest.removeEach first).1.removeEach second).1,
        (forest.removeEach first).2 ++ ((forest.removeEach first).1.removeEach second).2) := by
  induction first generalizing forest with
  | nil => rfl
  | cons removal first ih =>
    rw [List.cons_append, removeEach]
    simp only [ih, removeEach, List.append_assoc]

theorem TracksEach.removeEach {met : Forest} {stops others : List Stop}
    (hw : forest.root.WellFormed) (ht : forest.TracksEach met stops)
    (ho : forest.TracksEach met others) :
    (forest.removeEach (met.removalsOf stops)).1.TracksEach met others := by
  induction stops generalizing forest with
  | nil => exact ho
  | cons stop rest ih =>
    have hstop := ht stop List.mem_cons_self
    rw [removalsOf, List.map_cons, Forest.removeEach, remove_one]
    refine ih (wellFormed_release hstop hw _) (ht.release hw) ?_
    intro other hm
    exact hstop.release hw (ho other hm) stop.key

/-- Giving back a reference that was the last to be taken tells of a key that came by it. -/
theorem told_release_taken {left : Forest} {place : Place} {root : Container} {stop : Stop}
    (hw : root.WellFormed) (hb : (bodyIn? root stop.path).isSome)
    (hleft : left.root = root.acquireAt stop.path stop.node) (ht : left.Tracks place stop.path) :
    (left.release place stop.key).2.map Event.told =
      if root.holds stop.path stop.key then none
      else some (tellOf .remove (stop.path, stop.node)) := by
  have hsome : (bodyIn? left.root stop.path).isSome := by
    rw [hleft]
    exact Container.isSome_bodyIn?_acquireAt hb
  have he := Cache.evicted?_acquire (hw.bodyAt stop.path).tidy.sound stop.node
  rw [told_release ht hsome, hleft, Container.bodyAt_acquireAt_self hb]
  rw [Node.keyed_key] at he
  rw [Stop.key, he, Container.holds]
  split <;> rfl

/-- What came last goes first. -/
theorem told_removeEach {met : Forest} {stops : List Stop} {root : Container}
    (hw : root.WellFormed) (hg : root.Grounded stops) (hr : forest.root = root.acquireEach stops)
    (ht : forest.TracksEach met stops) :
    (forest.removeEach (met.removalsOf stops.reverse)).2.map Event.told =
      (root.newcomers stops).reverse.map (tellOf .remove) := by
  induction stops generalizing root with
  | nil => rfl
  | cons stop rest ih =>
    have hw' := hw.acquireAt stop.fresh_node stop.path
    have hrest : forest.TracksEach met rest.reverse := fun s hs =>
      ht s (List.mem_cons_of_mem _ (List.mem_reverse.mp hs))
    have hwf : forest.root.WellFormed := hr ▸ hw.acquireEach (stop :: rest)
    have ih := ih hw' hg.2 hr fun s hs => ht s (List.mem_cons_of_mem _ hs)
    have hleft : (forest.removeEach (met.removalsOf rest.reverse)).1.root =
        root.acquireAt stop.path stop.node := by
      rw [root_removeEach hwf hrest, hr]
      exact Container.releaseEach_acquireEach hw' rest
    generalize hl : (forest.removeEach (met.removalsOf rest.reverse)).1 = left at hleft
    have htrack : left.Tracks (met.place ⟨none, stop.path⟩) stop.path := by
      rw [← hl]
      exact TracksEach.removeEach hwf hrest ht stop List.mem_cons_self
    -- The release of the stop comes last and takes back what it took first.
    have hlast := told_release_taken hw hg.1 hleft htrack
    have hone : left.removeEach [.one (met.slotOf stop)] =
        ((left.release (met.place ⟨none, stop.path⟩) stop.key).1,
          (left.release (met.place ⟨none, stop.path⟩) stop.key).2.toList) := by
      simp only [removeEach, remove_one, slotOf, List.append_nil]
    have hsplit : met.removalsOf (stop :: rest).reverse =
        met.removalsOf rest.reverse ++ [.one (met.slotOf stop)] := by
      simp only [removalsOf, List.reverse_cons, List.map_append, List.map_cons, List.map_nil]
    rw [hsplit, removeEach_append, List.map_append, ih, hl, hone, ← Option.toList_map, hlast,
      Container.newcomers, List.reverse_append, List.map_append]
    refine congrArg (_ ++ ·) ?_
    split <;> rfl

/-! ## Registering and undoing -/

theorem told_register (h : forest.root.WellFormed) (styles : Layer) :
    (forest.register (forest.place .root) styles).events.map Event.told =
      (forest.root.newcomers styles.stops).map (tellOf .add) := by
  rw [register_eq]
  exact told_arrivals (h.grounded styles)

/-- What goes when a tree is undone that was just registered. -/
theorem told_unregister (h : forest.root.WellFormed) (styles : Layer) :
    let registered : Forest := ⟨forest.root.registered styles, forest.evictions⟩
    (registered.unregister (registered.place .root) styles).events.map Event.told =
      (forest.root.newcomers styles.stops).reverse.map (tellOf .remove) := by
  intro registered
  have hcleared := Container.selectEach_revoke_registered h styles
  rw [unregister_eq, Container.held_registered h styles, hcleared]
  refine told_removeEach h (h.grounded styles) rfl fun stop _ => ?_
  exact tracks_place ⟨forest.root.acquireEach styles.stops, forest.evictions⟩ stop.path

theorem toldGone_eq {events : List Event} {newcomers : List (List Bytes × Node)}
    (h : events.map Event.told = newcomers.map (tellOf .add)) :
    events.map Event.toldGone = newcomers.map (tellOf .remove) := by
  have hm := congrArg (List.map fun told => (told.1, Change.remove, told.2.2)) h
  rw [List.map_map, List.map_map] at hm
  exact hm

theorem told_topLevel (events : List Event) (tell : Event → Address × Change × Bytes × Node)
    (ht : ∀ event, (tell event).1 = event.container.address) :
    (events.filter Event.isTopLevel).map tell = (events.map tell).filter (·.1 == .root) := by
  rw [List.filter_map]
  congr 2
  funext event
  rw [Event.isTopLevel, ← ht event]
  rfl

/-- **Undoing at once restores everything.** In any well-formed container, a tree
that is registered and at once undone leaves every node, text, count, selector
and order as they were, at every depth. Both calls name the same class. What
comes is told by the first call and what goes by the second, in reverse, in the
container itself and in all below it. -/
theorem unregister_register (h : forest.root.WellFormed) (styles : Layer) :
    let first := forest.register (forest.place .root) styles
    let second := first.forest.unregister (first.forest.place .root) styles
    second.forest.root = forest.root ∧ second.className = first.className ∧
    (∀ event ∈ first.events, event.change = .add) ∧
    second.events.map Event.told = (first.events.map Event.toldGone).reverse ∧
    (second.events.filter Event.isTopLevel).map Event.told =
      ((first.events.filter Event.isTopLevel).map Event.toldGone).reverse := by
  intro first second
  have hcame := told_register h styles
  have hadd : ∀ event ∈ first.events, event.change = .add := by
    intro event he
    have hm : event.told ∈ first.events.map Event.told := List.mem_map_of_mem he
    rw [hcame] at hm
    obtain ⟨newcomer, -, hn⟩ := List.mem_map.mp hm
    exact (congrArg (·.2.1) hn).symm
  have hfirst : first.forest = ⟨forest.root.registered styles, forest.evictions⟩ := by
    rw [show first = _ from register_eq styles]
  have hw : first.forest.root.WellFormed := by
    rw [hfirst]
    exact h.registered styles
  have hgone : second.events.map Event.told = (first.events.map Event.toldGone).reverse := by
    have hu := told_unregister h styles
    rw [toldGone_eq hcame, ← List.map_reverse, ← hu, ← hfirst]
  refine ⟨?_, ?_, hadd, hgone, ?_⟩
  · rw [root_unregister hw, hfirst, Container.undone_registered h]
  · rw [show first = _ from register_eq styles, show second = _ from unregister_eq styles]
  · rw [told_topLevel _ _ fun _ => rfl, told_topLevel _ _ fun _ => rfl, hgone, List.filter_reverse]

/-- A tree with one text at two places and an at-rule around another. -/
def printed : Layer :=
  [(ascii "color", .scalar (.text (ascii "red"))),
    (ascii ".foo", .nested [(ascii "color", .scalar (.text (ascii "red")))]),
    (ascii "@media print", .nested [(ascii "display", .scalar (.text (ascii "none")))])]

theorem unregister_register_printed :
    let forest := Forest.ofContainer (Container.registered .empty printed)
    let first := forest.register (forest.place .root) printed
    (first.forest.unregister (first.forest.place .root) printed).forest.root =
      Container.registered .empty printed :=
  (unregister_register (Container.WellFormed.empty.registered printed) printed).1

end Forest
end StyleRegistry
