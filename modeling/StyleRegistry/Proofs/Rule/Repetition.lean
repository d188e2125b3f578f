import StyleRegistry.Proofs.Rule.Undo

/-! # Registering again

What a container prints depends on what is there and in which order, not on how
often it is referred to. A tree that has just been registered finds every node
and every selector of its own when it is registered once more: nothing comes and
only counts go up. -/
namespace StyleRegistry

open Bytes (ascii)
open Forest (bodyIn? updateIn)

/-! ## Outlines -/

/-- A node without counts: its text and what is in it, in order. -/
inductive Outline where
  | block (declarations : Bytes) (selectors : List Bytes)
  | atRule (rule : Bytes) (body : List Outline)

namespace Outline

mutual

def render : Outline → Bytes
  | .block declarations selectors =>
    if declarations.isEmpty then []
    else Bytes.join (ascii ",") selectors ++ ascii "\x7b" ++ declarations ++ ascii "\x7d"
  | .atRule rule body => rule ++ ascii "\x7b" ++ renderAll body ++ ascii "\x7d"

def renderAll : List Outline → Bytes
  | [] => []
  | outline :: rest => render outline ++ renderAll rest

end

end Outline

namespace Node

mutual

def outline : Node → Outline
  | .style declarations selectors => .block declarations (selectors.items.map (·.text))
  | .atRule rule body => .atRule rule (outlineBody body)

def outlineBody : Cache Node → List Outline
  | ⟨entries⟩ => outlineEntries entries

def outlineEntries : List (Entry Node) → List Outline
  | [] => []
  | ⟨_, node, _⟩ :: rest => outline node :: outlineEntries rest

end

mutual

/-- What is printed depends on the outline alone. -/
theorem render_outline : ∀ node : Node, node.outline.render = node.render
  | .style declarations selectors => rfl
  | .atRule rule body => by
    rw [outline, Outline.render, render_outlineBody body, render]

theorem render_outlineBody : ∀ body : Cache Node,
    Outline.renderAll (outlineBody body) = renderBody body
  | ⟨entries⟩ => render_outlineEntries entries

theorem render_outlineEntries : ∀ entries : List (Entry Node),
    Outline.renderAll (outlineEntries entries) = renderEntries entries
  | [] => rfl
  | ⟨_, node, _⟩ :: rest => by
    rw [outlineEntries, Outline.renderAll, render_outline node, render_outlineEntries rest,
      renderEntries]

end

theorem outlineEntries_eq (entries : List (Entry Node)) :
    outlineEntries entries = entries.map (·.item.outline) := by
  induction entries with
  | nil => rfl
  | cons entry rest ih => rw [outlineEntries, ih, List.map_cons]

end Node

namespace Container

/-- The nodes of a container without counts, at every depth. -/
def outline (container : Container) : List Outline := Node.outlineBody container

theorem render_outline (container : Container) :
    Outline.renderAll container.outline = container.render := Node.render_outlineBody container

theorem outline_eq (container : Container) :
    container.outline = container.items.map Node.outline := by
  obtain ⟨entries⟩ := container
  rw [Cache.items, List.map_map]
  exact Node.outlineEntries_eq entries

/-! ## Changes that no outline shows -/

variable {root : Container} {path : List Bytes}

theorem outline_updateItem {key : Bytes} {change : Node → Node}
    (h : ∀ node, root.item? key = some node → (change node).outline = node.outline) :
    outline (root.updateItem key change) = root.outline := by
  have hentries : ∀ entries : List (Entry Node),
      (∀ node, Cache.item? ⟨entries⟩ key = some node → (change node).outline = node.outline) →
      (Cache.updateEntry key (fun entry => { entry with item := change entry.item }) entries).map
        (·.item.outline) = entries.map (·.item.outline) := by
    intro entries
    induction entries with
    | nil => exact fun _ => rfl
    | cons entry rest ih =>
      intro hc
      by_cases hk : entry.key = key
      · have hfirst := hc entry.item (by simp [Cache.item?, Cache.find?, hk])
        rw [Cache.updateEntry, if_pos hk, List.map_cons, List.map_cons, hfirst]
      · rw [Cache.updateEntry, if_neg hk, List.map_cons, List.map_cons, ih]
        intro node hn
        exact hc node (by simpa [Cache.item?, Cache.find?, hk] using hn)
  rw [outline_eq, outline_eq, Cache.items, Cache.items, List.map_map, List.map_map]
  exact hentries root.entries h

/-- A change of one container shows only if it shows there. -/
theorem outline_updateIn {change : Container → Container}
    (h : ∀ body, bodyIn? root path = some body → (change body).outline = body.outline) :
    (updateIn change path root).outline = root.outline := by
  induction path generalizing root with
  | nil => exact h root rfl
  | cons key path ih =>
    rw [Forest.updateIn_cons]
    refine outline_updateItem fun node hn => ?_
    cases node with
    | style declarations selectors => rfl
    | atRule rule body =>
      have hbody : (updateIn change path body).outline = outline body := by
        refine ih fun inner hi => h inner ?_
        rw [Forest.bodyIn?_cons, hn]
        exact hi
      exact congrArg (Outline.atRule rule) hbody

/-- One more reference to a node that is there. -/
theorem outline_acquireAt {node : Node} (h : root.holds path node.key = true) :
    (root.acquireAt path node).outline = root.outline := by
  refine outline_updateIn fun body hb => ?_
  rw [holds, bodyAt_of_some hb] at h
  rw [outline_eq, Cache.items_acquire, Node.keyed_key, if_pos h, outline_eq]

/-- One more reference to a selector that is there. -/
theorem outline_selectAt_grant {key : Bytes} {selector : Selector}
    (h : (root.selectorsAt path key).contains (Keyed.key selector) = true) :
    (root.selectAt path key (grant selector)).outline = root.outline := by
  refine outline_updateIn fun body hb => outline_updateItem fun node hn => ?_
  cases node with
  | atRule rule body => rfl
  | style declarations selectors =>
    have hsel : root.selectorsAt path key = selectors := by
      rw [selectorsAt, bodyAt_of_some hb, selectorsOf, hn]
      rfl
    rw [hsel] at h
    rw [Node.mapSelectors, Node.outline, grant, Cache.items_acquire, if_pos h, Node.outline]

theorem holds_acquireAt (h : root.WellFormed) {stop : Stop}
    (hs : root.holds stop.path stop.key = true) {other : List Bytes} {key : Bytes}
    (hh : root.holds other key = true) :
    (root.acquireAt stop.path stop.node).holds other key = true := by
  have hsome := isSome_bodyIn?_of_holds hs
  have hcount := (h.holds_iff other key).mp hh
  rw [(h.acquireAt stop.fresh_node _).holds_iff, countAt_acquireAt hsome stop.fresh_node]
  exact Nat.lt_of_lt_of_le hcount (Nat.le_add_right _ _)

/-- Further references to nodes that are there. -/
theorem outline_acquireEach (h : root.WellFormed) {stops : List Stop}
    (hs : ∀ stop ∈ stops, root.holds stop.path stop.key = true) :
    (root.acquireEach stops).outline = root.outline := by
  induction stops generalizing root with
  | nil => rfl
  | cons stop rest ih =>
    have hstop := hs stop List.mem_cons_self
    have hrest : ∀ s ∈ rest, (root.acquireAt stop.path stop.node).holds s.path s.key = true :=
      fun s hm => holds_acquireAt h hstop (hs s (List.mem_cons_of_mem _ hm))
    rw [acquireEach_cons, ih (h.acquireAt stop.fresh_node _) hrest, outline_acquireAt hstop]

/-- The selector that the stop would give is there. -/
def Given (root : Container) (name : Bytes) (stop : Stop) : Prop :=
  ∀ mark, stop.mark? name = some mark →
    (root.selectorsAt mark.1.1 mark.1.2).contains mark.2 = true

theorem outline_selectStop {name : Bytes} {stop : Stop} (hg : root.Given name stop) :
    (selectStop grant name root stop).outline = root.outline := by
  cases stop with
  | atRule rules rule => rfl
  | block rules selector declarations => exact outline_selectAt_grant (hg _ rfl)

theorem Given.selectStop (h : root.WellFormed) {name : Bytes} {stop other : Stop}
    (hs : root.holds stop.path stop.key = true) (hg : root.Given name other) :
    (selectStop grant name root stop).Given name other := by
  intro mark hm
  have hcount := ((h.sound_selectorsAt _ _).contains_iff _).mp (hg mark hm)
  rw [((h.selectStop moves_grant stop).sound_selectorsAt _ _).contains_iff,
    count_selectorsAt_selectStop moves_grant h hs]
  exact Nat.lt_of_lt_of_le hcount (Nat.le_add_right _ _)

/-- Further references to selectors that are there. -/
theorem outline_selectEach (h : root.WellFormed) {name : Bytes} {stops : List Stop}
    (hs : ∀ stop ∈ stops, root.holds stop.path stop.key = true ∧ root.Given name stop) :
    (root.selectEach grant name stops).outline = root.outline := by
  induction stops generalizing root with
  | nil => rfl
  | cons stop rest ih =>
    obtain ⟨hheld, hgiven⟩ := hs stop List.mem_cons_self
    have hrest : ∀ s ∈ rest, (selectStop grant name root stop).holds s.path s.key = true ∧
        (selectStop grant name root stop).Given name s := by
      intro s hm
      obtain ⟨hh, hg⟩ := hs s (List.mem_cons_of_mem _ hm)
      rw [holds_selectStop]
      exact ⟨hh, hg.selectStop h hheld⟩
    rw [selectEach_cons, ih (h.selectStop moves_grant stop) hrest, outline_selectStop hgiven]

/-! ## A tree that is there -/

/-- Every node and every selector of the tree is there. -/
structure Has (root : Container) (styles : Layer) : Prop where
  wellFormed : root.WellFormed
  node : ∀ stop ∈ styles.stops, root.holds stop.path stop.key = true
  selector : ∀ stop ∈ styles.stops, root.Given styles.className stop

theorem WellFormed.has_registered (h : root.WellFormed) (styles : Layer) :
    (root.registered styles).Has styles where
  wellFormed := h.registered styles
  node stop hs := holds_of_mem_held (by rwa [held_registered h])
  selector stop hs mark hm := by
    have hsound := (h.registered styles).sound_selectorsAt mark.1.1 mark.1.2
    have hpos : 0 < styles.selectorReferences mark.1.1 mark.1.2 mark.2 :=
      List.count_pos_iff.mpr (List.mem_filterMap.mpr ⟨stop, hs, hm⟩)
    rw [hsound.contains_iff, count_selectorsAt_registered h]
    exact Nat.lt_of_lt_of_le hpos (Nat.le_add_left _ _)

theorem Has.outline_registered {styles : Layer} (h : root.Has styles) :
    (root.registered styles).outline = root.outline := by
  have hw := h.wellFormed.acquireEach styles.stops
  have hg := h.wellFormed.grounded styles
  have hthere : ∀ stop ∈ styles.stops,
      (root.acquireEach styles.stops).holds stop.path stop.key = true ∧
        (root.acquireEach styles.stops).Given styles.className stop := by
    intro stop hs
    refine ⟨?_, fun mark hm => ?_⟩
    · rw [hw.holds_iff, countAt_acquireEach hg]
      exact Nat.lt_of_lt_of_le (Layer.references_pos hs) (Nat.le_add_left _ _)
    · rw [selectorsAt_acquireEach hg]
      exact h.selector stop hs mark hm
  rw [registered, outline_selectEach hw hthere, outline_acquireEach h.wellFormed h.node]

end Container

/-! ## Registering again -/

namespace Forest

variable {forest : Forest} {styles : Layer}

/-- Nothing comes where every node is there. -/
theorem arrivals_of_holds (h : forest.root.WellFormed) {stops : List Stop}
    (hs : ∀ stop ∈ stops, forest.root.holds stop.path stop.key = true) :
    forest.arrivals stops = [] := by
  induction stops generalizing forest with
  | nil => rfl
  | cons stop rest ih =>
    have hstop := hs stop List.mem_cons_self
    have htold := told_acquire (Container.isSome_bodyIn?_of_holds hstop) stop.node
    have hheld : forest.root.holds stop.path stop.node.key = true := hstop
    rw [if_pos hheld, Option.map_eq_none_iff] at htold
    have hroot : (forest.visit stop).1.root = forest.root.acquireAt stop.path stop.node := by
      rw [visit_fst]
    have hw : (forest.visit stop).1.root.WellFormed := by
      rw [hroot]
      exact h.acquireAt stop.fresh_node _
    have hrest : ∀ s ∈ rest, (forest.visit stop).1.root.holds s.path s.key = true := by
      intro s hm
      rw [hroot]
      exact Container.holds_acquireAt h hstop (hs s (List.mem_cons_of_mem _ hm))
    rw [arrivals, ih hw hrest, visit, htold]
    rfl

/-- Registers a tree so many times, with what is told of it. -/
def registerTimes (forest : Forest) (styles : Layer) : Nat → Forest × List Event
  | 0 => (forest, [])
  | times + 1 =>
    let outcome := forest.register (forest.place .root) styles
    let (last, events) := outcome.forest.registerTimes styles times
    (last, outcome.events ++ events)

theorem registerTimes_of_has (h : forest.root.Has styles) (times : Nat) :
    let (last, events) := forest.registerTimes styles times
    last.root.outline = forest.root.outline ∧ events = [] ∧
    (∀ path key, last.root.countAt path key =
      forest.root.countAt path key + times * styles.references path key) ∧
    ∀ path key selector, (last.root.selectorsAt path key).count selector =
      (forest.root.selectorsAt path key).count selector +
        times * styles.selectorReferences path key selector := by
  induction times generalizing forest with
  | zero => simp [registerTimes]
  | succ times ih =>
    have hw := h.wellFormed
    have hroot : (forest.register (forest.place .root) styles).forest.root =
        forest.root.registered styles := by rw [register_eq]
    have hevents : (forest.register (forest.place .root) styles).events = [] := by
      rw [register_eq]
      exact arrivals_of_holds hw h.node
    obtain ⟨houtline, hsilent, hcount, hselector⟩ :=
      @ih (forest.register (forest.place .root) styles).forest
        (hroot ▸ hw.has_registered styles)
    rw [hroot] at houtline hcount hselector
    refine ⟨houtline.trans h.outline_registered, ?_, fun path key => ?_,
      fun path key selector => ?_⟩
    · show (forest.register (forest.place .root) styles).events ++ _ = []
      rw [hevents, hsilent, List.append_nil]
    · refine (hcount path key).trans ?_
      rw [Container.countAt_registered hw, Nat.add_assoc, Nat.succ_mul, Nat.add_comm _ (times * _)]
    · refine (hselector path key selector).trans ?_
      rw [Container.count_selectorsAt_registered hw, Nat.add_assoc, Nat.succ_mul,
        Nat.add_comm _ (times * _)]

/-- **Registering again changes counts only.** In any well-formed container, once
a tree is registered any number of further registrations leaves the texts of all
nodes and selectors in their order, at every depth, and what is printed. Nothing
is told of them in any container. Each raises every count by the number of times
that the tree's walk refers to the node or the selector. -/
theorem register_again (h : forest.root.WellFormed) (styles : Layer) (times : Nat) :
    let first := (forest.register (forest.place .root) styles).forest
    let (last, events) := first.registerTimes styles times
    last.root.outline = first.root.outline ∧ last.root.render = first.root.render ∧ events = [] ∧
    (∀ path key, last.root.countAt path key =
      first.root.countAt path key + times * styles.references path key) ∧
    ∀ path key selector, (last.root.selectorsAt path key).count selector =
      (first.root.selectorsAt path key).count selector +
        times * styles.selectorReferences path key selector := by
  intro first
  have hroot : first.root = forest.root.registered styles := by
    rw [show first = _ from congrArg Outcome.forest (register_eq styles)]
  have hhas : first.root.Has styles := hroot ▸ h.has_registered styles
  obtain ⟨houtline, hevents, hcount, hselector⟩ := registerTimes_of_has hhas times
  refine ⟨houtline, ?_, hevents, hcount, hselector⟩
  rw [← Container.render_outline, houtline, Container.render_outline]

theorem register_again_printed :
    let first := ((ofContainer .empty).register ((ofContainer .empty).place .root) printed).forest
    (first.registerTimes printed 2).1.root.render = first.root.render ∧
      (first.registerTimes printed 2).1.root.countAt [] (Key.style (ascii "color:red;")) = 6 := by
  obtain ⟨-, hrender, -, hcount, -⟩ :=
    @register_again (ofContainer .empty) Container.WellFormed.empty printed 2
  exact ⟨hrender, (hcount _ _).trans (by decide +kernel)⟩

end Forest
end StyleRegistry
