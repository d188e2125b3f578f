import StyleRegistry.Proofs.Rule.Naming

/-! # The selectors that registering adds

A walk builds the selectors of its blocks relative to an ampersand, since the
class is not known until the walk has met all of them. Then each selector is
put below the class. Every layer ends up with the selector that its way of keys
resolves to from the class down. -/
namespace StyleRegistry

open Bytes (ascii)
open Selector (rulesOf resolve ofClass ampersand)

/-! ## Below a class -/

theorem Selector.below_resolve (name : Bytes) (keys : List Bytes) :
    Selector.below name (resolve Selector.root keys) = ⟨resolve (ofClass name) keys⟩ := by
  rw [Selector.below, Selector.interpolate_resolve Selector.mem_root, Selector.interpolate_root]

theorem Stop.selector?_eq (stop : Stop) : stop.selector? = stop.block?.map fun met => met.2.1 := by
  cases stop <;> rfl

namespace Layer

theorem selectors_stops (styles : Layer) : styles.stops.filterMap Stop.selector? =
    (styles.preorder []).map fun visit => resolve Selector.root visit.1 := by
  have hs : Stop.selector? = fun stop => stop.block?.map fun met => met.2.1 :=
    funext Stop.selector?_eq
  rw [hs, ← List.map_filterMap, ← compiled, compiled_eq_preorder, List.map_map]
  rfl

/-- A layer is met at a stop of the tree. -/
theorem Within.mem_stops {styles layer : Layer} {keys : List Bytes} (h : Within styles keys layer) :
    .block (rulesOf keys) (resolve Selector.root keys) layer.text ∈ styles.stops := by
  have hm : met (keys, layer) ∈ styles.compiled := by
    rw [compiled_eq_preorder]
    exact List.mem_map_of_mem (mem_preorder_iff.mpr h)
  obtain ⟨stop, hs, hb⟩ := List.mem_filterMap.mp hm
  cases stop with
  | block rules selector declarations =>
    cases hb
    exact hs
  | atRule rules rule => cases hb

theorem selectorReferences_pos {styles : Layer} {stop : Stop} (h : stop ∈ styles.stops)
    {text : Bytes} (ht : stop.selector? = some text) :
    0 < styles.selectorReferences stop.path stop.key
      (Keyed.key (Selector.below styles.className text)) := by
  refine List.count_pos_iff.mpr (List.mem_filterMap.mpr ⟨stop, h, ?_⟩)
  rw [Stop.mark?, ht]
  rfl

end Layer

/-! ## Registering -/

namespace Container

/-- Gives the block of the layer at the end of a way one more reference to its
selector from the class down. -/
def resolveIn (name : Bytes) (root : Container) (visit : List Bytes × Layer) : Container :=
  root.selectAt ((rulesOf visit.1).map Key.atRule) (Key.style visit.2.text)
    (·.acquire ⟨resolve (ofClass name) visit.1⟩)

theorem selectEach_grant (name : Bytes) (stops : List Stop) (root : Container) :
    root.selectEach grant name stops =
      (stops.filterMap Stop.block?).foldl (fun root (rules, selector, declarations) =>
        root.selectAt (rules.map Key.atRule) (Key.style declarations)
          (grant (.below name selector))) root := by
  induction stops generalizing root with
  | nil => rfl
  | cons stop rest ih =>
    rw [selectEach_cons, ih]
    cases stop <;> rfl

theorem registered_eq (root : Container) (styles : Layer) : root.registered styles =
    (styles.preorder []).foldl (resolveIn styles.className) (root.acquireEach styles.stops) := by
  rw [registered, selectEach_grant, ← Layer.compiled, Layer.compiled_eq_preorder,
    List.foldl_map]
  congr 1
  funext root visit
  simp only [Layer.met, Selector.below_resolve]
  rfl

/-- Every layer's block has the layer's selector once the tree is registered. -/
theorem WellFormed.contains_resolved {root : Container} (h : root.WellFormed)
    {styles layer : Layer} {keys : List Bytes} (hl : Layer.Within styles keys layer) :
    ((root.registered styles).selectorsAt ((rulesOf keys).map Key.atRule)
        (Key.style layer.text)).contains
      (Key.selector (resolve (ofClass styles.className) keys)) = true := by
  have hpos := Layer.selectorReferences_pos hl.mem_stops rfl
  rw [Selector.below_resolve] at hpos
  have hsound := (h.registered styles).sound_selectorsAt ((rulesOf keys).map Key.atRule)
    (Key.style layer.text)
  refine (hsound.contains_iff _).mpr ?_
  rw [count_selectorsAt_registered h]
  exact Nat.add_pos_right _ hpos

end Container

/-- **Selectors are those of their ways, from the class down.** Registering first
takes the tree's references and then gives the blocks of its layers, in
pre-order, the selectors that the layers' ways resolve to. It makes no
difference that the walk resolves them below an ampersand and puts the class in
at the end, wherever the walk takes place and whatever listeners do meanwhile. -/
theorem Forest.selectors_register (forest : Forest) (styles : Layer) :
    let outcome := forest.register (forest.place .root) styles
    let name := outcome.className
    outcome.forest = ⟨(styles.preorder []).foldl (Container.resolveIn name)
      (forest.root.acquireEach styles.stops), forest.evictions⟩ ∧
    (∀ (keys : List Bytes) (layer : Layer), Layer.Within styles keys layer →
      Selector.interpolate (resolve Selector.root keys) (ofClass name) =
          resolve (ofClass name) keys ∧
        ampersand ∉ resolve (ofClass name) keys ∧
        (forest.root.WellFormed →
          (outcome.forest.root.selectorsAt ((rulesOf keys).map Key.atRule)
              (Key.style layer.text)).contains
            (Key.selector (resolve (ofClass name) keys)) = true)) ∧
    ∀ (place : Place) (forests : List Forest),
      let walk := (Walk.start place styles.compile).through forests
      walk.tasks = [] →
        (walk.styled.map fun style => Selector.below walk.className style.selector) =
          (styles.preorder []).map fun visit => ⟨resolve (ofClass name) visit.1⟩ := by
  intro outcome name
  have hout : outcome = ⟨⟨forest.root.registered styles, forest.evictions⟩,
      forest.arrivals styles.stops, styles.className⟩ := forest.register_eq styles
  have hname : name = styles.className := congrArg Outcome.className hout
  refine ⟨?_, fun keys layer hl => ⟨?_, ?_, fun hw => ?_⟩, ?_⟩
  · rw [hout, hname, Container.registered_eq]
  · exact congrArg Selector.text (Selector.below_resolve name keys)
  · rw [Selector.mem_resolve_iff, hname]
    exact Selector.not_mem_ofClass _
  · rw [hout, hname]
    exact hw.contains_resolved hl
  · intro place forests walk hd
    obtain ⟨hsel, hwalk⟩ := Walk.through_done place styles hd
    have hmap := congrArg (List.map (Selector.below name)) (hsel.trans styles.selectors_stops)
    rw [Walk.selectors, List.map_map, List.map_map] at hmap
    rw [show walk.className = name from hwalk.trans hname.symm]
    simpa only [Function.comp_def, Selector.below_resolve] using hmap

/-- Ampersands anywhere in the keys, on a way through an at-rule. -/
theorem Forest.selectors_register_mixed :
    let red : Layer := [(ascii "color", .scalar (.text (ascii "red")))]
    let styles : Layer :=
      [(ascii ".x", .nested [(ascii "@media print", .nested [(ascii " b&c ", .nested red)])])]
    let sheet := Forest.ofContainer .empty
    let outcome := sheet.register (sheet.place .root) styles
    let selector := ascii "b." ++ outcome.className ++ ascii " .xc"
    (outcome.forest.root.selectorsAt [Key.atRule (ascii "@media print")]
        (Key.style (ascii "color:red;"))).contains (Key.selector selector) = true ∧
      ampersand ∉ selector := by
  intro red styles sheet
  have hwithin : Layer.Within styles
      [Bytes.trim (ascii ".x"), Bytes.trim (ascii "@media print"), Bytes.trim (ascii " b&c ")] red :=
    .nested List.mem_cons_self (.nested List.mem_cons_self (.nested List.mem_cons_self (.top red)))
  have hways : [Bytes.trim (ascii ".x"), Bytes.trim (ascii "@media print"),
      Bytes.trim (ascii " b&c ")] = [ascii ".x", ascii "@media print", ascii "b&c"] := by decide
  have hrules : rulesOf [ascii ".x", ascii "@media print", ascii "b&c"] =
      [ascii "@media print"] := by decide
  have htext : Layer.text red = ascii "color:red;" := by decide
  have hresolve : ∀ name, resolve (ofClass name) [ascii ".x", ascii "@media print", ascii "b&c"] =
      ascii "b." ++ name ++ ascii " .xc" := by
    intro name
    simp [resolve, Selector.interpolate, Selector.isAtRule, ofClass, ampersand, ascii]
  rw [hways] at hwithin
  obtain ⟨-, hampersand, hcontains⟩ := (selectors_register sheet styles).2.1 _ _ hwithin
  have hcontains := hcontains .empty
  rw [hresolve] at hampersand hcontains
  rw [hrules, htext, List.map_singleton] at hcontains
  exact ⟨hcontains, hampersand⟩

end StyleRegistry
