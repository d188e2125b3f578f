import Mathlib.Data.Set.Subsingleton
import StyleRegistry.Proofs.Rule.Removal

/-! # Where stored texts come from

A key is the hash of a text, so a container may store any of the texts that
share a key; it keeps the one that came first. Whatever it stores was brought
by a tree that was registered, to just the slot where it is stored. So if the
trees bring only one text to a slot, that text is there whenever the slot is
held, in whatever order the trees came. -/
namespace StyleRegistry

open Forest (bodyIn?)

/-! ## Texts along a way -/

namespace Container

def textAt (root : Container) (path : List Bytes) (key : Bytes) : Option Bytes :=
  ((root.bodyAt path).item? key).map Node.text

theorem text_of_face {a b : Container} (h : a.face = b.face) (key : Bytes) :
    (a.item? key).map Node.text = (b.item? key).map Node.text := by
  have hf := congrArg (Option.map Face.text) (map_find?_of_face h key)
  simp only [Option.map_map] at hf
  simp only [Cache.item?, Option.map_map]
  exact hf

variable {root : Container} {path other : List Bytes} {key k : Bytes}

theorem isSome_textAt (root : Container) (path : List Bytes) (key : Bytes) :
    (root.textAt path key).isSome = root.holds path key := by
  rw [textAt, Option.isSome_map, Cache.item?_isSome, holds]

/-- A stored text stays; the text of a node is stored under an absent key. -/
theorem textAt_acquireAt {node : Node} (h : (bodyIn? root path).isSome) (hf : node.Fresh)
    (other : List Bytes) (k : Bytes) : (root.acquireAt path node).textAt other k =
      (root.textAt other k).or (if other = path ∧ k = node.key then some node.text else none) := by
  have hface := face_bodyAt_acquireAt h hf other
  by_cases ho : other = path
  · subst ho
    rw [textAt, bodyAt_acquireAt_self h, Cache.item?_acquire, textAt, Node.keyed_key]
    by_cases hk : k = node.key
    · cases hi : (root.bodyAt other).item? k <;> simp [hk]
    · simp [hk]
  · rw [if_neg ho] at hface
    rw [textAt, text_of_face hface, textAt, if_neg fun hc => ho hc.1, Option.or_none]

theorem textAt_of_releaseAt (h : root.WellFormed) {text : Bytes}
    (ht : (root.releaseAt path key).textAt other k = some text) :
    root.textAt other k = some text := by
  have hh : (root.releaseAt path key).holds other k = true := by
    rw [← isSome_textAt, ht]
    rfl
  have hface := face_bodyAt_releaseAt h (isSome_bodyIn?_of_holds hh)
  by_cases ho : other = path
  · subst ho
    rw [holds, bodyAt_releaseAt_self] at hh
    rw [textAt, bodyAt_releaseAt_self, (h.bodyAt other).tidy.sound.item?_release, if_pos hh] at ht
    exact ht
  · rw [if_neg ho] at hface
    rw [textAt, text_of_face hface] at ht
    exact ht

theorem textAt_selectAt (change : Cache Selector → Cache Selector) (other : List Bytes)
    (k : Bytes) : (root.selectAt path key change).textAt other k = root.textAt other k := by
  have ht : Node.text ∘ Node.mapSelectors change = Node.text := by
    funext node
    cases node <;> rfl
  by_cases ho : other = path
  · subst ho
    rw [textAt, bodyAt_selectAt_self, Cache.item?_updateItem, textAt]
    split
    · rw [Option.map_map, ht]
    · rfl
  · exact text_of_face (face_bodyAt_selectAt ho) k

theorem textAt_selectStop {change : Selector → Cache Selector → Cache Selector} {name : Bytes}
    (stop : Stop) (path : List Bytes) (key : Bytes) :
    (selectStop change name root stop).textAt path key = root.textAt path key := by
  cases stop with
  | block rules selector declarations => exact textAt_selectAt _ path key
  | atRule rules rule => rfl

end Container

/-! ## What trees bring -/

/-- The walk of one of the trees stores the text under the key if nothing else does. -/
def Brings (trees : List Layer) (path : List Bytes) (key text : Bytes) : Prop :=
  ∃ styles ∈ trees, ∃ stop ∈ styles.stops, stop.slot = (path, key) ∧ stop.node.text = text

/-- One of the trees gives the block under the key the selector. -/
def Gives (trees : List Layer) (path : List Bytes) (key : Bytes) (selector : Selector) : Prop :=
  ∃ styles ∈ trees, ∃ stop ∈ styles.stops, stop.slot = (path, key) ∧
    ∃ text, stop.selector? = some text ∧ selector = .below styles.className text

/-- All texts in a container come from the trees. -/
structure Drawn (root : Container) (trees : List Layer) : Prop where
  text : ∀ path key text, root.textAt path key = some text → Brings trees path key text
  selector : ∀ path key name selector,
    (root.selectorsAt path key).item? name = some selector → Gives trees path key selector

namespace Drawn

variable {root : Container} {trees more : List Layer} {styles : Layer}

theorem empty (trees : List Layer) : Drawn .empty trees where
  text path key text ht := by
    have hh : Container.holds .empty path key = true := by
      rw [← Container.isSome_textAt, ht]
      rfl
    exact absurd hh (Container.not_holds_empty path key)
  selector path key name selector hs := by
    rw [Container.selectorsAt_of_not_holds (Container.not_holds_empty path key)] at hs
    cases hs

theorem mono (h : Drawn root trees) (ht : trees ⊆ more) : Drawn root more where
  text path key text hs := by
    obtain ⟨styles, hm, hstop⟩ := h.text path key text hs
    exact ⟨styles, ht hm, hstop⟩
  selector path key name selector hs := by
    obtain ⟨styles, hm, hstop⟩ := h.selector path key name selector hs
    exact ⟨styles, ht hm, hstop⟩

theorem acquireAt (h : Drawn root trees) {stop : Stop} (hm : styles ∈ trees)
    (hs : stop ∈ styles.stops) (hb : (bodyIn? root stop.path).isSome) :
    Drawn (root.acquireAt stop.path stop.node) trees where
  text path key text ht := by
    rw [Container.textAt_acquireAt hb stop.fresh_node, Option.or_eq_some_iff] at ht
    rcases ht with ht | ⟨-, ht⟩
    · exact h.text path key text ht
    · split at ht
      · rename_i hslot
        exact ⟨styles, hm, stop, hs, Stop.slot_eq_iff.mpr hslot, Option.some.inj ht⟩
      · cases ht
  selector path key name selector ht := by
    rw [Container.selectorsAt_acquireAt hb stop.fresh_node] at ht
    exact h.selector path key name selector ht

theorem releaseAt (h : Drawn root trees) (hw : root.WellFormed) (path : List Bytes) (key : Bytes) :
    Drawn (root.releaseAt path key) trees where
  text other k text ht := h.text other k text (Container.textAt_of_releaseAt hw ht)
  selector other k name selector ht := by
    by_cases hh : (root.releaseAt path key).holds other k = true
    · rw [Container.selectorsAt_releaseAt hw hh] at ht
      exact h.selector other k name selector ht
    · rw [Container.selectorsAt_of_not_holds hh] at ht
      cases ht

/-- A change of selectors that only brings in what some tree gives. -/
def Fair (trees : List Layer) (change : Selector → Cache Selector → Cache Selector) (name : Bytes)
    (stop : Stop) : Prop :=
  ∀ text, stop.selector? = some text → ∀ selectors : Cache Selector, selectors.Sound →
    ∀ key selector, (change (.below name text) selectors).item? key = some selector →
      selectors.item? key = some selector ∨ Gives trees stop.path stop.key selector

theorem selectStop {change : Selector → Cache Selector → Cache Selector} {name : Bytes}
    {stop : Stop} (h : Drawn root trees) (hw : root.WellFormed)
    (hh : root.holds stop.path stop.key = true) (hf : Fair trees change name stop) :
    Drawn (Container.selectStop change name root stop) trees where
  text path key text ht := by
    rw [Container.textAt_selectStop] at ht
    exact h.text path key text ht
  selector path key k selector ht := by
    cases stop with
    | atRule rules rule => exact h.selector path key k selector ht
    | block rules text declarations =>
      rw [show (Container.selectStop change name root (.block rules text declarations)).selectorsAt
        path key = _ from Container.selectorsAt_selectAt hw hh path key] at ht
      split at ht
      · rename_i hslot
        obtain ⟨rfl, rfl⟩ := hslot
        rcases hf text rfl _ (hw.sound_selectorsAt _ _) k selector ht with ht | hg
        · exact h.selector _ _ k selector ht
        · exact hg
      · exact h.selector path key k selector ht

theorem selectEach {change : Selector → Cache Selector → Cache Selector} {move : Nat → Nat → Nat}
    (hc : Container.Moves change move) {name : Bytes} {stops : List Stop} (h : Drawn root trees)
    (hw : root.WellFormed) (hh : ∀ stop ∈ stops, root.holds stop.path stop.key = true)
    (hf : ∀ stop ∈ stops, Fair trees change name stop) :
    Drawn (root.selectEach change name stops) trees := by
  induction stops generalizing root with
  | nil => exact h
  | cons stop rest ih =>
    have hfirst := h.selectStop hw (hh stop List.mem_cons_self) (hf stop List.mem_cons_self)
    refine ih hfirst (hw.selectStop hc stop) ?_ ?_
    · intro other ho
      rw [Container.holds_selectStop]
      exact hh other (List.mem_cons_of_mem _ ho)
    · intro other ho
      exact hf other (List.mem_cons_of_mem _ ho)

theorem grantEach (h : Drawn root trees) (hm : styles ∈ trees) (hw : root.WellFormed)
    (hh : ∀ stop ∈ styles.stops, root.holds stop.path stop.key = true) :
    Drawn (root.selectEach Container.grant styles.className styles.stops) trees := by
  refine h.selectEach Container.moves_grant hw hh ?_
  intro stop hs text ht selectors _ key selector hi
  rw [Container.grant, Cache.item?_acquire, Option.or_eq_some_iff] at hi
  rcases hi with hi | ⟨-, hi⟩
  · exact .inl hi
  · split at hi
    · exact .inr ⟨styles, hm, stop, hs, rfl, text, ht, (Option.some.inj hi).symm⟩
    · cases hi

theorem revokeEach (h : Drawn root trees) (hw : root.WellFormed) (name : Bytes) {stops : List Stop}
    (hh : ∀ stop ∈ stops, root.holds stop.path stop.key = true) :
    Drawn (root.selectEach Container.revoke name stops) trees := by
  refine h.selectEach Container.moves_revoke hw hh ?_
  intro stop _ text _ selectors hs key selector hi
  rw [Container.revoke, hs.item?_release] at hi
  split at hi
  · exact .inl hi
  · cases hi

/-! ## Whole trees -/

theorem acquireEach {stops : List Stop} (h : Drawn root trees) (hm : styles ∈ trees)
    (hs : stops ⊆ styles.stops) (hg : root.Grounded stops) :
    Drawn (root.acquireEach stops) trees := by
  induction stops generalizing root with
  | nil => exact h
  | cons stop rest ih =>
    obtain ⟨hb, hrest⟩ := hg
    obtain ⟨hstop, hsub⟩ := List.cons_subset.mp hs
    exact ih (h.acquireAt hm hstop hb) hsub hrest

theorem registered (h : Drawn root trees) (hw : root.WellFormed) (hm : styles ∈ trees) :
    Drawn (root.registered styles) trees := by
  have hacquired := h.acquireEach hm (List.Subset.refl _) (hw.grounded styles)
  refine hacquired.grantEach hm (hw.acquireEach _) ?_
  intro stop hs
  rw [(hw.acquireEach _).holds_iff, Container.countAt_acquireEach (hw.grounded styles)]
  exact Nat.add_pos_right _ (Layer.references_pos hs)

theorem releaseEach {stops : List Stop} (h : Drawn root trees) (hw : root.WellFormed) :
    Drawn (root.releaseEach stops) trees := by
  induction stops generalizing root with
  | nil => exact h
  | cons stop rest ih => exact ih (h.releaseAt hw _ _) (hw.releaseAt _ _)

theorem undone (h : Drawn root trees) (hw : root.WellFormed) (styles : Layer) :
    Drawn (root.undone styles) trees :=
  (h.revokeEach hw _ fun _ => Container.holds_of_mem_held).releaseEach
    (hw.selectEach Container.moves_revoke _)

/-! ## Slots with one text -/

/-- Two look-ups that find something at the same time and can find only one thing. -/
theorem eq_of_subsingleton {α : Type} {found : Set α} (hone : found.Subsingleton)
    {a b : Option α} (hh : a.isSome = b.isSome) (ha : ∀ value, a = some value → value ∈ found)
    (hb : ∀ value, b = some value → value ∈ found) : a = b := by
  cases a with
  | none => exact (Option.isNone_iff_eq_none.mp (by rw [← Option.not_isSome, ← hh]; rfl)).symm
  | some value =>
    obtain ⟨stored, rfl⟩ := Option.isSome_iff_exists.mp hh.symm
    rw [hone (ha value rfl) (hb stored rfl)]

variable {other : Container} {path : List Bytes} {key : Bytes}

theorem textAt_eq (h : Drawn root trees) (ho : Drawn other trees)
    (hh : root.holds path key = other.holds path key)
    (hone : {text | Brings trees path key text}.Subsingleton) :
    root.textAt path key = other.textAt path key := by
  rw [← Container.isSome_textAt, ← Container.isSome_textAt] at hh
  exact eq_of_subsingleton hone hh (h.text path key) (ho.text path key)

theorem selector_eq (h : Drawn root trees) (ho : Drawn other trees) {name : Bytes}
    (hh : (root.selectorsAt path key).contains name = (other.selectorsAt path key).contains name)
    (hone : {selector | Gives trees path key selector ∧ Keyed.key selector = name}.Subsingleton)
    (hw : root.WellFormed) (hwo : other.WellFormed) :
    (root.selectorsAt path key).item? name = (other.selectorsAt path key).item? name := by
  have found : ∀ {stored : Container}, Drawn stored trees → stored.WellFormed →
      ∀ selector, (stored.selectorsAt path key).item? name = some selector →
        Gives trees path key selector ∧ Keyed.key selector = name := by
    intro stored hd hs selector hi
    exact ⟨hd.selector path key name selector hi, (hs.sound_selectorsAt path key).key_of_item? hi⟩
  rw [← Cache.item?_isSome, ← Cache.item?_isSome] at hh
  exact eq_of_subsingleton hone hh (found h hw) (found ho hwo)

end Drawn
end StyleRegistry
