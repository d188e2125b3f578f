import StyleRegistry.Proofs.Rule.Registration
import StyleRegistry.Proofs.Style.Interpolation

/-! # What a class is named after

The class name of a tree is a 32-bit hash of a stream: the selectors and the
declarations of its blocks, one after another. The stream has no marks between
the texts, so it determines them only together with their lengths. Where an
ampersand stands at the head of each selector and nowhere else, it marks where
a block begins, and the stream determines the blocks up to the place where the
selector ends and the declarations start. -/
namespace StyleRegistry

open Bytes (ascii)
open Selector (ampersand)

/-! ## Streams -/

/-- The block of a stop: at-rules on the way, selector, declarations. -/
def Stop.block? : Stop → Option (List Bytes × Bytes × Bytes)
  | .block rules selector declarations => some (rules, selector, declarations)
  | .atRule _ _ => none

namespace Layer

/-- The blocks of a tree in pre-order. -/
def compiled (styles : Layer) : List (List Bytes × Bytes × Bytes) :=
  styles.stops.filterMap Stop.block?

/-- The blocks without their at-rules. -/
def pairs (styles : Layer) : List (Bytes × Bytes) := styles.compiled.map (·.2)

/-- The bytes that the class name of a tree is mixed from. -/
def stream (styles : Layer) : Bytes := styles.texts.flatten

/-- Each block's selector and declarations as one text. -/
def blockTexts (styles : Layer) : List Bytes := styles.pairs.map fun pair => pair.1 ++ pair.2

theorem texts_eq (styles : Layer) :
    styles.texts = styles.pairs.flatMap fun pair => [pair.1, pair.2] := by
  unfold texts pairs compiled
  induction styles.stops with
  | nil => rfl
  | cons stop rest ih =>
    cases stop with
    | block rules selector declarations =>
      rw [List.flatMap_cons, ih]
      rfl
    | atRule rules rule =>
      rw [List.flatMap_cons, ih]
      rfl

theorem stream_eq (styles : Layer) : styles.stream = styles.blockTexts.flatten := by
  rw [stream, texts_eq, blockTexts]
  induction styles.pairs with
  | nil => rfl
  | cons pair rest ih =>
    rw [List.flatMap_cons, List.flatten_append, ih, List.map_cons, List.flatten_cons]
    simp

end Layer

/-- Two lists of pairs are equal if the lists of their components are. -/
theorem flatMap_pair_inj {α : Type} {first second : List (α × α)}
    (h : (first.flatMap fun pair => [pair.1, pair.2]) =
      second.flatMap fun pair => [pair.1, pair.2]) : first = second := by
  induction first generalizing second with
  | nil =>
    cases second with
    | nil => rfl
    | cons pair second => cases h
  | cons pair first ih =>
    cases second with
    | nil => cases h
    | cons pair' second =>
      obtain ⟨ha, h⟩ := List.cons.inj h
      obtain ⟨hb, h⟩ := List.cons.inj h
      rw [Prod.ext ha hb, ih h]

/-! ## Marks -/

/-- A text that starts with an ampersand and has no other. -/
def Marked (text : Bytes) : Prop := ∃ rest, text = ampersand :: rest ∧ ampersand ∉ rest

theorem Marked.append {text : Bytes} (h : Marked text) {tail : Bytes} (ht : ampersand ∉ tail) :
    Marked (text ++ tail) := by
  obtain ⟨rest, rfl, hr⟩ := h
  exact ⟨rest ++ tail, rfl, by simp [hr, ht]⟩

theorem marked_root : Marked Selector.root := ⟨[], rfl, List.not_mem_nil⟩

/-- The next mark ends a text. -/
theorem takeWhile_flatten {text : Bytes} (ht : ampersand ∉ text) {texts : List Bytes}
    (h : ∀ text ∈ texts, Marked text) :
    (text ++ texts.flatten).takeWhile (· != ampersand) = text := by
  have hp : ∀ b ∈ text, (b != ampersand) = true := by
    intro b hb
    rw [bne_iff_ne]
    rintro rfl
    exact ht hb
  rw [List.takeWhile_append_of_pos hp]
  cases texts with
  | nil => simp
  | cons first rest =>
    obtain ⟨tail, rfl, -⟩ := h first List.mem_cons_self
    simp

/-- Marked texts can be told apart in their concatenation. -/
theorem flatten_marked_inj {first second : List Bytes} (hf : ∀ text ∈ first, Marked text)
    (hs : ∀ text ∈ second, Marked text) (h : first.flatten = second.flatten) :
    first = second := by
  induction first generalizing second with
  | nil =>
    cases second with
    | nil => rfl
    | cons text second =>
      obtain ⟨rest, rfl, -⟩ := hs text List.mem_cons_self
      cases h
  | cons text first ih =>
    obtain ⟨rest, rfl, hr⟩ := hf text List.mem_cons_self
    cases second with
    | nil => cases h
    | cons text' second =>
      obtain ⟨rest', rfl, hr'⟩ := hs text' List.mem_cons_self
      have hf' : ∀ text ∈ first, Marked text := fun t ht => hf t (List.mem_cons_of_mem _ ht)
      have hs' : ∀ text ∈ second, Marked text := fun t ht => hs t (List.mem_cons_of_mem _ ht)
      have htail : rest ++ first.flatten = rest' ++ second.flatten := (List.cons.inj h).2
      -- What is left of the first text runs up to the next mark, on both sides.
      have hrest : rest = rest' := by
        rw [← takeWhile_flatten hr hf', htail, takeWhile_flatten hr' hs']
      subst hrest
      rw [ih hf' hs' (List.append_cancel_left htail)]

/-! ## Plain trees -/

namespace Block

mutual

/-- The ampersand stands nowhere in declarations, and only first in the
selectors of nested blocks. -/
def plain : Block → Bool
  | .mk declarations children => !declarations.contains ampersand && plainAll children

def plainAll : List (Bytes × Block) → Bool
  | [] => true
  | (key, block) :: rest =>
    (Selector.isAtRule key || !(key.drop 1).contains ampersand) && plain block && plainAll rest

end

end Block

theorem marked_interpolate {parent : Bytes} (hp : Marked parent) {key : Bytes}
    (hk : (key.drop 1).contains ampersand = false) : Marked (Selector.interpolate key parent) := by
  by_cases hm : ampersand ∈ key
  · cases key with
    | nil => cases hm
    | cons first tail =>
      have ht : ampersand ∉ tail := by simpa using hk
      obtain rfl := (List.mem_cons.mp hm).resolve_right ht
      rw [Selector.interpolate_of_mem hm, Selector.fill, List.flatMap_cons, if_pos rfl,
        ← Selector.fill, Selector.fill_of_not_mem ht]
      exact hp.append ht
  · rw [Selector.interpolate_of_not_mem hm]
    exact (hp.append Selector.not_mem_space).append hm

/-- A stop whose selector is marked, with declarations that have no mark. -/
def Stop.Plain : Stop → Prop
  | .block _ selector declarations => Marked selector ∧ ampersand ∉ declarations
  | .atRule _ _ => True

namespace Block

mutual

theorem plain_stops {rules : List Bytes} {selector : Bytes} (hs : Marked selector) :
    ∀ {block : Block}, block.plain = true → ∀ stop ∈ block.stops rules selector, stop.Plain
  | .mk declarations children, h => by
    rw [plain, Bool.and_eq_true, Bool.not_eq_true'] at h
    unfold stops
    intro stop hm
    rcases List.mem_cons.mp hm with rfl | hm
    · exact ⟨hs, by simpa using h.1⟩
    · exact plain_stopsAll hs h.2 stop hm

theorem plain_stopsAll {rules : List Bytes} {selector : Bytes} (hs : Marked selector) :
    ∀ {children : List (Bytes × Block)}, plainAll children = true →
      ∀ stop ∈ stopsAll rules selector children, stop.Plain
  | [], _ => by simp [stopsAll]
  | (key, block) :: rest, h => by
    rw [plainAll, Bool.and_eq_true, Bool.and_eq_true] at h
    obtain ⟨⟨hk, hb⟩, hr⟩ := h
    unfold stopsAll
    intro stop hm
    rcases List.mem_append.mp hm with hm | hm
    · split at hm
      · rcases List.mem_cons.mp hm with rfl | hm
        · trivial
        · exact plain_stops hs hb stop hm
      · rename_i ha
        have hk : (key.drop 1).contains ampersand = false := by simpa [ha] using hk
        exact plain_stops (marked_interpolate hs hk) hb stop hm
    · exact plain_stopsAll hs hr stop hm

end

end Block

theorem marked_blockTexts {styles : Layer} (h : styles.compile.plain = true) :
    ∀ text ∈ styles.blockTexts, Marked text := by
  intro text ht
  obtain ⟨pair, hp, rfl⟩ := List.mem_map.mp ht
  obtain ⟨block, hb, rfl⟩ := List.mem_map.mp hp
  obtain ⟨stop, hs, hc⟩ := List.mem_filterMap.mp hb
  have hplain := Block.plain_stops marked_root h stop hs
  cases stop with
  | block rules selector declarations =>
    obtain rfl := Option.some.inj hc
    exact hplain.1.append hplain.2
  | atRule rules rule => cases hc

/-! ## What a stream determines -/

namespace Layer

variable {first second : Layer}

/-- With the lengths of its texts, a stream determines the blocks. -/
theorem pairs_eq_of_stream (hs : first.stream = second.stream)
    (hl : first.texts.map List.length = second.texts.map List.length) :
    first.pairs = second.pairs := by
  have ht : first.texts = second.texts := List.eq_iff_flatten_eq.mpr ⟨hs, hl⟩
  rw [texts_eq, texts_eq] at ht
  exact flatMap_pair_inj ht

theorem stream_eq_iff (hf : first.compile.plain = true) (hs : second.compile.plain = true) :
    first.stream = second.stream ↔ first.blockTexts = second.blockTexts := by
  rw [stream_eq, stream_eq]
  exact ⟨flatten_marked_inj (marked_blockTexts hf) (marked_blockTexts hs), congrArg List.flatten⟩

/-- Blocks with selectors of known lengths fall apart in one way only. -/
theorem pairs_eq_of_blockTexts {pairs pairs' : List (Bytes × Bytes)}
    (ht : (pairs.map fun pair => pair.1 ++ pair.2) = pairs'.map fun pair => pair.1 ++ pair.2)
    (hl : (pairs.map fun pair => pair.1.length) = pairs'.map fun pair => pair.1.length) :
    pairs = pairs' := by
  induction pairs generalizing pairs' with
  | nil => exact (List.map_eq_nil_iff.mp ht.symm).symm
  | cons pair pairs ih =>
    obtain ⟨pair', pairs', rfl, hhead, ht⟩ := List.map_eq_cons_iff.mp ht.symm
    obtain ⟨hlen, hl⟩ := List.cons.inj hl
    obtain ⟨ha, hb⟩ := List.append_inj hhead.symm hlen
    rw [Prod.ext ha hb, ih ht.symm hl]

theorem className_eq_iff :
    first.className = second.className ↔ Hash.chain 0 first.texts = Hash.chain 0 second.texts :=
  ⟨Hash.text_injective, congrArg Hash.text⟩

/-- **A stream determines its blocks up to a cut.** At-rules are not in the
stream. Trees with different selectors and declarations have different streams
if their texts have the same lengths, and plain trees have if their selectors
do: the streams of plain trees agree just when their blocks do, each taken as
one text. Registering names one class for two trees, in whatever containers,
just when the 32-bit hashes of their texts collide. -/
theorem stream_determines_blocks (first second : Layer) :
    (first.pairs ≠ second.pairs →
      first.texts.map List.length = second.texts.map List.length →
        first.stream ≠ second.stream) ∧
    (first.compile.plain = true → second.compile.plain = true →
      (first.stream = second.stream ↔ first.blockTexts = second.blockTexts) ∧
      (first.pairs ≠ second.pairs →
        (first.pairs.map fun pair => pair.1.length) = (second.pairs.map fun pair => pair.1.length) →
          first.stream ≠ second.stream)) ∧
    (∀ forest other : Forest,
      (forest.register (forest.place .root) first).className =
          (other.register (other.place .root) second).className ↔
        Hash.chain 0 first.texts = Hash.chain 0 second.texts) := by
  refine ⟨fun hp hl hs => hp (pairs_eq_of_stream hs hl), fun hf hs => ?_, fun forest other => ?_⟩
  · have hiff := stream_eq_iff hf hs
    exact ⟨hiff, fun hp hl he => hp (pairs_eq_of_blockTexts (hiff.mp he) hl)⟩
  · rw [Forest.register_eq, Forest.register_eq]
    exact className_eq_iff

/-- The same declaration at the top and below a selector. -/
theorem streams_differ_of_place :
    let red : Layer := [(ascii "color", .scalar (.text (ascii "red")))]
    stream red ≠ stream [(ascii ".x", .nested red)] := by
  intro red hs
  have cut := stream_determines_blocks red [(ascii ".x", .nested red)]
  exact absurd ((cut.2.1 (by decide) (by decide)).1.mp hs) (by decide)

/-- Neither the text of an at-rule nor the end of a selector is in the stream. -/
theorem stream_eq_of_different :
    let red : Layer := [(ascii "color", .scalar (.text (ascii "red")))]
    let print : Layer := [(ascii "@media print", .nested red)]
    let screen : Layer := [(ascii "@media screen", .nested red)]
    let short : Layer := [(ascii ".a", .nested red)]
    let long : Layer := [(ascii ".ac", .nested [(ascii "olor", .scalar (.text (ascii "red")))])]
    (compiled print ≠ compiled screen ∧ stream print = stream screen) ∧
      compiled short ≠ compiled long ∧ stream short = stream long := by
  decide +kernel

end Layer
end StyleRegistry
