import StyleRegistry.Rule.Registration
import StyleRegistry.Proofs.Rule.Container

/-! # Stops

The walks that register a tree and that undo it visit the same stops: each
declaration block with its selector, and each at-rule before the blocks below
it, in pre-order. A stop is one reference, so the stops of a tree are what it
contributes to a container, and the texts of its stops are what its class is
named after. -/
namespace StyleRegistry

/-! ## Stops of a tree -/

/-- One reference of a walk, below the at-rules of the given texts. -/
inductive Stop where
  | block (rules : List Bytes) (selector declarations : Bytes)
  | atRule (rules : List Bytes) (rule : Bytes)
  deriving DecidableEq

namespace Stop

def rules : Stop → List Bytes
  | .block rules _ _ => rules
  | .atRule rules _ => rules

/-- The way to the container of the reference. -/
def path (stop : Stop) : List Bytes := stop.rules.map Key.atRule

def node : Stop → Node
  | .block _ _ declarations => Node.fresh declarations
  | .atRule _ rule => Node.freshAtRule rule

def key (stop : Stop) : Bytes := stop.node.key

def slot (stop : Stop) : List Bytes × Bytes := (stop.path, stop.key)

/-- What the class name is mixed from at the stop. -/
def texts : Stop → List Bytes
  | .block _ selector declarations => [selector, declarations]
  | .atRule _ _ => []

def selector? : Stop → Option Bytes
  | .block _ selector _ => some selector
  | .atRule _ _ => none

theorem slot_eq_iff {stop : Stop} {path : List Bytes} {key : Bytes} :
    stop.slot = (path, key) ↔ path = stop.path ∧ key = stop.node.key := by
  rw [slot, Stop.key, Prod.mk.injEq, eq_comm, @eq_comm _ stop.node.key]

theorem count_slot_cons (stop : Stop) (stops : List Stop) (path : List Bytes) (key : Bytes) :
    ((stop :: stops).map slot).count (path, key) =
      (if path = stop.path ∧ key = stop.key then 1 else 0) +
        (stops.map slot).count (path, key) := by
  rw [List.map_cons, List.count_cons, Nat.add_comm]
  exact congrArg (· + _) (if_congr (beq_iff_eq.trans slot_eq_iff) rfl rfl)

theorem fresh_node (stop : Stop) : stop.node.Fresh := by
  cases stop <;> simp [node, Node.fresh, Node.freshAtRule, Node.Fresh, Node.body?, Node.selectors?]

end Stop

namespace Block

mutual

def stops (rules : List Bytes) (selector : Bytes) : Block → List Stop
  | .mk declarations children =>
    .block rules selector declarations :: stopsAll rules selector children

def stopsAll (rules : List Bytes) (selector : Bytes) : List (Bytes × Block) → List Stop
  | [] => []
  | (key, block) :: rest =>
    (if Selector.isAtRule key then .atRule rules key :: stops (rules ++ [key]) selector block
      else stops rules (Selector.interpolate key selector) block) ++ stopsAll rules selector rest

end

mutual

theorem length_stops (rules : List Bytes) (selector : Bytes) :
    ∀ block : Block, (block.stops rules selector).length + 1 ≤ 2 * block.size
  | .mk declarations children => by
    have ih := length_stopsAll rules selector children
    rw [stops, size, List.length_cons]
    omega

theorem length_stopsAll (rules : List Bytes) (selector : Bytes) :
    ∀ children : List (Bytes × Block),
      (stopsAll rules selector children).length ≤ 2 * sizeAll children
  | [] => Nat.zero_le _
  | (key, block) :: rest => by
    have ih := length_stopsAll rules selector rest
    rw [stopsAll, sizeAll, List.length_append]
    split
    · have hb := length_stops (rules ++ [key]) selector block
      rw [List.length_cons]
      omega
    · have hb := length_stops rules (Selector.interpolate key selector) block
      omega

end

mutual

/-- The at-rules that a stop stands below are stops themselves. -/
theorem atRule_mem_stops {rules : List Bytes} {selector : Bytes} {stop : Stop} :
    ∀ {block : Block}, stop ∈ block.stops rules selector → ∃ post, stop.rules = rules ++ post ∧
      ∀ pre rule, pre ++ [rule] <+: post →
        .atRule (rules ++ pre) rule ∈ block.stops rules selector
  | .mk declarations children, h => by
    unfold stops at h ⊢
    rcases List.mem_cons.mp h with rfl | h
    · exact ⟨[], (List.append_nil rules).symm, by simp⟩
    · obtain ⟨post, hr, hp⟩ := atRule_mem_stopsAll h
      exact ⟨post, hr, fun pre rule hpre => List.mem_cons_of_mem _ (hp pre rule hpre)⟩

theorem atRule_mem_stopsAll {rules : List Bytes} {selector : Bytes} {stop : Stop} :
    ∀ {children : List (Bytes × Block)}, stop ∈ stopsAll rules selector children →
      ∃ post, stop.rules = rules ++ post ∧ ∀ pre rule, pre ++ [rule] <+: post →
        .atRule (rules ++ pre) rule ∈ stopsAll rules selector children
  | [], h => absurd h List.not_mem_nil
  | (key, block) :: rest, h => by
    unfold stopsAll at h ⊢
    rcases List.mem_append.mp h with h | h
    · split at h
      · rename_i hk
        rw [if_pos hk]
        rcases List.mem_cons.mp h with rfl | h
        · exact ⟨[], (List.append_nil rules).symm, by simp⟩
        · obtain ⟨post, hr, hp⟩ := atRule_mem_stops h
          refine ⟨key :: post, by rw [hr, List.append_assoc]; rfl, ?_⟩
          intro pre rule hpre
          cases pre with
          | nil =>
            obtain ⟨rfl, -⟩ := List.cons_prefix_cons.mp hpre
            simp
          | cons first pre =>
            obtain ⟨rfl, ht⟩ := List.cons_prefix_cons.mp hpre
            have hm := hp pre rule ht
            rw [List.append_assoc] at hm
            exact List.mem_append_left _ (List.mem_cons_of_mem _ hm)
      · rename_i hk
        rw [if_neg hk]
        obtain ⟨post, hr, hp⟩ := atRule_mem_stops h
        exact ⟨post, hr, fun pre rule hpre => List.mem_append_left _ (hp pre rule hpre)⟩
    · obtain ⟨post, hr, hp⟩ := atRule_mem_stopsAll h
      exact ⟨post, hr, fun pre rule hpre => List.mem_append_right _ (hp pre rule hpre)⟩

end

end Block

namespace Layer

/-- The stops of a tree that is registered in the root container. -/
def stops (styles : Layer) : List Stop := styles.compile.stops [] Selector.root

/-- What the class name of a tree is mixed from, in order. -/
def texts (styles : Layer) : List Bytes := styles.stops.flatMap Stop.texts

def className (styles : Layer) : Bytes := Hash.text (Hash.chain 0 styles.texts)

/-- How many times the walk of a tree refers to a key in the container at a way. -/
def references (styles : Layer) (path : List Bytes) (key : Bytes) : Nat :=
  (styles.stops.map Stop.slot).count (path, key)

end Layer

/-! ## Selectors of a class -/

namespace Selector

/-- A selector relative to a tree, below the tree's class. -/
def below (name selector : Bytes) : Selector := ⟨interpolate selector (ofClass name)⟩

end Selector

/-- The block and the selector's key that a stop marks when the class is named. -/
def Stop.mark? (name : Bytes) (stop : Stop) : Option ((List Bytes × Bytes) × Bytes) :=
  stop.selector?.map fun selector => (stop.slot, Keyed.key (Selector.below name selector))

/-- How many times a tree gives a selector to the block under a key. -/
def Layer.selectorReferences (styles : Layer) (path : List Bytes) (key selector : Bytes) : Nat :=
  (styles.stops.filterMap (Stop.mark? styles.className)).count ((path, key), selector)

namespace Layer

theorem mem_slots_of_references {styles : Layer} {path : List Bytes} {key : Bytes}
    (h : 0 < styles.references path key) :
    ∃ stop ∈ styles.stops, stop.path = path ∧ stop.key = key := by
  obtain ⟨stop, hs, he⟩ := List.mem_map.mp (List.count_pos_iff.mp h)
  exact ⟨stop, hs, congrArg Prod.fst he, congrArg Prod.snd he⟩

theorem references_pos {styles : Layer} {stop : Stop} (h : stop ∈ styles.stops) :
    0 < styles.references stop.path stop.key :=
  List.count_pos_iff.mpr (List.mem_map_of_mem h)

/-- A tree that refers to something in a body refers to the body's at-rule. -/
theorem references_of_append {styles : Layer} {path : List Bytes} {last key : Bytes}
    (h : 0 < styles.references (path ++ [last]) key) :
    (∃ rule, last = Key.atRule rule) ∧ 0 < styles.references path last := by
  obtain ⟨stop, hs, hp, -⟩ := mem_slots_of_references h
  obtain ⟨pre, post, hr, rfl, hl⟩ := List.map_eq_append_iff.mp hp
  obtain ⟨rule, rfl, rfl⟩ := List.map_eq_singleton_iff.mp hl
  obtain ⟨rest, hrest, hm⟩ := Block.atRule_mem_stops hs
  obtain rfl : rest = pre ++ [rule] := hrest.symm.trans hr
  exact ⟨⟨rule, rfl⟩, references_pos (hm pre rule List.prefix_rfl)⟩

theorem references_of_selectorReferences {styles : Layer} {path : List Bytes} {key selector : Bytes}
    (h : 0 < styles.selectorReferences path key selector) : 0 < styles.references path key := by
  obtain ⟨stop, hs, hm⟩ := List.mem_filterMap.mp (List.count_pos_iff.mp h)
  obtain ⟨text, -, he⟩ := Option.map_eq_some_iff.mp hm
  obtain ⟨rfl, rfl⟩ := Prod.mk.inj (congrArg Prod.fst he)
  exact references_pos hs

end Layer

end StyleRegistry
