import StyleRegistry.Sheet.Session
import StyleRegistry.Proofs.Rule.Undo
import StyleRegistry.Proofs.Style.Reordering

/-! # Registering in another order

A registration and its undoing see a tree only as the block it compiles to.
So reorderings of one tree register alike and undo alike, and a registration
that was made with one of them can be undone with any other. -/
namespace StyleRegistry

open Bytes (ascii)

namespace SheetSession

/-- Calls that begin alike run alike, if they can use up as much. -/
theorem World.run_congr {world : World} {call other : Call}
    (hc : world.call call = world.call other) (hm : callMass call = callMass other) :
    world.run call = world.run other := by
  have hbound : (world.start call).bound = (world.start other).bound := by
    simp [World.start, Run.bound, Run.totalMass, Frame.mass, Frame.cost, scriptMass, hm]
  have hstep : (world.start call).step = (world.start other).step := by
    simp only [World.start, Run.step, Run.advance, hc]
  have hpos : ∃ fuel, (world.start other).bound = fuel + 1 := by
    refine ⟨(world.start other).bound - 1, ?_⟩
    have hcost : 1 ≤ (world.start other).bound := by
      simp [World.start, Run.bound, Frame.cost, total]
    omega
  obtain ⟨fuel, hf⟩ := hpos
  have hsteps : (world.start call).steps (world.start call).bound =
      (world.start other).steps (world.start other).bound := by
    rw [hbound, hf, Run.steps, Run.steps, hstep]
    rfl
  rw [World.run, World.run, hsteps]

end SheetSession

namespace Layer.Reorders

open SheetSession (World)

/-- **The order of entries does not matter.** Trees that differ only by the
order of their entries, at any depths, name one class, leave one container and
tell the same changes when they are registered in any container, and likewise
when they are undone. On a sheet this holds with listeners that call again:
they are told the same and all that they do is the same. So a registration
that was made with one order is undone by any other. -/
theorem register_unregister_eq {a b : Layer} (h : Layer.Reorders a b) (ha : a.Proper) :
    (∀ (forest : Forest) (place : Place),
      forest.register place b = forest.register place a ∧
      forest.unregister place b = forest.unregister place a) ∧
    (∀ (world : World) (sheet : Nat),
      world.run (.register sheet b) = world.run (.register sheet a) ∧
      world.run (.unregister sheet b) = world.run (.unregister sheet a)) ∧
    (∀ forest : Forest, forest.root.WellFormed →
      let first := forest.register (forest.place .root) a
      let second := first.forest.unregister (first.forest.place .root) b
      second.forest.root = forest.root ∧ second.className = first.className) := by
  have hcompile : b.compile = a.compile := h.compile_eq ha
  have hregister (forest : Forest) (place : Place) :
      forest.register place b = forest.register place a := by
    rw [Forest.register, Forest.register, hcompile]
  have hunregister (forest : Forest) (place : Place) :
      forest.unregister place b = forest.unregister place a := by
    rw [Forest.unregister, Forest.unregister, hcompile]
  refine ⟨fun forest place => ⟨hregister forest place, hunregister forest place⟩,
    fun world sheet => ⟨?_, ?_⟩, ?_⟩
  · apply World.run_congr
    · simp only [World.call, hcompile]
    · rw [SheetSession.callMass, SheetSession.callMass, hcompile]
  · apply World.run_congr
    · simp only [World.call, World.beginUnregister, hcompile]
    · rw [SheetSession.callMass, SheetSession.callMass, hcompile]
  · intro forest hw first second
    have hfirst : first = ⟨⟨forest.root.registered a, forest.evictions⟩,
        forest.arrivals a.stops, a.className⟩ := Forest.register_eq a
    have hsecond : second = first.forest.unregister (first.forest.place .root) a :=
      hunregister _ _
    have hwell : first.forest.root.WellFormed := by
      rw [hfirst]
      exact hw.registered a
    constructor
    · rw [hsecond, Forest.root_unregister hwell, hfirst]
      exact Container.undone_registered hw a
    · rw [hsecond, Forest.unregister_eq, hfirst]

/-- Trees built by setting the same keys in two orders, at both depths. -/
theorem register_unregister_eq_shuffled :
    let red : Bytes × Value := (ascii "color", .scalar (.text (ascii "red")))
    let wide : Bytes × Value := (ascii "margin", .scalar (.text (ascii "0")))
    let a := Layer.ofPairs [wide, (ascii "@media print", .nested (Layer.ofPairs [red, wide]))]
    let b := Layer.ofPairs [(ascii "@media print", .nested (Layer.ofPairs [wide, red])), wide]
    Layer.Reorders a b ∧ a.Proper ∧
      (Forest.ofContainer .empty).register ⟨0, .root⟩ b =
        (Forest.ofContainer .empty).register ⟨0, .root⟩ a := by
  intro red wide a b
  have hscalars : ∀ entry ∈ [red, wide], entry.2.Proper := by
    intro entry he
    rcases List.mem_pair.mp he with rfl | rfl <;> exact .scalar _
  have hinner : (Layer.ofPairs [red, wide]).Proper := proper_ofPairs hscalars
  have hproper : a.Proper := by
    refine proper_ofPairs fun entry he => ?_
    rcases List.mem_pair.mp he with rfl | rfl
    · exact .scalar _
    · exact proper_nested.mpr hinner
  have hreorders : Layer.Reorders a b := by
    have hnested : Layer.Reorders [red, wide] [wide, red] := .of_perm (.swap wide red [])
    exact .trans (.swap _ _ []) (.cons _ (.nested hnested) (.refl [wide]))
  exact ⟨hreorders, hproper, ((register_unregister_eq hreorders hproper).1 _ _).1⟩

end Layer.Reorders
end StyleRegistry
