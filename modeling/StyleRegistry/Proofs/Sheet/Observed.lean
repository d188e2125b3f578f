import StyleRegistry.Proofs.Rule.Clear
import StyleRegistry.Proofs.Rule.Naming
import StyleRegistry.Proofs.Rule.Print
import StyleRegistry.Proofs.Sheet.Nesting

/-! # Sheets whose listeners only observe

Where no listener changes a sheet, one call on it is under way at a time, and it
leaves what it would leave without listeners. So what a sheet holds after any
calls is what these calls make of an empty container, one after another. That
they clear the sheet, or undo trees that were never registered, matters to no
block that is left: it has selectors for all of its references. -/
namespace StyleRegistry

open Bytes (ascii)
open Forest (bodyIn?)

/-! ## Calls without listeners -/

/-- A call that changes what a sheet holds. -/
inductive Act where
  | style (call : StyleCall)
  | clear

namespace Act

/-- What a call leaves of a container that nobody else changes meanwhile. -/
def alone (root : Container) : Act → Container
  | .style call => call.alone root
  | .clear =>
    let forest := Forest.ofContainer root
    (forest.clear (forest.place .root)).1.root

/-- What calls make of an empty container. -/
def made (acts : List Act) : Container := acts.foldl alone .empty

theorem made_concat (acts : List Act) (act : Act) :
    made (acts ++ [act]) = act.alone (made acts) := List.foldl_concat ..

/-- What calls keep of a container, whatever they are. -/
structure Steady (root : Container) : Prop where
  wellFormed : root.WellFormed
  covered : root.Covered
  drawn : ∃ trees, Drawn root trees

theorem Steady.alone {root : Container} (h : Steady root) (act : Act) :
    Steady (act.alone root) := by
  obtain ⟨hw, hc, trees, hd⟩ := h
  cases act with
  | style call =>
    cases call with
    | register styles =>
      rw [Act.alone, StyleCall.alone_register]
      have hmore := hd.mono (List.subset_cons_self styles trees)
      exact ⟨hw.registered styles, hc.registered hw styles, _,
        hmore.registered hw List.mem_cons_self⟩
    | unregister styles =>
      rw [Act.alone, StyleCall.alone_unregister hw]
      exact ⟨hw.undone styles, hc.undone hw styles, _, hd.undone hw styles⟩
  | clear =>
    rw [show Act.clear.alone root = .empty from @Forest.root_clear (.ofContainer root) hw]
    exact ⟨.empty, Container.covered_empty, trees, .empty trees⟩

theorem steady_made (acts : List Act) : Steady (made acts) := by
  have hfold : ∀ (acts : List Act) (root : Container), Steady root →
      Steady (acts.foldl Act.alone root) := by
    intro acts
    induction acts with
    | nil => exact fun _ h => h
    | cons act rest ih => exact fun root h => ih _ (h.alone act)
  exact hfold acts .empty ⟨.empty, Container.covered_empty, [], .empty []⟩

end Act

/-! ## Calls that come to their end -/

/-- With nobody else, what is left of the call leads to this root container. -/
def Rest.LeadsTo (forest : Forest) (target : Container) : Rest → Prop
  | .walk steps => ∃ fuel, let ran := steps.run forest fuel
      ran.2.1.tasks = [] ∧ (ran.1.addSelectors ran.2.1.className ran.2.1.styled).root = target
  | .removals left => (forest.removeEach left).1.root = target

section LeadsTo

variable {forest : Forest} {target : Container} {walk : Walk} {left : List Removal}

theorem Rest.LeadsTo.register (forest : Forest) (styles : Layer) :
    (Rest.walk (.start (forest.place .root) styles.compile)).LeadsTo forest
      (forest.root.registered styles) := by
  have hdone := (Walk.run_bound forest (forest.place .root) styles).1
  exact ⟨Walk.bound styles.compile, hdone, congrArg (·.forest.root) (forest.register_eq styles)⟩

theorem Rest.LeadsTo.step (h : (Rest.walk walk).LeadsTo forest target) (ht : walk.tasks ≠ []) :
    (Rest.walk (Walk.step forest walk).2.1).LeadsTo (Walk.step forest walk).1 target := by
  obtain ⟨fuel, hdone, hroot⟩ := h
  cases fuel with
  | zero => exact absurd hdone ht
  | succ fuel => exact ⟨fuel, hdone, hroot⟩

theorem Rest.LeadsTo.finish (h : (Rest.walk walk).LeadsTo forest target) (ht : walk.tasks = []) :
    (forest.addSelectors walk.className walk.styled).root = target := by
  obtain ⟨fuel, -, hroot⟩ := h
  rw [Walk.run_of_done ht] at hroot
  exact hroot

theorem Rest.LeadsTo.one {slot : Slot}
    (h : (Rest.removals (.one slot :: left)).LeadsTo forest target) :
    (Rest.removals left).LeadsTo (forest.release slot.container slot.key).1 target := by
  rw [LeadsTo, Forest.removeEach, Forest.remove_one] at h
  exact h

theorem Rest.LeadsTo.all {slot : Slot}
    (h : (Rest.removals (.all slot :: left)).LeadsTo forest target) :
    (Rest.removals (List.replicate (forest.slotCount slot) (.one slot) ++ left)).LeadsTo
      forest target := by
  rw [LeadsTo, Forest.removeEach_all] at h
  exact h

end LeadsTo

namespace SheetSession

open RuleSession (plainRed)

/-! ## Traces -/

/-- The call that a script makes. -/
def Call.ofAct (number : Nat) : Act → Call
  | .style (.register styles) => .register number styles
  | .style (.unregister styles) => .unregister number styles
  | .clear => .clear number

/-- Runs in which nobody changes a sheet while a call on it is under way and
nothing fails, with that call and those that were completed, in their order.
Whoever is being told of something may make any other calls, and so may the
session between calls. -/
inductive Observed (number : Nat) : Run → Option Act → List Act → Prop
  | start {run : Run} {sheet : Sheet} : run.world.sheet? number = some sheet →
      sheet.forest = .ofContainer .empty → run.rests number = [] → Observed number run none []
  /-- The next call is made when the one before is over. -/
  | call {run : Run} {done : List Act} (call : Call) : Observed number run none done →
      run.stack = [] → Observed number (run.world.settle.start call) none done
  /-- A listener makes a call before it returns. -/
  | nested {run : Run} {current : Option Act} {done : List Act} (call : Call) :
    Observed number run current done → run.listening = true →
      Observed number { run with stack := .script [call] :: run.stack } current done
  | pass {run : Run} {current : Option Act} {done : List Act} :
    Observed number run current done → run.touch number = .nothing ∨ run.touch number = .goOn →
      Observed number run.step current done
  | begin {run : Run} {done : List Act} {calls : List Call} {stack : List Frame} (act : Act) :
    Observed number run none done → run.stack = .script (.ofAct number act :: calls) :: stack →
      Observed number run.step (some act) done
  | finish {run : Run} {done : List Act} {act : Act} : Observed number run (some act) done →
      run.touch number = .finish → Observed number run.step none (done ++ [act])

/-- What a sheet holds, and what is left of the call under way on it, agree with
the calls that were completed. -/
inductive Observed.Agrees (forest : Forest) (done : List Act) : Option Act → List Rest → Prop
  | idle : forest.root = Act.made done → Agrees forest done none []
  | current {act : Act} {rest : Rest} : rest.LeadsTo forest (Act.made (done ++ [act])) →
      Agrees forest done (some act) [rest]

namespace Run

variable {run : Run} {number : Nat} {forest : Forest} {rest : Rest} {target : Container}

/-- A call that goes on leads to what it led to. -/
theorem Shows.goOn_leadsTo (h : run.Shows number forest [rest]) (hl : rest.LeadsTo forest target)
    (ht : run.touch number = .goOn) :
    ∃ after next, run.step.Shows number after [next] ∧ next.LeadsTo after target := by
  obtain ⟨later, ⟨walk, hr, htasks, hstep⟩ | ⟨removal, left, hr, hone⟩⟩ := h.step_goOn ht
  · obtain ⟨rfl, rfl⟩ := List.cons.inj hr
    exact ⟨_, _, hstep, hl.step htasks⟩
  · obtain ⟨rfl, rfl⟩ := List.cons.inj hr
    cases removal with
    | one slot => exact ⟨_, _, hone slot rfl, hl.one⟩
    | all slot => exact ⟨_, _, h.step_all ht, hl.all⟩

theorem Shows.finish_leadsTo (h : run.Shows number forest [rest]) (hl : rest.LeadsTo forest target)
    (ht : run.touch number = .finish) :
    ∃ after, run.step.Shows number after [] ∧ after.root = target := by
  obtain ⟨later, ⟨walk, hr, htasks, hstep⟩ | ⟨hr, hstep⟩⟩ := h.step_finish ht
  · obtain ⟨rfl, rfl⟩ := List.cons.inj hr
    exact ⟨_, hstep, hl.finish htasks⟩
  · obtain ⟨rfl, rfl⟩ := List.cons.inj hr
    exact ⟨_, hstep, hl⟩

/-- A call that begins leads to what it would leave alone. -/
theorem Shows.begin_leadsTo (h : run.Shows number forest []) (hw : forest.root.WellFormed)
    {act : Act} {calls : List Call} {stack : List Frame}
    (hs : run.stack = .script (.ofAct number act :: calls) :: stack) :
    ∃ after next, run.step.Shows number after [next] ∧
      next.LeadsTo after (act.alone forest.root) := by
  cases act with
  | style call =>
    cases call with
    | register styles =>
      rw [Act.alone, StyleCall.alone_register]
      exact ⟨_, _, h.step_register hs, .register forest styles⟩
    | unregister styles =>
      rw [Act.alone, StyleCall.alone_unregister hw]
      exact ⟨_, _, h.step_unregister hs, Forest.root_unregister hw styles⟩
  | clear =>
    refine ⟨_, _, h.step_clear hs, ?_⟩
    exact (Forest.root_clear hw).trans (@Forest.root_clear (.ofContainer forest.root) hw).symm

end Run

namespace Observed

variable {number : Nat} {run : Run} {current : Option Act} {done : List Act}

theorem agrees (h : Observed number run current done) : ∃ forest rests,
    run.Shows number forest rests ∧ Agrees forest done current rests := by
  induction h with
  | start hsheet hempty hrests =>
    refine ⟨.ofContainer .empty, [], ⟨?_, hrests⟩, .idle rfl⟩
    rw [World.forest?, hsheet, ← hempty]
    rfl
  | call call _ hstack ih =>
    obtain ⟨forest, rests, hs, ha⟩ := ih
    cases ha with
    | idle hroot =>
      -- Settling forgets what was evicted and leaves the root container.
      refine ⟨.ofContainer forest.root, [], ⟨?_, rfl⟩, .idle hroot⟩
      show (World.settle _).forest? number = _
      rw [World.forest?_settle, hs.forest]
      rfl
  | nested call _ _ ih =>
    obtain ⟨forest, rests, hs, ha⟩ := ih
    exact ⟨forest, rests, ⟨hs.forest, hs.rests⟩, ha⟩
  | pass _ htouch ih =>
    obtain ⟨forest, rests, hs, ha⟩ := ih
    rcases htouch with ht | ht
    · exact ⟨forest, rests, hs.step_nothing ht, ha⟩
    · cases ha with
      | idle hroot =>
        -- Only a call that is under way goes on.
        obtain ⟨rest, stack, -, hr, -⟩ := hs.exists_rest (.inl ht)
        cases hr
      | current hl =>
        obtain ⟨after, next, hstep, hnext⟩ := hs.goOn_leadsTo hl ht
        exact ⟨after, [next], hstep, .current hnext⟩
  | @begin _ done _ _ act _ hstack ih =>
    obtain ⟨forest, rests, hs, ha⟩ := ih
    cases ha with
    | idle hroot =>
      have hw : forest.root.WellFormed := hroot ▸ (Act.steady_made done).wellFormed
      obtain ⟨after, next, hstep, hnext⟩ := hs.begin_leadsTo hw hstack
      refine ⟨after, [next], hstep, .current ?_⟩
      rw [Act.made_concat, ← hroot]
      exact hnext
  | finish _ ht ih =>
    obtain ⟨forest, rests, hs, ha⟩ := ih
    cases ha with
    | current hl =>
      obtain ⟨after, hstep, hroot⟩ := hs.finish_leadsTo hl ht
      exact ⟨after, [], hstep, .idle hroot⟩

/-- Listeners that only observe leave no trace. -/
theorem container_eq (h : Observed number run none done) :
    ∃ sheet, run.world.sheet? number = some sheet ∧ sheet.container = Act.made done := by
  obtain ⟨forest, rests, hs, ha⟩ := h.agrees
  obtain ⟨sheet, hsheet, rfl⟩ := Option.map_eq_some_iff.mp hs.forest
  cases ha with
  | idle hroot => exact ⟨sheet, hsheet, hroot⟩

theorem passes (h : Observed number run current done) (fuel : Nat)
    (hp : run.passes number fuel = true) : Observed number (run.steps fuel) current done :=
  Run.of_passes (fun _ => Observed.pass) h fuel hp

/-- **Every reference to a block has a selector.** After any calls on a sheet
that register trees, undo trees or clear the sheet, with listeners that only
observe, the references to a block that is left are at most as many as those to
its selectors, in the sheet's container and in the body of every at-rule. So
there is a selector, and what the sheet prints, piece by piece, has a selector
list in front of each block. -/
theorem blocks_covered (h : Observed number run none done) :
    ∃ sheet, run.world.sheet? number = some sheet ∧
      (∀ path body, bodyIn? sheet.container path = some body →
        ∀ entry ∈ body.entries, ∀ declarations selectors,
          entry.item = .style declarations selectors →
          0 < entry.count ∧ entry.count ≤ selectors.total ∧ selectors.entries ≠ []) ∧
      sheet.container.render = sheet.container.pieces.flatMap Piece.text ∧
      ∀ selectors declarations, .block selectors declarations ∈ sheet.container.pieces →
        Piece.list selectors ≠ [] := by
  obtain ⟨sheet, hsheet, hroot⟩ := h.container_eq
  obtain ⟨hw, hc, trees, hd⟩ := Act.steady_made done
  rw [← hroot] at hw hc hd
  refine ⟨sheet, hsheet, ?_, Container.render_eq _, ?_⟩
  · intro path body hbody entry he declarations selectors hi
    exact hc.block hw ⟨path, body, hbody, he, hi⟩
  · intro selectors declarations hp
    exact hc.list_ne_nil hw hd hp

end Observed

/-! ## A session with strays -/

/-- A call on the first sheet with the steps before and after the one that finishes it. -/
def Run.whole (run : Run) (act : Act) (before after : Nat) : Run :=
  ((run.world.settle.start (.ofAct 0 act)).step.steps before).step.steps after

theorem Observed.whole {run : Run} {done : List Act} (h : Observed 0 run none done)
    (act : Act) (before after : Nat) :
    let begun := (run.world.settle.start (.ofAct 0 act)).step
    let finished := (begun.steps before).step
    run.stack.isEmpty ∧ begun.passes 0 before = true ∧
      (begun.steps before).touch 0 = .finish ∧ finished.passes 0 after = true →
    Observed 0 (run.whole act before after) none (done ++ [act]) := by
  rintro begun finished ⟨hstack, hbefore, hfinish, hafter⟩
  have hbegun : Observed 0 begun (some act) done :=
    (h.call (.ofAct 0 act) (List.isEmpty_iff.mp hstack)).begin act rfl
  exact ((hbegun.passes before hbefore).finish hfinish).passes after hafter

/-- A tree that shares a key with `fore` and `back`. -/
def astray : Layer := [(ascii ".x", .nested back)]

/-- The sheet is cleared, two trees that share a block are registered, and then a
third that has the block too is undone without having been registered. -/
def strays : Run :=
  let red := Run.whole ⟨watched, [], [], .nothing, none⟩ (.style (.register plainRed)) 3 4
  let both := ((red.whole .clear 4 4).whole (.style (.register fore)) 3 4).whole
    (.style (.register back)) 1 4
  both.whole (.style (.unregister astray)) 1 4

theorem observed_strays : Observed 0 strays none
    [.style (.register plainRed), .clear, .style (.register fore), .style (.register back),
      .style (.unregister astray)] := by
  have start : Observed 0 ⟨watched, [], [], .nothing, none⟩ none [] := .start rfl rfl rfl
  have red := start.whole (.style (.register plainRed)) 3 4 (by decide +kernel)
  have cleared := red.whole .clear 4 4 (by decide +kernel)
  have first := cleared.whole (.style (.register fore)) 3 4 (by decide +kernel)
  have both := first.whole (.style (.register back)) 1 4 (by decide +kernel)
  exact both.whole (.style (.unregister astray)) 1 4 (by decide +kernel)

/-- The block has lost a reference to the stray and keeps both of its selectors. -/
theorem covered_of_strays : ∃ sheet, strays.world.sheet? 0 = some sheet ∧
    sheet.container.countAt [] (Key.style (ascii "z-index:612382;")) = 1 ∧
    (∀ entry ∈ sheet.container.entries, ∀ declarations selectors,
      entry.item = .style declarations selectors → selectors.entries ≠ []) ∧
    sheet.container.render = ascii ".1knl9if,.23iuscf\x7bz-index:449599;\x7d" := by
  obtain ⟨sheet, hsheet, hblocks, -⟩ := observed_strays.blocks_covered
  have hseen : (strays.world.sheet? 0).map (fun sheet =>
      (sheet.container.countAt [] (Key.style (ascii "z-index:612382;")),
        sheet.container.render)) =
      some (1, ascii ".1knl9if,.23iuscf\x7bz-index:449599;\x7d") := by decide +kernel
  rw [hsheet] at hseen
  obtain ⟨hcount, hrender⟩ := Prod.mk.inj (Option.some.inj hseen)
  refine ⟨sheet, hsheet, hcount, fun entry he declarations selectors hi => ?_, hrender⟩
  exact (hblocks [] _ rfl entry he declarations selectors hi).2.2

end SheetSession
end StyleRegistry
