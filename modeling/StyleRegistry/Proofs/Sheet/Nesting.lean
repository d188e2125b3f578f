import StyleRegistry.Proofs.Rule.Text
import StyleRegistry.Proofs.Sheet.Touch

/-! # Calls within calls

A listener that is told of a change may register trees and undo them on the
very sheet that is being changed, and be told of that in its turn. Each call is
then completed before those that it interrupted. The sheet's counts come out as
if the same calls had been made one after another, in the order in which they
were completed: an unfinished call has its share and no more, and no call's
share is taken from it. Only the order of entries may be another, and, where
texts share a key, which of them came first. -/
namespace StyleRegistry

open Bytes (ascii)

/-! ## One call after another -/

namespace StyleCall

def registers? : StyleCall → Option Layer
  | .register styles => some styles
  | .unregister _ => none

def undoes? : StyleCall → Option Layer
  | .register _ => none
  | .unregister styles => some styles

/-- The live registrations once the call is completed. An undoing took its own
from them when it began. -/
def liveAfter (live : Multiset Layer) : StyleCall → Multiset Layer
  | .register styles => styles ::ₘ live
  | .unregister _ => live

/-- What a call leaves of a container that nobody else changes meanwhile. -/
def alone (root : Container) (call : StyleCall) : Container :=
  let forest := Forest.ofContainer root
  match call with
  | .register styles => (forest.register (forest.place .root) styles).forest.root
  | .unregister styles => (forest.unregister (forest.place .root) styles).forest.root

theorem alone_register (root : Container) (styles : Layer) :
    alone root (.register styles) = root.registered styles := by
  simp only [alone, Forest.register_eq]
  rfl

theorem alone_unregister {root : Container} (h : root.WellFormed) (styles : Layer) :
    alone root (.unregister styles) = root.undone styles :=
  @Forest.root_unregister (.ofContainer root) h styles

end StyleCall

/-- What calls leave that are made one after another, from an empty container. -/
def inTurn (calls : List StyleCall) : Container := calls.foldl StyleCall.alone .empty

/-- The trees that the calls register. -/
def registrations (calls : List StyleCall) : List Layer := calls.filterMap StyleCall.registers?

/-- The trees that the calls undo. -/
def undoings (calls : List StyleCall) : Multiset Layer :=
  Multiset.ofList (calls.filterMap StyleCall.undoes?)

section InTurn

variable {calls more : List StyleCall} {styles : Layer}

theorem inTurn_register (calls : List StyleCall) (styles : Layer) :
    inTurn (calls ++ [.register styles]) = (inTurn calls).registered styles := by
  rw [inTurn, List.foldl_append]
  exact StyleCall.alone_register _ styles

theorem inTurn_unregister (h : (inTurn calls).WellFormed) (styles : Layer) :
    inTurn (calls ++ [.unregister styles]) = (inTurn calls).undone styles := by
  rw [inTurn, List.foldl_append]
  exact StyleCall.alone_unregister h styles

theorem registrations_subset (h : calls ⊆ more) : registrations calls ⊆ registrations more := by
  intro styles hs
  obtain ⟨call, hc, hr⟩ := List.mem_filterMap.mp hs
  exact List.mem_filterMap.mpr ⟨call, h hc, hr⟩

theorem undoings_cons (calls : List StyleCall) (styles : Layer) :
    undoings (.unregister styles :: calls) = styles ::ₘ undoings calls := rfl

theorem mem_registrations (h : .register styles ∈ calls) : styles ∈ registrations calls :=
  List.mem_filterMap.mpr ⟨_, h, rfl⟩

end InTurn

namespace SheetSession

open RuleSession (plainRed)

/-! ## One step -/

namespace Run

/-- The containers of a sheet have what is live and the shares of the works that
are under way, and all their texts come from the trees. -/
structure Carries (run : Run) (number : Nat) (forest : Forest) (works : List Work)
    (live : Multiset Layer) (trees : List Layer) : Prop where
  shows : run.Shows number forest (works.map Work.rest)
  underway : Underway forest works live
  drawn : Drawn forest.root trees

namespace Carries

variable {run : Run} {number : Nat} {forest : Forest} {works : List Work} {live : Multiset Layer}
  {trees : List Layer} {styles : Layer}

theorem mono {more : List Layer} (h : run.Carries number forest works live trees)
    (ht : trees ⊆ more) : run.Carries number forest works live more :=
  ⟨h.shows, h.underway, h.drawn.mono ht⟩

theorem goOn (h : run.Carries number forest works live trees) (ht : run.touch number = .goOn)
    (hm : registrations (works.map Work.call) ⊆ trees) : ∃ after left,
      left.map Work.call = works.map Work.call ∧ run.step.Carries number after left live trees := by
  obtain ⟨later, ⟨walk, hr, htasks, hstep⟩ | ⟨removal, left, hr, hstep⟩⟩ := h.shows.step_goOn ht
  · obtain ⟨⟨call, rest, share⟩, works, rfl, rfl, rfl⟩ := List.map_eq_cons_iff.mp hr
    obtain ⟨styles, stop, rfl, hstop, hbody, hafter, hunder⟩ := h.underway.take htasks
    refine ⟨_, _ :: works, ?_, hstep, hunder, ?_⟩
    · rfl
    · rw [hafter, Forest.visit_fst]
      exact h.drawn.acquireAt (hm List.mem_cons_self) hstop hbody
  · obtain ⟨⟨call, rest, share⟩, works, rfl, rfl, rfl⟩ := List.map_eq_cons_iff.mp hr
    obtain ⟨slot, path, rest, rfl, hroot, hunder⟩ := h.underway.give
    refine ⟨_, _ :: works, ?_, hstep slot rfl, hunder, ?_⟩
    · rfl
    · rw [hroot]
      exact h.drawn.releaseAt h.underway.holding.wellFormed path slot.key

theorem register (h : run.Carries number forest works live trees) {calls : List Call}
    {stack : List Frame} (hs : run.stack = .script (.register number styles :: calls) :: stack) :
    ∃ work, work.call = .register styles ∧
      run.step.Carries number forest (work :: works) live trees := by
  let walk := Walk.start (forest.place .root) styles.compile
  have hshows := h.shows.step_register hs
  exact ⟨⟨.register styles, .walk walk, []⟩, rfl, hshows, h.underway.beginRegister styles, h.drawn⟩

theorem unregister (h : run.Carries number forest works (styles ::ₘ live) trees)
    {calls : List Call} {stack : List Frame}
    (hs : run.stack = .script (.unregister number styles :: calls) :: stack) :
    ∃ after work, work.call = .unregister styles ∧
      run.step.Carries number after (work :: works) live trees := by
  obtain ⟨hroot, hunder⟩ := h.underway.beginUnregister
  have hshows := h.shows.step_unregister hs
  simp only [hroot] at hshows
  refine ⟨_, ⟨.unregister styles, _, styles.stops⟩, rfl, hshows, hunder, ?_⟩
  refine h.drawn.revokeEach h.underway.holding.wellFormed _ ?_
  intro stop hstop
  exact Container.holds_of_mem_held (h.underway.holding.held_stops.symm ▸ hstop)

theorem finish {work : Work} (h : run.Carries number forest (work :: works) live trees)
    (ht : run.touch number = .finish) (hm : registrations [work.call] ⊆ trees) :
    ∃ after, run.step.Carries number after works
      (work.call.liveAfter live) trees := by
  obtain ⟨later, ⟨walk, hr, htasks, hstep⟩ | ⟨hr, hstep⟩⟩ := h.shows.step_finish ht
  · obtain ⟨call, rest, share⟩ := work
    obtain ⟨rfl, rfl⟩ := List.cons.inj hr
    obtain ⟨styles, rfl, hheld, hadd, hunder⟩ := h.underway.finishRegister htasks
    rw [hadd] at hstep
    refine ⟨_, hstep, hunder, ?_⟩
    exact h.drawn.grantEach (hm List.mem_cons_self) h.underway.holding.wellFormed hheld
  · obtain ⟨call, rest, share⟩ := work
    obtain ⟨rfl, rfl⟩ := List.cons.inj hr
    obtain ⟨styles, rfl, hunder⟩ := h.underway.finishUnregister
    exact ⟨forest, hstep, hunder, h.drawn⟩

end Carries
end Run

/-! ## Traces with nested calls -/

/-- A listener or an observer was called and has not returned. -/
def Run.listening (run : Run) : Bool :=
  match run.stack with
  | .change _ _ (_ + 1) :: _ | .report _ _ (_ + 1) :: _ => true
  | _ => false

/-- So many steps begin and finish no call on the sheet. -/
def Run.passes (number : Nat) : Nat → Run → Bool
  | 0, _ => true
  | fuel + 1, run => run.isDone ||
    decide (run.touch number = .nothing ∨ run.touch number = .goOn) && run.step.passes number fuel

/-- What such steps keep is kept by so many of them. -/
theorem Run.of_passes {number : Nat} {Kept : Run → Prop}
    (hk : ∀ run, Kept run → run.touch number = .nothing ∨ run.touch number = .goOn → Kept run.step)
    {run : Run} (h : Kept run) (fuel : Nat) (hp : run.passes number fuel = true) :
    Kept (run.steps fuel) := by
  induction fuel generalizing run with
  | zero => exact h
  | succ fuel ih =>
    rw [Run.steps]
    split
    · exact h
    · rename_i hd
      rw [Run.passes, Bool.eq_false_iff.mpr hd, Bool.false_or, Bool.and_eq_true,
        decide_eq_true_iff] at hp
      exact ih (hk run h hp.1) hp.2

/-- Runs in which a sheet is never cleared and nothing fails, with the calls
that are under way on the sheet, innermost first, those that were completed, in
the order of their completion, and the registrations that are live: completed,
and not undone by any call that was completed or is under way. An undoing is
always of one of these. Whoever is being told of something may make any calls,
and so may the session between calls. -/
inductive Nested (number : Nat) : Run → List StyleCall → List StyleCall → Multiset Layer → Prop
  | start {run : Run} {sheet : Sheet} : run.world.sheet? number = some sheet →
      sheet.forest = .ofContainer .empty → run.rests number = [] → Nested number run [] [] 0
  /-- The next call is made when the one before is over. -/
  | call {run : Run} {underway done : List StyleCall} {live : Multiset Layer} (call : Call) :
    Nested number run underway done live → run.stack = [] →
      Nested number (run.world.settle.start call) underway done live
  /-- A listener makes a call before it returns. -/
  | nested {run : Run} {underway done : List StyleCall} {live : Multiset Layer} (call : Call) :
    Nested number run underway done live → run.listening = true →
      Nested number { run with stack := .script [call] :: run.stack } underway done live
  | pass {run : Run} {underway done : List StyleCall} {live : Multiset Layer} :
    Nested number run underway done live → run.touch number = .nothing ∨ run.touch number = .goOn →
      Nested number run.step underway done live
  | register {run : Run} {underway done : List StyleCall} {live : Multiset Layer} {styles : Layer}
    {calls : List Call} {stack : List Frame} : Nested number run underway done live →
      run.stack = .script (.register number styles :: calls) :: stack →
      Nested number run.step (.register styles :: underway) done live
  | unregister {run : Run} {underway done : List StyleCall} {live : Multiset Layer}
    {styles : Layer} {calls : List Call} {stack : List Frame} :
      Nested number run underway done (styles ::ₘ live) →
      run.stack = .script (.unregister number styles :: calls) :: stack →
      Nested number run.step (.unregister styles :: underway) done live
  | finish {run : Run} {underway done : List StyleCall} {live : Multiset Layer} {call : StyleCall} :
    Nested number run (call :: underway) done live → run.touch number = .finish →
      Nested number run.step underway (done ++ [call]) (call.liveAfter live)

namespace Nested

variable {number : Nat} {run : Run} {underway done : List StyleCall} {live : Multiset Layer}

/-- Made in turn, the completed calls leave what is live and what the undoings
under way were begun on. -/
theorem balanced_inTurn (h : Nested number run underway done live) :
    Balanced (inTurn done) (undoings underway + live) := by
  induction h with
  | start => exact .empty
  | call _ _ _ ih => exact ih
  | nested _ _ _ ih => exact ih
  | pass _ _ ih => exact ih
  | register _ _ ih => exact ih
  | unregister _ _ ih =>
    rw [undoings_cons, Multiset.cons_add, ← Multiset.add_cons]
    exact ih
  | @finish _ underway _ live call _ _ ih =>
    cases call with
    | register styles =>
      rw [inTurn_register, StyleCall.liveAfter, Multiset.add_cons]
      exact ih.registered styles
    | unregister styles =>
      rw [inTurn_unregister ih.wellFormed]
      rw [undoings_cons, Multiset.cons_add] at ih
      exact ih.undone

theorem drawn_inTurn (h : Nested number run underway done live) :
    Drawn (inTurn done) (registrations done) := by
  induction h with
  | start => exact .empty _
  | call _ _ _ ih => exact ih
  | nested _ _ _ ih => exact ih
  | pass _ _ ih => exact ih
  | register _ _ ih => exact ih
  | unregister _ _ ih => exact ih
  | @finish _ _ done _ call hn _ ih =>
    have hw := hn.balanced_inTurn.wellFormed
    have hmore := ih.mono (registrations_subset (List.subset_append_left done [call]))
    cases call with
    | register styles =>
      rw [inTurn_register]
      exact hmore.registered hw (mem_registrations (by simp))
    | unregister styles =>
      rw [inTurn_unregister hw]
      exact hmore.undone hw styles

/-- At every moment the sheet has what is live and the shares of the calls under
way, and every text in it comes from the calls' trees. -/
theorem carries (h : Nested number run underway done live) : ∃ forest works,
    works.map Work.call = underway ∧
      run.Carries number forest works live (registrations (done ++ underway)) := by
  induction h with
  | start hsheet hempty hrests =>
    refine ⟨.ofContainer .empty, [], rfl, ⟨?_, hrests⟩, .ofBalanced .empty, .empty _⟩
    rw [World.forest?, hsheet, ← hempty]
    rfl
  | call call hn hstack ih =>
    obtain ⟨forest, works, hcalls, hs, hunder, hdrawn⟩ := ih
    -- Settling forgets what was evicted; no call is left whose places would need it.
    have hworks : works = [] := by
      have hr := hs.rests
      rw [Run.rests, hstack] at hr
      exact List.map_eq_nil_iff.mp hr.symm
    subst hworks
    refine ⟨.ofContainer forest.root, [], hcalls, ⟨?_, rfl⟩, ⟨hunder.holding, by simp⟩, hdrawn⟩
    show (World.settle _).forest? number = _
    rw [World.forest?_settle, hs.forest]
    rfl
  | nested call hn _ ih =>
    obtain ⟨forest, works, hcalls, hs, hunder, hdrawn⟩ := ih
    exact ⟨forest, works, hcalls, ⟨hs.forest, hs.rests⟩, hunder, hdrawn⟩
  | pass hn htouch ih =>
    obtain ⟨forest, works, rfl, hc⟩ := ih
    rcases htouch with ht | ht
    · exact ⟨forest, works, rfl, hc.shows.step_nothing ht, hc.underway, hc.drawn⟩
    · obtain ⟨after, left, hcalls, hleft⟩ :=
        hc.goOn ht (registrations_subset (List.subset_append_right _ _))
      exact ⟨after, left, hcalls, hleft⟩
  | @register _ _ done _ styles _ _ hn hstack ih =>
    obtain ⟨forest, works, rfl, hc⟩ := ih
    obtain ⟨work, hcall, hwork⟩ := hc.register hstack
    refine ⟨forest, work :: works, by rw [List.map_cons, hcall], hwork.mono ?_⟩
    exact registrations_subset ((List.sublist_cons_self _ _).append_left done).subset
  | @unregister _ _ done _ styles _ _ hn hstack ih =>
    obtain ⟨forest, works, rfl, hc⟩ := ih
    obtain ⟨after, work, hcall, hwork⟩ := hc.unregister hstack
    refine ⟨after, work :: works, by rw [List.map_cons, hcall], hwork.mono ?_⟩
    exact registrations_subset ((List.sublist_cons_self _ _).append_left done).subset
  | finish hn ht ih =>
    obtain ⟨forest, works, hcalls, hc⟩ := ih
    obtain ⟨work, works, rfl, rfl, rfl⟩ := List.map_eq_cons_iff.mp hcalls
    obtain ⟨after, hafter⟩ := hc.finish ht (registrations_subset (by simp))
    refine ⟨after, works, rfl, ?_⟩
    rw [List.append_assoc]
    exact hafter

/-- A trace goes on through steps that begin and finish no call on the sheet. -/
theorem passes (h : Nested number run underway done live) (fuel : Nat)
    (hp : run.passes number fuel = true) : Nested number (run.steps fuel) underway done live :=
  Run.of_passes (fun _ => Nested.pass) h fuel hp

/-- **Nested calls count as calls in turn.** Whenever no call is under way, each
container of the sheet has the keys that it would have if the same calls had
been made one after another, in the order of their completion, with the same
counts, and each block has the same selectors, with the same counts. Where the
trees that were registered bring only one text to a slot it is stored in both,
and so is a selector of which they give only one with its key. So apart from the
order of entries only the choice between texts that share a key may differ. -/
theorem counts_eq_inTurn (h : Nested number run [] done live) :
    ∃ sheet, run.world.sheet? number = some sheet ∧
      let root := sheet.container
      let turn := inTurn done
      let trees := registrations done
      (∀ path, (root.bodyAt path).keys.Perm (turn.bodyAt path).keys) ∧
      (∀ path key, root.countAt path key = turn.countAt path key) ∧
      (∀ path key, (root.selectorsAt path key).keys.Perm (turn.selectorsAt path key).keys) ∧
      (∀ path key selector, (root.selectorsAt path key).count selector =
        (turn.selectorsAt path key).count selector) ∧
      (∀ path key, {text | Brings trees path key text}.Subsingleton →
        root.textAt path key = turn.textAt path key) ∧
      (∀ path key name, {selector | Gives trees path key selector ∧
          Keyed.key selector = name}.Subsingleton →
        (root.selectorsAt path key).item? name = (turn.selectorsAt path key).item? name) := by
  obtain ⟨forest, works, hworks, hshows, hunder, hdrawn⟩ := h.carries
  obtain rfl : works = [] := List.map_eq_nil_iff.mp hworks
  obtain ⟨sheet, hsheet, rfl⟩ := Option.map_eq_some_iff.mp hshows.forest
  have hroot : Balanced sheet.container live := hunder.holding.balanced
  have hturn : Balanced (inTurn done) live := by
    have hb := h.balanced_inTurn
    rwa [show undoings [] = 0 from rfl, zero_add] at hb
  have hcount : ∀ path key, sheet.container.countAt path key = (inTurn done).countAt path key := by
    intro path key
    rw [hroot.count, hturn.count]
  have hselector : ∀ path key selector, (sheet.container.selectorsAt path key).count selector =
      ((inTurn done).selectorsAt path key).count selector := by
    intro path key selector
    rw [hroot.selector, hturn.selector]
  have htexts : Drawn sheet.container (registrations done) := by
    rw [List.append_nil] at hdrawn
    exact hdrawn
  refine ⟨sheet, hsheet, ?_, hcount, ?_, hselector, ?_, ?_⟩
  · intro path
    exact (hroot.wellFormed.bodyAt path).tidy.sound.keys_perm
      (hturn.wellFormed.bodyAt path).tidy.sound (hcount path)
  · intro path key
    exact (hroot.wellFormed.sound_selectorsAt path key).keys_perm
      (hturn.wellFormed.sound_selectorsAt path key) (hselector path key)
  · intro path key hone
    refine htexts.textAt_eq h.drawn_inTurn ?_ hone
    rw [Bool.eq_iff_iff, hroot.holds_iff, hturn.holds_iff]
  · intro path key name hone
    refine htexts.selector_eq h.drawn_inTurn ?_ hone hroot.wellFormed hturn.wellFormed
    rw [Bool.eq_iff_iff, hroot.contains_iff, hturn.contains_iff]

end Nested

/-! ## A session with interruptions -/

/-- Two trees whose declarations are different texts with one key. -/
def fore : Layer := [(ascii "z-index", .scalar (.text (ascii "449599")))]

def back : Layer := [(ascii "z-index", .scalar (.text (ascii "612382")))]

/-- A sheet with a listener. -/
def watched : World :=
  let listener := Listener.scripted ⟨ascii "watcher", none, 0, []⟩
  ⟨1, [{ Sheet.create 1 with listeners := Subscribers.empty.add listener }], []⟩

def Run.interrupt (run : Run) (call : Call) : Run :=
  { run with stack := .script [call] :: run.stack }

/-- One tree is registered, then the next; when it comes the listener undoes the
first, and when that goes it registers the third. -/
def interrupted : Run :=
  let first := ((watched.start (.register 0 plainRed)).step.steps 3).step.steps 4
  let told := (first.world.settle.start (.register 0 fore)).step.steps 2
  let told := (told.interrupt (.unregister 0 plainRed)).step.steps 2
  let nested := ((told.interrupt (.register 0 back)).step.steps 1).step.steps 4
  (nested.step.steps 4).step.steps 4

theorem nested_interrupted : Nested 0 interrupted []
    [.register plainRed, .register back, .unregister plainRed, .register fore]
    (fore ::ₘ back ::ₘ 0) := by
  have start : Nested 0 ⟨watched, [], [], .nothing, none⟩ [] [] 0 := .start rfl rfl rfl
  have first := ((start.call (.register 0 plainRed) rfl).register rfl).passes 3 (by decide +kernel)
  have first := (first.finish (by decide +kernel)).passes 4 (by decide +kernel)
  have outer := first.call (.register 0 fore) (List.isEmpty_iff.mp (by decide +kernel))
  have outer := (outer.register rfl).passes 2 (by decide +kernel)
  have told : Nested 0 _ [.register fore] [.register plainRed] (plainRed ::ₘ 0) :=
    outer.nested (.unregister 0 plainRed) (by decide +kernel)
  have undoing := (told.unregister rfl).passes 2 (by decide +kernel)
  have inner := (undoing.nested (.register 0 back) (by decide +kernel)).register rfl
  have inner := (inner.passes 1 (by decide +kernel)).finish (by decide +kernel)
  have undone := (inner.passes 4 (by decide +kernel)).finish (by decide +kernel)
  have last := (undone.passes 4 (by decide +kernel)).finish (by decide +kernel)
  exact last.passes 4 (by decide +kernel)

/-- Two of the trees have one key, which counts both of them in either order. -/
theorem counts_of_interrupted : ∃ sheet, interrupted.world.sheet? 0 = some sheet ∧
    sheet.container.countAt [] (Key.style (ascii "z-index:449599;")) = 2 ∧
    sheet.container.countAt [] (Key.style (ascii "color:red;")) = 0 := by
  obtain ⟨sheet, hsheet, -, hcount, -⟩ := nested_interrupted.counts_eq_inTurn
  exact ⟨sheet, hsheet, (hcount _ _).trans (by decide +kernel),
    (hcount _ _).trans (by decide +kernel)⟩

/-- The key stores the text of the call that began first and was completed last;
in turn it would store that of the call that was completed first. -/
theorem text_of_interrupted :
    let done : List StyleCall :=
      [.register plainRed, .register back, .unregister plainRed, .register fore]
    let key := Key.style (ascii "z-index:449599;")
    Nested 0 interrupted [] done (fore ::ₘ back ::ₘ 0) ∧
    (interrupted.world.sheet? 0).bind (fun sheet => sheet.container.textAt [] key) =
      some (ascii "z-index:449599;") ∧
    (inTurn done).textAt [] key = some (ascii "z-index:612382;") :=
  ⟨nested_interrupted, by decide +kernel, by decide +kernel⟩

end SheetSession
end StyleRegistry
