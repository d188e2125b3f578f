import StyleRegistry.Proofs.Rule.Turnover
import StyleRegistry.Proofs.Sheet.Notice
import StyleRegistry.Proofs.Sheet.Observed
import StyleRegistry.Proofs.Sheet.Reach

/-! # Calls that are cut short

A call that registers or undoes a tree makes its changes one by one, and tells
listeners of each one at the top level before it makes the next. Whatever they
throw, they throw it in the middle of telling. So as long as they leave the
sheet alone, a call that is cut short has made some first part of its changes,
up to the one that was being told, and none of what comes after the changes: a
registration has not given any selector, and no call has given notice of its
end. An undoing takes all its selectors away before the first change. -/
namespace StyleRegistry

open Bytes (ascii)

/-! ## The changes of a call -/

namespace StyleCall

/-- The references that a call takes or gives back, in order. -/
def turns (root : Container) : StyleCall → List Stop
  | .register styles => styles.stops
  | .unregister styles => (root.held styles.stops).reverse

/-- What a call does before its first turn. -/
def opened (root : Container) : StyleCall → Container
  | .register _ => root
  | .unregister styles =>
    root.selectEach Container.revoke styles.className (root.held styles.stops)

def turn (root : Container) (stop : Stop) : StyleCall → Container
  | .register _ => root.acquireAt stop.path stop.node
  | .unregister _ => root.releaseAt stop.path stop.key

/-- The container after so many turns of a call: a registration has taken the
first of its references, an undoing has taken away all the selectors that it
found and given back the last of the references. -/
def upTo (call : StyleCall) (root : Container) (count : Nat) : Container :=
  ((call.turns root).take count).foldl (fun root stop => call.turn root stop) (call.opened root)

def change : StyleCall → Change
  | .register _ => .add
  | .unregister _ => .remove

variable {call : StyleCall} {root : Container} {count : Nat}

theorem upTo_succ {stop : Stop} (h : (call.turns root)[count]? = some stop) :
    call.upTo root (count + 1) = call.turn (call.upTo root count) stop := by
  rw [upTo, List.take_add_one, h, Option.toList_some, List.foldl_append]
  rfl

end StyleCall

/-! ## What is left of a call -/

/-- What is left after so many turns of a call. The places that a walk or an
undoing holds still lead where they led. -/
inductive Rest.After (root : Container) (forest : Forest) (count : Nat) :
    StyleCall → Rest → Prop
  | walk {styles : Layer} {walk : Walk} (duties : List Walk.Duty) :
    walk.tasks = duties.map Prod.snd → (∀ duty ∈ duties, duty.At forest) →
      duties.flatMap Walk.Duty.stops = styles.stops.drop count →
      After root forest count (.register styles) (.walk walk)
  | removals {styles : Layer} (met : Forest) :
    forest.TracksEach met ((root.held styles.stops).reverse.drop count) →
      After root forest count (.unregister styles)
        (.removals (met.removalsOf ((root.held styles.stops).reverse.drop count)))

/-- A change of presence in the forest, by a turn of the call. -/
structure StyleCall.Makes (call : StyleCall) (stop : Stop) (event : Event) : Prop where
  change : event.change = call.change
  key : event.key = stop.key

namespace Forest

variable {forest : Forest}

theorem makes_visit (styles : Layer) {stop : Stop} {event : Event}
    (h : (forest.visit stop).2 = some event) : (StyleCall.register styles).Makes stop event :=
  ⟨(acquire_eq_some h).1, (acquire_eq_some h).2⟩

theorem makes_release (styles : Layer) {place : Place} {stop : Stop} {event : Event}
    (h : (forest.release place stop.key).2 = some event) :
    (StyleCall.unregister styles).Makes stop event :=
  ⟨(release_eq_some h).1, (release_eq_some h).2⟩

end Forest

namespace SheetSession

open Forest (printed)
open RuleSession (plainRed)

/-! ## Frames of others -/

/-- A frame of a call on the sheet. -/
def Frame.isOf (number : Nat) : Frame → Bool
  | .walk sheet _ | .removals sheet _ | .done sheet _ _ => sheet == number
  | _ => false

section Others

variable {world : World} {number : Nat} {change : World × List Frame}

def Others (number : Nat) (frames : List Frame) : Prop :=
  ∀ frame ∈ frames, frame.isOf number = false

theorem Others.append {number : Nat} {first second : List Frame} (hf : Others number first)
    (hs : Others number second) : Others number (first ++ second) := by
  intro frame hm
  rcases List.mem_append.mp hm with hm | hm
  · exact hf frame hm
  · exact hs frame hm

theorem others_tell (number sheet : Nat) (event : Option Event) :
    Others number (World.tell sheet event) := by
  unfold World.tell
  cases event.filter Event.isTopLevel <;> simp [Others, Frame.isOf]

theorem others_emit (number emitter : Nat) (report : Diagnostic) :
    Others number (world.emit emitter report).2 := by
  unfold World.emit
  split <;> simp [Others, Frame.isOf]

theorem others_emitFrom (number sheet : Nat) (module stage message : Bytes) :
    Others number (world.emitFrom sheet module stage message).2 := by
  unfold World.emitFrom
  split
  · simp [Others]
  · split
    · simp [Others]
    · exact others_emit _ _ _

theorem others_onSheet {sheet : Nat} {act : Sheet → World × List Frame}
    (hc : world.onSheet sheet act = .ok change) (h : ∀ s, Others number (act s).2) :
    Others number change.2 := by
  rcases World.onSheet_cases hc with ⟨-, rfl⟩ | ⟨s, -, rfl⟩
  · simp [Others, Frame.isOf]
  · exact h s

theorem others_onEmitter {emitter : Nat} {act : Emitter (Callback Call) → World × List Frame}
    (hc : world.onEmitter emitter act = .ok change) (h : ∀ e, Others number (act e).2) :
    Others number change.2 := by
  rcases World.onEmitter_cases hc with rfl | ⟨e, -, rfl⟩
  · simp [Others, Frame.isOf]
  · exact h e

/-- A call that leaves the sheet alone leaves no frame of a call on it. -/
theorem others_call {call : Call} (ht : call.touch number = .nothing)
    (hc : world.call call = .ok change) : Others number change.2 := by
  have hne {sheet : Nat} {touch : Touch}
      (ht : (if sheet = number then touch else .nothing) = .nothing) (htouch : touch ≠ .nothing) :
      (sheet == number) = false := by
    simpa [htouch] using ht
  cases call with
  | register sheet styles =>
    refine others_onSheet hc fun s => ?_
    simp [Others, Frame.isOf, hne ht]
  | unregister sheet styles =>
    refine others_onSheet hc fun s => ?_
    simp [Others, Frame.isOf, World.beginUnregister, hne ht]
  | clear sheet =>
    refine others_onSheet hc fun s => ?_
    simp [Others, Frame.isOf, World.beginClear, hne ht]
  | render | url | join | listen | unlisten | attach =>
    exact others_onSheet hc fun _ => by simp [Others, Frame.isOf]
  | emit emitter report =>
    exact others_onEmitter hc fun _ => (others_emit _ _ _).append (by simp [Others, Frame.isOf])
  | setMinimum | observe | reports | reportTexts | clearReports =>
    exact others_onEmitter hc fun _ => by simp [Others, Frame.isOf]
  | newSheet | newEmitter =>
    obtain rfl := Except.ok.inj hc
    simp [Others, Frame.isOf]
  | fail message => cases ht

end Others

/-- A frame leaves none of a call on the sheet, unless it is one itself or makes
a call that is about the sheet. -/
theorem others_move {world : World} {number : Nat} {frame : Frame} {change : World × List Frame}
    (hm : frame.Move world change) (ht : frame.touch number = .nothing)
    (hf : frame.isOf number = false) : Others number change.2 := by
  cases hm with
  | drop => simp [Others]
  | call hc => exact (others_call ht hc).append (by simp [Others, Frame.isOf])
  | monitor => exact (others_emitFrom _ _ _ _ _).append (by simp [Others, Frame.isOf])
  | listen | listenerFires | observe | observerFires => simp [Others, Frame.isOf]
  | walk | removal => exact (others_tell _ _ _).append (by simpa [Others, Frame.isOf] using hf)
  | walked | count => simpa [Others, Frame.isOf] using hf
  | done => exact others_emitFrom _ _ _ _ _

/-- The turn of one listener ends the telling of a change or is followed by the next one's. -/
theorem Frame.Move.last_change {world : World} {number next : Nat} {event : Event}
    {change : World × List Frame} (h : (Frame.change number event next).Move world change) :
    change.2 = [] ∨ change.2.getLast? = some (.change number event (next + 1)) := by
  cases h with
  | drop => exact .inl rfl
  | monitor => exact .inr List.getLast?_concat
  | listen | listenerFires => exact .inr rfl

/-! ## A call in the middle -/

/-- A call on the sheet from its first step on, until its last turn is over,
with the number of turns it has made and the notices that the sheet has given
meanwhile. Whoever is being told may make any calls that leave the sheet alone,
and may catch what is thrown at it. -/
inductive Midway (number : Nat) (first : Run) : Run → Nat → List Notice → Prop
  | begin : Midway number first first.step 0 []
  /-- A listener or an observer makes a call before it returns. -/
  | nested {run : Run} {count : Nat} {notices : List Notice} (call : Call) :
    Midway number first run count notices → run.listening = true →
      Midway number first { run with stack := .script [call] :: run.stack } count notices
  | pass {run : Run} {count : Nat} {notices : List Notice} :
    Midway number first run count notices → run.touch number = .nothing →
      Midway number first run.step count
        (notices ++ (run.files?.filter (·.sheet == number)).toList)
  | turn {run : Run} {count : Nat} {notices : List Notice} :
    Midway number first run count notices → run.touch number = .goOn →
      Midway number first run.step (count + 1) notices
  /-- One that was told catches what was thrown by a call of its own. -/
  | caught {run : Run} {count : Nat} {notices : List Notice} {dropped kept : List Frame} :
    Midway number first run count notices → run.stack = dropped ++ kept →
      kept.filterMap (Frame.rest? number) = run.rests number →
      Run.listening { run with stack := kept } = true →
      Midway number first { run with stack := kept } count notices

/-- The frame of a change at the top level that the last of so many turns made. -/
def Tells (number : Nat) (call : StyleCall) (root : Container) (count : Nat) (frame : Frame) :
    Prop :=
  ∃ turn stop event next, count = turn + 1 ∧ (call.turns root)[turn]? = some stop ∧
    call.Makes stop event ∧ event.isTopLevel = true ∧ frame = .change number event next

/-- What stands above a call's own frame after so many turns: nothing, or what
is told of the last turn and all that this has led to. -/
structure Hears (number : Nat) (call : StyleCall) (root : Container) (count : Nat)
    (above : List Frame) : Prop where
  others : Others number above
  last : ∀ frame, above.getLast? = some frame → Tells number call root count frame

namespace Hears

variable {run : Run} {number count : Nat} {call : StyleCall} {root : Container}
  {above below : List Frame}

theorem nothing : Hears number call root count [] :=
  ⟨fun _ hm => absurd hm List.not_mem_nil, fun _ hl => by cases hl⟩

theorem tell {stop : Stop} {event : Option Event} (hs : (call.turns root)[count]? = some stop)
    (hm : ∀ e, event = some e → call.Makes stop e) :
    Hears number call root (count + 1) (World.tell number event) := by
  refine ⟨others_tell _ _ _, fun frame hl => ?_⟩
  unfold World.tell at hl
  cases he : event.filter Event.isTopLevel with
  | none =>
    rw [he] at hl
    cases hl
  | some e =>
    rw [he] at hl
    obtain ⟨hevent, htop⟩ := Option.filter_eq_some_iff.mp he
    exact ⟨count, stop, e, 0, rfl, hs, hm e hevent, htop, (Option.some.inj hl).symm⟩

/-- What was thrown ends the innermost of the frames. -/
theorem drop {dropped : List Frame} (h : Hears number call root count (dropped ++ above)) :
    Hears number call root count above := by
  refine ⟨fun frame hm => h.others frame (List.mem_append_right _ hm), fun frame hl => ?_⟩
  refine h.last frame ?_
  rw [List.getLast?_append, hl]
  rfl

theorem append {frames : List Frame} (h : Hears number call root count above)
    (hne : above ≠ []) (ho : Others number frames) :
    Hears number call root count (frames ++ above) := by
  refine ⟨ho.append h.others, fun frame hl => h.last frame ?_⟩
  rwa [List.getLast?_append_of_ne_nil _ hne] at hl

/-- Below the frames that a step adds, the last turn is still being told. -/
theorem step {frame : Frame} (h : Hears number call root count (frame :: above))
    (hs : run.stack = frame :: (above ++ below)) (ht : run.touch number = .nothing) :
    ∃ after, run.step.stack = after ++ below ∧ Hears number call root count after := by
  have hframe := (Run.touch_of_cons hs).symm.trans ht
  obtain ⟨change, hmove, -, hstack, -⟩ := Run.step_move hs (Run.throws?_of_touch hs hframe)
  have hothers := others_move hmove hframe (h.others frame List.mem_cons_self)
  cases above with
  | nil =>
    refine ⟨change.2, hstack, hothers, fun last hl => ?_⟩
    obtain ⟨turn, stop, event, next, hcount, hstop, hmakes, htop, rfl⟩ := h.last frame rfl
    rcases hmove.last_change with hnil | hlast
    · rw [hnil] at hl
      cases hl
    · rw [hlast] at hl
      exact ⟨turn, stop, event, next + 1, hcount, hstop, hmakes, htop, (Option.some.inj hl).symm⟩
  | cons second above =>
    have hrest : Hears number call root count (second :: above) :=
      drop (show Hears number call root count ([frame] ++ second :: above) from h)
    exact ⟨_, by simp [hstack], hrest.append (by simp) hothers⟩

end Hears

/-! ## Every moment -/

/-- A call stands at a turn: the container is as after that turn, and below what
is being told of it waits what is left of the call. -/
structure Stands (number : Nat) (call : StyleCall) (root : Container) (run : Run) (count : Nat)
    (forest : Forest) (rest : Rest) (above below : List Frame) : Prop where
  shown : run.world.forest? number = some forest
  stack : run.stack = above ++ rest.frame number :: below
  made : forest.root = call.upTo root count
  wellFormed : forest.root.WellFormed
  after : rest.After root forest count call
  hears : Hears number call root count above

namespace Stands

variable {run : Run} {number count : Nat} {call : StyleCall} {root : Container}
  {forest : Forest} {rest : Rest} {above below : List Frame}

/-- Who leaves the sheet alone is above the call. -/
theorem exists_top (h : Stands number call root run count forest rest above below)
    (ht : run.touch number = .nothing) : ∃ frame inner, above = frame :: inner ∧
      run.stack = frame :: (inner ++ rest.frame number :: below) := by
  have hstack := h.stack
  cases habove : above with
  | nil =>
    rw [habove, List.nil_append] at hstack
    have hrest := (Run.touch_of_cons hstack).symm.trans ht
    rw [Frame.touch_frame] at hrest
    exact absurd hrest rest.touch_ne_nothing
  | cons frame inner =>
    rw [habove] at hstack
    exact ⟨frame, inner, rfl, hstack⟩

theorem pass (h : Stands number call root run count forest rest above below)
    (ht : run.touch number = .nothing) :
    ∃ after, Stands number call root run.step count forest rest after below := by
  have hshows : run.Shows number forest (run.rests number) := ⟨h.shown, rfl⟩
  obtain ⟨frame, inner, rfl, hstack⟩ := h.exists_top ht
  obtain ⟨after, hafter, hears⟩ := h.hears.step hstack ht
  exact ⟨after, (hshows.step_nothing ht).forest, hafter, h.made, h.wellFormed, h.after, hears⟩

/-- Only the call itself goes on with its turns, once everybody was told. -/
theorem above_eq_nil (h : Stands number call root run count forest rest above below)
    (ht : run.touch number = .goOn) : above = [] := by
  have hstack := h.stack
  cases habove : above with
  | nil => rfl
  | cons frame inner =>
    rw [habove, List.cons_append] at hstack
    have hof := h.hears.others frame (by simp [habove])
    obtain ⟨left, rfl, -⟩ := Frame.exists_rest (.inl ((Run.touch_of_cons hstack).symm.trans ht))
    cases left <;> simp [Rest.frame, Frame.isOf] at hof

theorem getElem?_of_drop {stops left : List Stop} {stop : Stop}
    (h : stops.drop count = stop :: left) :
    stops[count]? = some stop ∧ stops.drop (count + 1) = left := by
  rw [← List.head?_drop, ← List.tail_drop, h]
  exact ⟨rfl, rfl⟩

/-- A turn of the call, from what it makes of the containers and what is told of it. -/
theorem of_step {event : Option Event} {stop : Stop}
    (h : run.world.forest? number = some forest) {changed : Forest}
    (hrun : run.step = { run with
      world := run.world.setForest number changed
      stack := World.tell number event ++ rest.frame number :: below })
    (hstop : (call.turns root)[count]? = some stop)
    (hmakes : ∀ e, event = some e → call.Makes stop e)
    (hmade : changed.root = call.turn (call.upTo root count) stop)
    (hw : changed.root.WellFormed) (hafter : rest.After root changed (count + 1) call) :
    Stands number call root run.step (count + 1) changed rest (World.tell number event) below where
  shown := by
    rw [hrun]
    exact World.forest?_setForest h _
  stack := by rw [hrun]
  made := hmade.trans (StyleCall.upTo_succ hstop).symm
  wellFormed := hw
  after := hafter
  hears := .tell hstop hmakes

theorem turn_walk {styles : Layer} {walk : Walk} {duties : List Walk.Duty}
    (h : Stands number (.register styles) root run count forest (.walk walk) above below)
    (hs : run.stack = .walk number walk :: below) (ht : walk.tasks ≠ [])
    (htasks : walk.tasks = duties.map Prod.snd) (hduties : ∀ duty ∈ duties, duty.At forest)
    (hstops : duties.flatMap Walk.Duty.stops = styles.stops.drop count) :
    ∃ changed left told,
      Stands number (.register styles) root run.step (count + 1) changed left told below := by
  obtain ⟨sheet, hsheet, rfl⟩ := Option.map_eq_some_iff.mp h.shown
  cases duties with
  | nil => exact absurd htasks ht
  | cons duty duties =>
    obtain ⟨stop, added, hstop, hadded, hstep⟩ :=
      Walk.step_spec htasks (hduties duty List.mem_cons_self)
    rw [List.flatMap_cons, hstop, List.cons_append] at hstops
    obtain ⟨hturn, hnext⟩ := getElem?_of_drop hstops.symm
    have hrun := Run.step_walk hs hsheet ht
    rw [hstep] at hrun
    refine ⟨_, .walk _, _, of_step h.shown hrun hturn ?_ ?_ ?_ ?_⟩
    · exact fun e he => Forest.makes_visit styles he
    · rw [Forest.visit_fst, ← h.made]
      rfl
    · rw [Forest.visit_fst]
      exact h.wellFormed.acquireAt stop.fresh_node stop.path
    · refine .walk (added ++ duties) rfl ?_ ?_
      · rw [Forest.visit_fst]
        intro d hd
        rcases List.mem_append.mp hd with hd | hd
        · exact hadded d hd
        · exact hduties d (List.mem_cons_of_mem _ hd)
      · rw [hnext, List.flatMap_append]

theorem turn_removal {styles : Layer} {met : Forest} {stop : Stop} {left : List Stop}
    (h : Stands number (.unregister styles) root run count forest rest above below)
    (hs : run.stack = .removals number (met.removalsOf (stop :: left)) :: below)
    (htracks : forest.TracksEach met (stop :: left))
    (hleft : (root.held styles.stops).reverse.drop count = stop :: left) :
    ∃ changed left told,
      Stands number (.unregister styles) root run.step (count + 1) changed left told below := by
  obtain ⟨sheet, hsheet, rfl⟩ := Option.map_eq_some_iff.mp h.shown
  obtain ⟨hturn, hnext⟩ := getElem?_of_drop hleft
  have htrack := htracks stop List.mem_cons_self
  have hrun := Run.step_removal hs hsheet
  refine ⟨_, .removals _, _, of_step h.shown hrun hturn ?_ ?_ ?_ ?_⟩
  · exact fun e he => Forest.makes_release styles he
  · rw [← h.made]
    exact Forest.root_release htrack stop.key
  · exact Forest.wellFormed_release htrack h.wellFormed stop.key
  · have hreleased := htracks.release h.wellFormed
    rw [← hnext] at hreleased
    rw [← hnext]
    exact .removals met hreleased

theorem turn (h : Stands number call root run count forest rest above below)
    (ht : run.touch number = .goOn) : ∃ changed left told,
      Stands number call root run.step (count + 1) changed left told below := by
  have hstack := h.stack
  rw [h.above_eq_nil ht, List.nil_append] at hstack
  have hrest := (Run.touch_of_cons hstack).symm.trans ht
  rw [Frame.touch_frame] at hrest
  cases h.after with
  | @walk styles walk duties htasks hduties hstops =>
    refine h.turn_walk hstack (fun hdone => ?_) htasks hduties hstops
    rw [Rest.touch, hdone] at hrest
    cases hrest
  | @removals styles met htracks =>
    cases hleft : (root.held styles.stops).reverse.drop count with
    | nil =>
      rw [hleft] at hrest
      cases hrest
    | cons stop left =>
      rw [hleft] at hstack htracks
      exact h.turn_removal hstack htracks hleft

/-- Whoever listens is above the call. -/
theorem above_ne_nil (h : Stands number call root run count forest rest above below)
    (hl : run.listening = true) : above ≠ [] := by
  rintro rfl
  rw [Run.listening, h.stack] at hl
  cases rest <;> simp [Rest.frame] at hl

theorem nested (h : Stands number call root run count forest rest above below)
    (hl : run.listening = true) (inner : Call) :
    Stands number call root { run with stack := .script [inner] :: run.stack } count forest rest
      (.script [inner] :: above) below where
  shown := h.shown
  stack := by rw [h.stack, List.cons_append]
  made := h.made
  wellFormed := h.wellFormed
  after := h.after
  hears := by
    have hothers : Others number [.script [inner]] := by simp [Others, Frame.isOf]
    exact h.hears.append (h.above_ne_nil hl) hothers

/-- What a listener catches leaves the call's own frame where it is. -/
theorem caught (h : Stands number call root run count forest rest above below)
    {dropped kept : List Frame} (hs : run.stack = dropped ++ kept)
    (hr : kept.filterMap (Frame.rest? number) = run.rests number) :
    ∃ after, Stands number call root { run with stack := kept } count forest rest after below := by
  have hsplit := hs.symm.trans h.stack
  rcases List.append_eq_append_iff.mp hsplit with ⟨after, rfl, rfl⟩ | ⟨more, rfl, hkept⟩
  · exact ⟨after, h.shown, rfl, h.made, h.wellFormed, h.after, h.hears.drop⟩
  · cases more with
    | nil =>
      exact ⟨[], h.shown, hkept.symm, h.made, h.wellFormed, h.after, .nothing⟩
    | cons frame more =>
      -- Then the call's frame would be among the dropped ones, and its rest missing.
      rw [List.cons_append] at hkept
      obtain ⟨rfl, rfl⟩ := List.cons.inj hkept
      exfalso
      have hlength := congrArg List.length hr
      rw [Run.rests, h.stack, List.filterMap_append, List.filterMap_cons, Frame.rest?_frame,
        List.filterMap_append] at hlength
      simp only [List.length_append, List.length_cons] at hlength
      omega

end Stands

/-- A call begins with all its turns before it. -/
theorem Stands.begin {number : Nat} {call : StyleCall} {first : Run} {sheet : Sheet}
    {calls : List Call} {below : List Frame}
    (hs : first.stack = .script (.ofAct number (.style call) :: calls) :: below)
    (hsheet : first.world.sheet? number = some sheet) (hw : sheet.container.WellFormed) :
    ∃ forest rest later,
      Stands number call sheet.container first.step 0 forest rest [] later := by
  have hforest := World.forest?_of_sheet? hsheet
  cases call with
  | register styles =>
    have hrun := Run.step_register hs hsheet
    have hafter : Rest.After sheet.container sheet.forest 0 (.register styles)
        (.walk (.start sheet.top styles.compile)) := by
      refine .walk [([], .block sheet.top Selector.root styles.compile)] rfl ?_ ?_
      · intro duty hd
        rw [List.mem_singleton.mp hd]
        rfl
      · rw [List.flatMap_singleton]
        rfl
    refine ⟨sheet.forest, _, .script calls :: below, ?_, ?_, rfl, hw, hafter, .nothing⟩
    · rw [hrun]
      exact hforest
    · rw [hrun]
      rfl
  | unregister styles =>
    let held := sheet.container.held styles.stops
    let opened := sheet.container.selectEach Container.revoke styles.className held
    have hrun := Run.step_unregister hs hsheet
    simp only [show sheet.top = sheet.forest.place .root from rfl, Forest.replay_top,
      Forest.removeSelectors_styled] at hrun
    have hmoved : opened.WellFormed := hw.selectEach Container.moves_revoke held
    have hafter : Rest.After sheet.container ⟨opened, sheet.forest.evictions⟩ 0
        (.unregister styles) (.removals (sheet.forest.removalsOf held.reverse)) := by
      refine .removals sheet.forest fun stop _ => ?_
      exact Forest.tracks_place ⟨opened, sheet.forest.evictions⟩ stop.path
    refine ⟨⟨opened, sheet.forest.evictions⟩, _,
      .done number (ascii "unregister") styles.className :: .answer (.text styles.className) ::
        .script calls :: below, ?_, ?_, rfl, hmoved, hafter, .nothing⟩
    · rw [hrun]
      exact World.forest?_setForest hforest _
    · rw [hrun]
      simp only [Found.removals, ← List.map_reverse, List.map_map]
      rfl

/-- While others have the word the sheet gives notice of changes only. -/
theorem module_of_files {run : Run} {number : Nat} {frame : Frame} {below : List Frame}
    {notice : Notice} (hs : run.stack = frame :: below) (hf : frame.isOf number = false)
    (h : run.files? = some notice) (hn : notice.sheet = number) :
    notice.module = ascii "cache" := by
  unfold Run.files? at h
  split at h
  · split at h
    · obtain rfl := Option.some.inj h
      rfl
    · cases h
  · rename_i hdone
    rw [hdone] at hs
    obtain ⟨rfl, -⟩ := List.cons.inj hs
    obtain rfl := Option.some.inj h
    simp [Frame.isOf, ← hn, Notice.done] at hf
  · cases h

namespace Midway

variable {number count : Nat} {first run : Run} {notices : List Notice} {call : StyleCall}
  {sheet : Sheet} {calls : List Call} {below : List Frame}

theorem stands (h : Midway number first run count notices)
    (hs : first.stack = .script (.ofAct number (.style call) :: calls) :: below)
    (hsheet : first.world.sheet? number = some sheet) (hw : sheet.container.WellFormed) :
    (∃ forest rest above later,
      Stands number call sheet.container run count forest rest above later) ∧
    ∀ notice ∈ notices, notice.module = ascii "cache" := by
  induction h with
  | begin =>
    obtain ⟨forest, rest, later, hstands⟩ := Stands.begin hs hsheet hw
    exact ⟨⟨forest, rest, [], later, hstands⟩, by simp⟩
  | nested inner _ hl ih =>
    obtain ⟨⟨forest, rest, above, later, hstands⟩, hnotices⟩ := ih
    exact ⟨⟨forest, rest, _, later, hstands.nested hl inner⟩, hnotices⟩
  | pass _ ht ih =>
    obtain ⟨⟨forest, rest, above, later, hstands⟩, hnotices⟩ := ih
    obtain ⟨after, hafter⟩ := hstands.pass ht
    refine ⟨⟨forest, rest, after, later, hafter⟩, fun notice hm => ?_⟩
    rcases List.mem_append.mp hm with hm | hm
    · exact hnotices notice hm
    · obtain ⟨hfiles, hnumber⟩ := Option.filter_eq_some_iff.mp (Option.mem_toList.mp hm)
      obtain ⟨frame, inner, rfl, hstack⟩ := hstands.exists_top ht
      have hof := hstands.hears.others frame List.mem_cons_self
      exact module_of_files hstack hof hfiles (beq_iff_eq.mp hnumber)
  | turn _ ht ih =>
    obtain ⟨⟨forest, rest, above, later, hstands⟩, hnotices⟩ := ih
    obtain ⟨changed, left, told, hturn⟩ := hstands.turn ht
    exact ⟨⟨changed, left, told, later, hturn⟩, hnotices⟩
  | caught _ hstack hr _ ih =>
    obtain ⟨⟨forest, rest, above, later, hstands⟩, hnotices⟩ := ih
    obtain ⟨after, hafter⟩ := hstands.caught hstack hr
    exact ⟨⟨forest, rest, after, later, hafter⟩, hnotices⟩

/-- **A call that is cut short has made a first part of its changes.** While a
call registers or undoes a tree, and nobody else changes the sheet, something is
thrown only by those who are told of a turn that has changed the top level. The
container is then as after this turn: a registration has taken the references up
to it and given no selector, an undoing has taken away all selectors that it
found and given back the references up to this one. Whatever notice the sheet
has given since the call began was of a change and not of a call that is done. -/
theorem thrown (hr : Reachable number first)
    (hs : first.stack = .script (.ofAct number (.style call) :: calls) :: below)
    (h : Midway number first run count notices) {message : Bytes}
    (hf : run.throws? = some message) :
    ∃ before after turn stop event next,
      first.world.sheet? number = some before ∧
      run.step = { run with stack := [], failure := some message } ∧
      run.step.world.sheet? number = some after ∧
      count = turn + 1 ∧ (call.turns before.container)[turn]? = some stop ∧
      .change number event next ∈ run.stack ∧
      event.isTopLevel = true ∧ event.change = call.change ∧ event.key = stop.key ∧
      after.container = call.upTo before.container count ∧
      ∀ notice ∈ notices, notice.module = ascii "cache" := by
  obtain ⟨forest, rests, hshows, hsound, -⟩ := hr.kept
  obtain ⟨before, hbefore, rfl⟩ := Option.map_eq_some_iff.mp hshows.forest
  obtain ⟨⟨forest, rest, above, later, hstands⟩, hnotices⟩ :=
    h.stands hs hbefore (hsound none _ rfl)
  obtain ⟨after, hafter, rfl⟩ := Option.map_eq_some_iff.mp hstands.shown
  obtain ⟨left, stack, hfail⟩ := Run.throws?_eq_some hf
  have hstep : run.step = { run with stack := [], failure := some message } := by
    rw [Run.step_of_cons hfail]
    rfl
  have hne : above ≠ [] := by
    rintro rfl
    have htop := hfail.symm.trans hstands.stack
    cases rest <;> cases htop
  obtain ⟨turn, stop, event, next, hcount, hstop, hmakes, htop, hlast⟩ :=
    hstands.hears.last _ (List.getLast?_eq_getLast_of_ne_nil hne)
  have hmem : Frame.change number event next ∈ run.stack := by
    rw [hstands.stack, ← hlast]
    exact List.mem_append_left _ (List.getLast_mem hne)
  refine ⟨before, after, turn, stop, event, next, hbefore, hstep, ?_, hcount, hstop, hmem, htop,
    hmakes.change, hmakes.key, hstands.made, hnotices⟩
  rw [hstep]
  exact hafter

end Midway

/-- A listener that throws the first time it is told of such a change. -/
def thrower (change : Change) : Callback Call :=
  ⟨ascii "thrower", some change.name, 1, [.fail (ascii "stop")]⟩

/-- A call that is made when the one before is over, with so many steps. -/
def Run.next (run : Run) (call : Call) (fuel : Nat) : Run :=
  (run.world.settle.start call).steps fuel

theorem Reachable.next {number : Nat} {run : Run} (h : Reachable number run)
    (hs : run.stack.isEmpty = true) (call : Call) (fuel : Nat) :
    Reachable number (run.next call fuel) :=
  (h.call call (List.isEmpty_iff.mp hs)).steps fuel

/-- A sheet with a tree and a listener that throws at what comes. -/
def guarded : Run :=
  let red := Run.next ⟨⟨1, [Sheet.create 1], []⟩, [], [], .nothing, none⟩ (.register 0 plainRed) 9
  red.next (.listen 0 (thrower .add)) 3

/-- What a registration has left that was cut short, with a listener that throws
at what goes. -/
def halved : Run := (guarded.next (.register 0 printed) 6).next (.listen 0 (thrower .remove)) 3

theorem reachable_halved : Reachable 0 guarded ∧ Reachable 0 halved := by
  have hempty : Reachable 0 ⟨⟨1, [Sheet.create 1], []⟩, [], [], .nothing, none⟩ :=
    .start rfl rfl rfl
  have hred := hempty.next rfl (.register 0 plainRed) 9
  have hguarded : Reachable 0 guarded := hred.next (by decide +kernel) (.listen 0 (thrower .add)) 3
  have hcut := hguarded.next (by decide +kernel) (.register 0 printed) 6
  exact ⟨hguarded, hcut.next (by decide +kernel) (.listen 0 (thrower .remove)) 3⟩

/-- The registration is cut at its third reference, the first one that changes
the top level; the undoing of the same tree at its first. -/
theorem thrown_of_thrower :
    let first := guarded.world.settle.start (.register 0 printed)
    let second := halved.world.settle.start (.unregister 0 printed)
    (∃ run before after, Midway 0 first run 3 [] ∧ run.throws? = some (ascii "stop") ∧
      first.world.sheet? 0 = some before ∧ run.step.world.sheet? 0 = some after ∧
      after.container = before.container.acquireEach (printed.stops.take 3)) ∧
    ∃ run before after, Midway 0 second run 1 [] ∧ run.throws? = some (ascii "stop") ∧
      second.world.sheet? 0 = some before ∧ run.step.world.sheet? 0 = some after ∧
      after.container = StyleCall.upTo (.unregister printed) before.container 1 := by
  intro first second
  obtain ⟨hguarded, hhalved⟩ := reachable_halved
  have hfirst : Reachable 0 first := hguarded.call _ (List.isEmpty_iff.mp (by decide +kernel))
  have hsecond : Reachable 0 second := hhalved.call _ (List.isEmpty_iff.mp (by decide +kernel))
  have hturns : Midway 0 first _ 3 [] :=
    ((Midway.begin.turn (by decide +kernel)).turn (by decide +kernel)).turn (by decide +kernel)
  have htold : Midway 0 first _ 3 [] := hturns.pass (by decide +kernel)
  have hturn : Midway 0 second _ 1 [] := Midway.begin.turn (by decide +kernel)
  have hgone : Midway 0 second _ 1 [] := (hturn.pass (by decide +kernel)).pass (by decide +kernel)
  have hcall : first.stack = .script [.ofAct 0 (.style (.register printed))] :: [] := rfl
  have hcall' : second.stack = .script [.ofAct 0 (.style (.unregister printed))] :: [] := rfl
  have hstop : first.step.step.step.step.step.throws? = some (ascii "stop") := by decide +kernel
  have hstop' : second.step.step.step.step.throws? = some (ascii "stop") := by decide +kernel
  obtain ⟨before, after, -, -, -, -, hbefore, -, hafter, -, -, -, -, -, -, hmade, -⟩ :=
    Midway.thrown hfirst hcall htold hstop
  obtain ⟨before', after', -, -, -, -, hbefore', -, hafter', -, -, -, -, -, -, hmade', -⟩ :=
    Midway.thrown hsecond hcall' hgone hstop'
  exact ⟨⟨_, before, after, htold, hstop, hbefore, hafter, hmade⟩,
    _, before', after', hgone, hstop', hbefore', hafter', hmade'⟩

end SheetSession
end StyleRegistry
