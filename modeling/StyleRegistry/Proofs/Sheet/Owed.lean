import StyleRegistry.Proofs.Rule.Turnover
import StyleRegistry.Proofs.Sheet.Observed
import StyleRegistry.Proofs.Sheet.Staff

/-! # What an emitter learns of a sheet

While nobody changes a sheet but the call that is under way on it, the notices
that the call has still to give can be read off the stack: one for each change
at the top level that is made or being told, for each of the sheet's own
listeners that has not been told of it, and one for the call itself. A step
files the first of them or leaves all of them to be filed, so what is filed and
what is owed make up the same list from the beginning of the call to its end.
Between calls nothing is owed. -/
namespace StyleRegistry

open Bytes (ascii)
open Forest (topLevel topLevel_append)

/-! ## What a call changes -/

namespace Act

/-- What a call leaves that nobody interrupts, and what it tells of. -/
def outcome (forest : Forest) : Act → Forest × List Event
  | .style (.register styles) =>
    let made := forest.register (forest.place .root) styles
    (made.forest, made.events)
  | .style (.unregister styles) =>
    let made := forest.unregister (forest.place .root) styles
    (made.forest, made.events)
  | .clear => forest.clear (forest.place .root)

def name : Act → Bytes
  | .style (.register _) => ascii "register"
  | .style (.unregister _) => ascii "unregister"
  | .clear => ascii "clear"

/-- What a call does to keys that come or go. -/
def change : Act → Change
  | .style (.register _) => .add
  | _ => .remove

variable {forest : Forest} {act : Act}

theorem turnover_outcome (forest : Forest) (act : Act) :
    Turnover forest.root.keys (topLevel (act.outcome forest).2)
      (act.outcome forest).1.root.keys := by
  cases act with
  | style call =>
    cases call with
    | register styles => exact forest.turnover_register (forest.place .root) styles
    | unregister styles => exact forest.turnover_unregister (forest.place .root) styles
  | clear => exact forest.turnover_clear (forest.place .root)

theorem change_outcome (forest : Forest) (act : Act) :
    ∀ event ∈ (act.outcome forest).2, event.change = act.change := by
  cases act with
  | style call =>
    cases call with
    | register styles =>
      exact Forest.change_run forest (.start (forest.place .root) styles.compile)
        (Walk.bound styles.compile)
    | unregister styles => exact Forest.change_removeEach _ _
  | clear => exact Forest.change_removeEach _ _

theorem root_outcome (hw : forest.root.WellFormed) (act : Act) :
    (act.outcome forest).1.root = act.alone forest.root := by
  cases act with
  | style call =>
    cases call with
    | register styles =>
      rw [alone, StyleCall.alone_register]
      exact congrArg (·.forest.root) (forest.register_eq styles)
    | unregister styles =>
      rw [alone, StyleCall.alone_unregister hw]
      exact Forest.root_unregister hw styles
  | clear =>
    exact (Forest.root_clear hw).trans (@Forest.root_clear (.ofContainer forest.root) hw).symm

end Act

namespace SheetSession

/-! ## Notices that are owed -/

/-- A frame that changes nothing and has nothing to tell. -/
def Frame.isIdle : Frame → Bool
  | .script _ | .report _ _ _ | .answer _ | .answerCount _ => true
  | _ => false

/-- What the sheet's own listeners are told of a change from this turn on. -/
def Staff.notices (staff : Staff) (number : Nat) (next : Nat) (event : Event) : List Notice :=
  List.replicate (staff.waiting next) (.change number event)

/-- The notices that a stack owes, if nobody else changes the sheet; at most one
call is under way on it. -/
inductive Owes (world : World) (number : Nat) : Bool → List Frame → List Notice → Prop
  | nil : Owes world number false [] []
  | idle {working : Bool} {frame : Frame} {stack : List Frame} {owed : List Notice} :
    frame.isIdle = true → Owes world number working stack owed →
      Owes world number working (frame :: stack) owed
  | change {working : Bool} {staff : Staff} {event : Event} {next : Nat} {stack : List Frame}
    {owed : List Notice} :
    world.staff? number = some staff → Owes world number working stack owed →
      Owes world number working (.change number event next :: stack)
        (staff.notices number next event ++ owed)
  | done {working : Bool} {stage message : Bytes} {stack : List Frame} {owed : List Notice} :
    Owes world number working stack owed →
      Owes world number working (.done number stage message :: stack)
        (.done number stage message :: owed)
  | walk {staff : Staff} {forest : Forest} {walk : Walk} {stack : List Frame}
    {owed : List Notice} (fuel : Nat) :
    world.staff? number = some staff → world.forest? number = some forest →
      (walk.run forest fuel).2.1.tasks = [] → Owes world number false stack owed →
      Owes world number true (.walk number walk :: stack)
        ((topLevel (walk.run forest fuel).2.2).flatMap (staff.notices number 0) ++
          .done number (ascii "register") (walk.run forest fuel).2.1.className :: owed)
  | removals {staff : Staff} {forest : Forest} {left : List Removal} {stack : List Frame}
    {owed : List Notice} :
    world.staff? number = some staff → world.forest? number = some forest →
      Owes world number false stack owed →
      Owes world number true (.removals number left :: stack)
        ((topLevel (forest.removeEach left).2).flatMap (staff.notices number 0) ++ owed)

namespace Owes

variable {world after : World} {number : Nat} {working : Bool} {stack : List Frame}
  {owed : List Notice}

/-- The sheet's listeners and, while a call is under way on it, its containers
are all that matters. -/
theorem keeps (h : Owes world number working stack owed) (hk : world.Keeps after)
    (hf : working = true → ∀ forest, world.forest? number = some forest →
      after.forest? number = some forest) :
    Owes after number working stack owed := by
  induction h with
  | nil => exact .nil
  | idle hi _ ih => exact .idle hi (ih hf)
  | change hs _ ih => exact .change ((hk.staff number).trans hs) (ih hf)
  | done _ ih => exact .done (ih hf)
  | walk fuel hs hforest ht _ ih =>
    exact .walk fuel ((hk.staff number).trans hs) (hf rfl _ hforest) ht (ih (by simp))
  | removals hs hforest _ ih =>
    exact .removals ((hk.staff number).trans hs) (hf rfl _ hforest) (ih (by simp))

theorem append_idle {frames : List Frame} (h : Owes world number working stack owed)
    (hi : ∀ frame ∈ frames, frame.isIdle = true) :
    Owes world number working (frames ++ stack) owed := by
  induction frames with
  | nil => exact h
  | cons frame frames ih =>
    exact .idle (hi frame List.mem_cons_self)
      (ih fun other ho => hi other (List.mem_cons_of_mem _ ho))

theorem tell (h : Owes world number working stack owed) {staff : Staff}
    (hs : world.staff? number = some staff) (event : Option Event) :
    Owes world number working (World.tell number event ++ stack)
      ((topLevel event.toList).flatMap (staff.notices number 0) ++ owed) := by
  cases event with
  | none => exact h
  | some event =>
    cases htop : event.isTopLevel with
    | true =>
      simp only [World.tell, topLevel, Option.filter_some, htop, if_true, Option.map_some,
        Option.toList_some, List.filter_cons_of_pos, List.filter_nil, List.flatMap_singleton]
      exact .change hs h
    | false =>
      simp only [World.tell, topLevel, Option.filter_some, htop, Bool.false_eq_true, if_false]
      simpa [htop] using h

end Owes

/-! ## Steps that pay -/

namespace Staff

/-- Whose turn it is, is told or not, and then the others are. -/
theorem waiting_eq (staff : Staff) (next : Nat) :
    staff.waiting next =
      (staff.listeners.get? next).elim 0 fun own => own.toNat + staff.waiting (next + 1) := by
  unfold waiting Subscribers.get?
  cases h : staff.listeners.present[next]? with
  | none => simp [List.drop_eq_nil_of_le (List.getElem?_eq_none_iff.mp h)]
  | some subscriber =>
    obtain ⟨hlt, rfl⟩ := List.getElem?_eq_some_iff.mp h
    rw [List.drop_eq_getElem_cons hlt, List.countP_cons, Nat.add_comm, Option.map_some,
      Option.elim_some]
    congr 1
    cases staff.listeners.present[next].2 <;> rfl

end Staff

theorem Sheet.get?_staff (sheet : Sheet) (next : Nat) :
    sheet.staff.listeners.get? next = (sheet.listeners.get? next).map Listener.isMonitor := by
  simp [Sheet.staff, Subscribers.map, Subscribers.get?, Function.comp_def]

section Steps

variable {run : Run} {number : Nat} {working : Bool} {below : List Frame} {owed : List Notice}

theorem World.isIdle_file (world : World) (notice : Notice) :
    ∀ frame ∈ (world.file notice).2, frame.isIdle = true := by
  unfold World.file World.emitFrom
  split
  · simp
  · split
    · simp
    · unfold World.emit
      split <;> simp [Frame.isIdle]

/-- The next step files the first of the notices that are owed, or none of them. -/
def Pays (number : Nat) (run : Run) (owed : List Notice) : Prop :=
  ∃ working left, Owes run.step.world number working run.step.stack left ∧
    run.files?.toList ++ left = owed

/-- The listener whose turn it is may have others called before the next one is. -/
theorem Run.step_listener {sheet : Sheet} {event : Event} {next : Nat} {listener : Listener}
    (hs : run.stack = .change number event next :: below)
    (hsheet : run.world.sheet? number = some sheet)
    (hget : sheet.listeners.get? next = some listener) :
    (∃ frames, run.step.stack = frames ++ .change number event (next + 1) :: below ∧
      ∀ frame ∈ frames, frame.isIdle = true) ∧
    run.files?.toList = List.replicate listener.isMonitor.toNat (.change number event) := by
  have hstep := step_of_cons hs
  simp only [advance, visitListener, hsheet, hget] at hstep
  rw [hstep]
  cases listener with
  | monitor =>
    have hfiles : run.files? = some (.change number event) := by simp [files?, hs, hsheet, hget]
    exact ⟨⟨_, rfl, run.world.isIdle_file (.change number event)⟩, by rw [hfiles]; rfl⟩
  | scripted callback =>
    have hfiles : run.files? = none := by simp [files?, hs, hsheet, hget]
    refine ⟨?_, by rw [hfiles]; rfl⟩
    simp only
    split
    · exact ⟨[.script callback.script], rfl, by simp [Frame.isIdle]⟩
    · exact ⟨[], rfl, by simp⟩

theorem Pays.change {staff : Staff} {event : Event} {next : Nat}
    (hs : run.stack = .change number event next :: below)
    (hstaff : run.world.staff? number = some staff)
    (h : Owes run.step.world number working below owed) :
    Pays number run (staff.notices number next event ++ owed) := by
  obtain ⟨sheet, hsheet, rfl⟩ := Option.map_eq_some_iff.mp hstaff
  have hlater : run.step.world.staff? number = some sheet.staff := by
    refine ((Run.keeps_step ?_).staff number).trans hstaff
    rw [Run.looks, hs]
  have hwaiting := sheet.staff.waiting_eq next
  rw [sheet.get?_staff] at hwaiting
  rw [Staff.notices, hwaiting]
  cases hget : sheet.listeners.get? next with
  | none =>
    have hstep := Run.step_of_cons hs
    simp only [Run.advance, Run.visitListener, hsheet, hget] at hstep
    have hfiles : run.files? = none := by simp [Run.files?, hs, hsheet, hget]
    rw [Pays, hstep, hfiles]
    rw [hstep] at h
    exact ⟨working, owed, h, rfl⟩
  | some listener =>
    obtain ⟨⟨frames, hframes, hidle⟩, hfiles⟩ := Run.step_listener hs hsheet hget
    refine ⟨working, sheet.staff.notices number (next + 1) event ++ owed, ?_, ?_⟩
    · rw [hframes]
      exact (Owes.change hlater h).append_idle hidle
    · rw [hfiles, Staff.notices, ← List.append_assoc, ← List.replicate_add]
      rfl

theorem Pays.done {stage message : Bytes} (hs : run.stack = .done number stage message :: below)
    (h : Owes run.step.world number working below owed) :
    Pays number run (.done number stage message :: owed) := by
  have hstack : run.step.stack = (run.world.file (.done number stage message)).2 ++ below := by
    rw [Run.step_of_cons hs]
    rfl
  refine ⟨working, owed, ?_, ?_⟩
  · rw [hstack]
    exact h.append_idle (run.world.isIdle_file _)
  · rw [Run.files?, hs]
    rfl

/-- A frame that has nothing to tell leaves others like it, or none. -/
theorem Run.step_idle {frame : Frame} (hs : run.stack = frame :: below)
    (hi : frame.isIdle = true) (hl : run.looks = true) :
    ∃ frames, run.step.stack = frames ++ below ∧ ∀ other ∈ frames, other.isIdle = true := by
  obtain ⟨change, hmove, -, hstack, -⟩ := step_move hs (throws?_of_looks hl)
  refine ⟨change.2, hstack, ?_⟩
  cases hmove with
  | drop => simp
  | @call call calls change hc =>
    rw [Run.looks, hs] at hl
    obtain ⟨reply, hreply⟩ := @World.call_of_looks run.world call hl
    obtain rfl := Except.ok.inj (hreply.symm.trans hc)
    simp [Frame.isIdle]
  | observe | observerFires => simp [Frame.isIdle]
  | monitor | listen | listenerFires | walk | walked | removal | count | done => cases hi

theorem Pays.idle {frame : Frame} (hs : run.stack = frame :: below) (hi : frame.isIdle = true)
    (hl : run.looks = true) (h : Owes run.step.world number working below owed) :
    Pays number run owed := by
  have hfiles : run.files? = none := by
    rw [Run.files?, hs]
    cases frame <;> simp [Frame.isIdle] at hi ⊢
  obtain ⟨frames, hframes, hidle⟩ := Run.step_idle hs hi hl
  refine ⟨working, owed, ?_, by simp [hfiles]⟩
  rw [hframes]
  exact h.append_idle hidle

theorem Pays.walk {staff : Staff} {forest : Forest} {walk : Walk} (fuel : Nat)
    (hs : run.stack = .walk number walk :: below) (hstaff : run.world.staff? number = some staff)
    (hforest : run.world.forest? number = some forest)
    (ht : (walk.run forest fuel).2.1.tasks = []) (h : Owes run.world number false below owed) :
    Pays number run ((topLevel (walk.run forest fuel).2.2).flatMap (staff.notices number 0) ++
      .done number (ascii "register") (walk.run forest fuel).2.1.className :: owed) := by
  obtain ⟨sheet, hsheet, rfl⟩ := Option.map_eq_some_iff.mp hforest
  have hfiles : run.files? = none := by rw [Run.files?, hs]
  have hbelow (forest : Forest) :
      Owes (run.world.setForest number forest) number false below owed :=
    h.keeps (.setForest number forest) (by simp)
  have hlater (forest : Forest) : (run.world.setForest number forest).staff? number = some staff :=
    ((World.Keeps.setForest number forest).staff number).trans hstaff
  by_cases htasks : walk.tasks = []
  · rw [Pays, Run.step_walked hs hsheet htasks, hfiles, Walk.run_of_done htasks]
    exact ⟨false, _, .done (.idle rfl (hbelow _)), rfl⟩
  · cases fuel with
    | zero => exact absurd ht htasks
    | succ fuel =>
      let changed := (Walk.step sheet.forest walk).1
      let next := (Walk.step sheet.forest walk).2.1
      have hnext : Owes (run.world.setForest number changed) number true
          (.walk number next :: below) _ :=
        .walk fuel (hlater _) (World.forest?_setForest hforest changed) ht (hbelow _)
      rw [Pays, Run.step_walk hs hsheet htasks, hfiles]
      refine ⟨true, _, hnext.tell (hlater _) _, ?_⟩
      rw [Walk.run]
      simp only [topLevel_append, List.flatMap_append, List.append_assoc]
      rfl

theorem Pays.removals {staff : Staff} {forest : Forest} {left : List Removal}
    (hs : run.stack = .removals number left :: below)
    (hstaff : run.world.staff? number = some staff)
    (hforest : run.world.forest? number = some forest)
    (h : Owes run.world number false below owed) :
    Pays number run
      ((topLevel (forest.removeEach left).2).flatMap (staff.notices number 0) ++ owed) := by
  obtain ⟨sheet, hsheet, rfl⟩ := Option.map_eq_some_iff.mp hforest
  have hfiles : run.files? = none := by rw [Run.files?, hs]
  cases left with
  | nil =>
    rw [Pays, Run.step_removed hs, hfiles]
    exact ⟨false, owed, h, rfl⟩
  | cons removal left =>
    cases removal with
    | all slot =>
      rw [Pays, Run.step_removals hs hsheet, hfiles, Forest.removeEach_all]
      exact ⟨true, _, .removals hstaff hforest h, rfl⟩
    | one slot =>
      let changed := (sheet.forest.release slot.container slot.key).1
      have hlater : (run.world.setForest number changed).staff? number = some staff :=
        ((World.Keeps.setForest number changed).staff number).trans hstaff
      have hbelow : Owes (run.world.setForest number changed) number false below owed :=
        h.keeps (.setForest number changed) (by simp)
      have hnext : Owes (run.world.setForest number changed) number true
          (.removals number left :: below) _ :=
        .removals hlater (World.forest?_setForest hforest changed) hbelow
      rw [Pays, Run.step_removal hs hsheet, hfiles]
      refine ⟨true, _, hnext.tell hlater _, ?_⟩
      rw [Forest.removeEach, Forest.remove_one]
      simp only [topLevel_append, List.flatMap_append, List.append_assoc]
      rfl

/-- **A step files the first of the notices that are owed, or none.** -/
theorem Owes.step (h : Owes run.world number working run.stack owed) (hl : run.looks = true) :
    Pays number run owed := by
  -- Only frames of the call itself change the sheet's containers.
  have hspared {working : Bool} {stack : List Frame} {owed : List Notice}
      (h : Owes run.world number working stack owed) (ht : run.touch number = .nothing) :
      Owes run.step.world number working stack owed :=
    h.keeps (Run.keeps_step hl) fun _ forest hf =>
      (Run.Shows.step_nothing ⟨hf, rfl⟩ ht).forest
  generalize hs : run.stack = stack at h
  cases h with
  | nil =>
    have hstep : run.step = run := by rw [Run.step, hs]
    refine ⟨false, [], ?_, by simp [Run.files?, hs]⟩
    rw [hstep, hs]
    exact .nil
  | @idle _ frame _ _ hi h =>
    have ht : frame.touch number = .nothing := by
      cases frame with
      | script calls =>
        cases calls with
        | nil => rfl
        | cons call calls =>
          rw [Run.looks, hs] at hl
          exact Call.touch_of_looks hl number
      | report | answer | answerCount => rfl
      | change | walk | removals | done => cases hi
    exact .idle hs hi hl (hspared h ((Run.touch_of_cons hs).trans ht))
  | change hstaff h => exact .change hs hstaff (hspared h (Run.touch_of_cons hs))
  | done h => exact .done hs (hspared h (Run.touch_of_cons hs))
  | walk fuel hstaff hforest ht h => exact .walk fuel hs hstaff hforest ht h
  | removals hstaff hforest h => exact .removals hs hstaff hforest h

end Steps

/-! ## How a call begins -/

/-- What a call's own report is about. -/
def Sheet.subject (sheet : Sheet) : Act → Bytes
  | .style (.register styles) | .style (.unregister styles) => styles.className
  | .clear => ascii "sheet " ++ sheet.id ++ ascii " emptied"

/-- A call that begins owes a notice for each of its changes, and one of its end. -/
theorem Owes.begin {world : World} {number : Nat} {sheet : Sheet}
    (hs : world.sheet? number = some sheet) (act : Act) :
    let first := (world.start (.ofAct number act)).step
    Owes first.world number true first.stack
      ((topLevel (act.outcome sheet.forest).2).flatMap (sheet.staff.notices number 0) ++
        [.done number act.name (sheet.subject act)]) := by
  have hforest := World.forest?_of_sheet? hs
  have hstaff := World.staff?_of_sheet? hs
  -- Below the call's own frame there is only the rest of the script.
  have hscript (world : World) : Owes world number false [.script []] [] := .idle rfl .nil
  intro first
  cases act with
  | style call =>
    cases call with
    | register styles =>
      have hstart : (world.start (.register number styles)).step = _ := Run.step_register rfl hs
      obtain ⟨hdone, hname⟩ := Walk.run_bound sheet.forest sheet.top styles
      have howes := Owes.walk (Walk.bound styles.compile) hstaff hforest hdone (hscript world)
      rw [hname] at howes
      rw [show first = _ from hstart]
      exact howes
    | unregister styles =>
      let found := sheet.forest.replay (some sheet.top) Selector.root .nothing styles.compile
      let cleared := sheet.forest.removeSelectors found.className found.styled
      have hstart : (world.start (.unregister number styles)).step = _ := Run.step_unregister rfl hs
      have hname : found.className = styles.className := by
        rw [Found.className, show found = _ from Forest.replay_top ..]
        rfl
      have hlater := ((World.Keeps.setForest number cleared).staff number).trans hstaff
      rw [show first = _ from hstart]
      have howes : Owes (world.setForest number cleared) number true
          (.removals number found.removals :: .done number (ascii "unregister") found.className ::
            .answer (.text found.className) :: [.script []]) _ :=
        .removals hlater (World.forest?_setForest hforest cleared) (.done (.idle rfl (hscript _)))
      refine (congrArg (Owes _ number true _) ?_).mp howes
      rw [hname]
      rfl
  | clear =>
    have hstart : (world.start (.clear number)).step = _ := Run.step_clear rfl hs
    rw [show first = _ from hstart]
    exact .removals hstaff hforest (.done (.idle rfl (hscript world)))

end SheetSession
end StyleRegistry
