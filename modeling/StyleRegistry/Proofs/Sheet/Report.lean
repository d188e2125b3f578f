import StyleRegistry.Proofs.Sheet.Looking

/-! # What emitters keep of a session

A session may attach a sheet to one emitter after another and to none, and let
listeners join and leave that only look. Each call comes to its end, and a call on
a sheet files its notices with the emitter that the sheet was attached to last: one
for each key of the top level that comes or goes, in the order in which they do,
and one for the call. No other call leaves anything with an emitter. At no time
does a sheet have two listeners of its own: an id that was given to somebody who
joined is never that of the sheet's own. -/
namespace StyleRegistry.SheetSession

open Bytes (ascii)
open Forest (topLevel)
open RuleSession (plainRed)

/-! ## Sessions -/

/-- What a call leaves and what it answers if those who are told only look. -/
def Leaves (world : World) (call : Call) (after : World) (reply : Reply) : Prop :=
  ∃ run notices, Observing (world.start call).step run notices ∧ run.stack = [] ∧
    after = run.world.settle ∧ reply = run.reply

/-- The calls of a session: on sheets that are there, with listeners and observers
that only look, and with ids of listeners that have joined. -/
def Admits (world : World) (history : List (Call × Reply)) : Call → Prop
  | .newSheet _ | .newEmitter => True
  | .observe _ callback => onlyLooks callback = true
  | .listen number callback =>
    onlyLooks callback = true ∧ ∃ sheet, world.sheet? number = some sheet
  | .register number _ | .unregister number _ | .clear number | .attach number _ =>
    ∃ sheet, world.sheet? number = some sheet
  | .unlisten number id => ∃ callback, (.listen number callback, .number id) ∈ history
  | call => call.looks = true

/-- Worlds in the course of a session, with the calls so far and their answers. -/
inductive Used : World → List (Call × Reply) → Prop
  | initial : Used .initial []
  | call {world after : World} {history : List (Call × Reply)} {reply : Reply} (call : Call) :
    Used world history → Admits world history call → Leaves world call after reply →
      Used after (history ++ [(call, reply)])

def Call.attaches (number : Nat) (call : Call) (current : Option Nat) : Option Nat :=
  match call with
  | .attach sheet emitter => if sheet = number then emitter else current
  | _ => current

theorem Call.emitter_staffed (number : Nat) (call : Call) (staff : Staff) :
    (call.staffed number staff).emitter = call.attaches number staff.emitter := by
  cases call with
  | listen sheet | unlisten sheet =>
    rw [Call.staffed]
    split <;> rfl
  | attach sheet emitter =>
    rw [Call.staffed, Call.attaches]
    split
    · cases emitter <;> rfl
    · rfl
  | _ => rfl

/-- The emitter that a sheet was attached to last. -/
def attachedIn (history : List (Call × Reply)) (number : Nat) : Option Nat :=
  history.foldl (fun current made => made.1.attaches number current) none

theorem attachedIn_concat (history : List (Call × Reply)) (call : Call) (reply : Reply)
    (number : Nat) :
    attachedIn (history ++ [(call, reply)]) number =
      call.attaches number (attachedIn history number) := List.foldl_concat ..

/-- A call that changes a sheet leaves listeners and emitters as they are. -/
theorem Call.keeps_ofAct (number : Nat) (act : Act) :
    (Call.ofAct number act).keeps = true ∧ (Call.ofAct number act).records = false := by
  cases act with
  | style call => cases call <;> exact ⟨rfl, rfl⟩
  | clear => exact ⟨rfl, rfl⟩

section Calls

variable {world after : World} {call : Call} {change : World × List Frame} {reply : Reply}
  {history : List (Call × Reply)} {number : Nat} {sheet : Sheet}

/-! ## One call of a session -/

namespace Admits

theorem ne_fail (h : Admits world history call) (message : Bytes) : call ≠ .fail message := by
  rintro rfl
  cases h

theorem exists_sheet {act : Act} (h : Admits world history (.ofAct number act)) :
    ∃ sheet, world.sheet? number = some sheet := by
  cases act with
  | style call => cases call <;> exact h
  | clear => exact h

theorem exists_change (h : Admits world history call) : ∃ change, world.call call = .ok change := by
  cases hc : world.call call with
  | ok change => exact ⟨change, rfl⟩
  | error message =>
    obtain ⟨text, rfl⟩ := World.call_eq_error hc
    exact absurd rfl (h.ne_fail text)

theorem enlistsLookers (h : Admits world history call) : call.enlistsLookers = true := by
  cases call with
  | listen => exact h.1
  | observe => exact h
  | _ => rfl

/-- All calls but those that change a sheet are over at once. -/
theorem exists_answer (h : Admits world history call)
    (hn : ∀ number act, call ≠ .ofAct number act) :
    ∃ changed reply, world.call call = .ok (changed, [.answer reply]) := by
  cases call with
  | register number styles => exact absurd rfl (hn number (.style (.register styles)))
  | unregister number styles => exact absurd rfl (hn number (.style (.unregister styles)))
  | clear number => exact absurd rfl (hn number .clear)
  | newSheet | newEmitter => exact ⟨_, _, rfl⟩
  | listen number | unlisten number | attach number =>
    simp only [World.call, World.onSheet]
    cases world.sheet? number with
    | none => exact ⟨_, _, rfl⟩
    | some sheet => exact ⟨_, _, rfl⟩
  | observe number =>
    simp only [World.call, World.onEmitter]
    cases world.emitter? number with
    | none => exact ⟨_, _, rfl⟩
    | some emitter => exact ⟨_, _, rfl⟩
  | render | url | join | reports | reportTexts =>
    obtain ⟨reply, hc⟩ := @World.call_of_looks world _ h
    exact ⟨world, reply, hc⟩
  | emit | setMinimum | clearReports | fail => cases h

end Admits

theorem World.start_step (hc : world.call call = .ok change) :
    (world.start call).step.world = change.1 ∧
      (world.start call).step.stack = change.2 ++ [.script []] := by
  have hstep : (world.start call).step = _ := Run.step_call rfl hc
  rw [hstep]
  exact ⟨rfl, rfl⟩

theorem World.watched_start (hw : world.Watched) (ha : Admits world history call)
    (hc : world.call call = .ok change) : (world.start call).step.Watched := by
  obtain ⟨hworld, hstack⟩ := World.start_step hc
  obtain ⟨hafter, hframes⟩ := hw.call ha.enlistsLookers hc
  refine ⟨hworld ▸ hafter, ?_⟩
  rw [hstack]
  exact List.forall_mem_append.mpr ⟨hframes, List.forall_mem_singleton.mpr rfl⟩

/-! ### What a call leaves in the containers -/

theorem Run.heads_begin (hs : world.sheet? number = some sheet) (hw : sheet.container.WellFormed)
    (act : Act) :
    (world.start (.ofAct number act)).step.Heads number (act.alone sheet.container) := by
  have hshows : (world.start (.ofAct number act)).Shows number sheet.forest [] :=
    ⟨World.forest?_of_sheet? hs, rfl⟩
  obtain ⟨forest, rest, hstep, hleads⟩ := hshows.begin_leadsTo hw rfl
  exact .underway hstep hleads

/-- A call that is not on the sheet does not touch it. -/
theorem Admits.touch (h : Admits world history call) (hn : ∀ act, call ≠ .ofAct number act) :
    call.touch number = .nothing := by
  have hnone (ht : call.touch number = .begin ∨ call.touch number = .breaks) : False := by
    rcases Call.eq_of_touch ht with ⟨styles, hc⟩ | ⟨styles, hc⟩ | hc | ⟨message, hc⟩
    · exact hn (.style (.register styles)) hc
    · exact hn (.style (.unregister styles)) hc
    · exact hn .clear hc
    · exact h.ne_fail message hc
  cases ht : call.touch number with
  | nothing => rfl
  | begin => exact (hnone (.inl ht)).elim
  | breaks => exact (hnone (.inr ht)).elim
  | goOn => exact absurd ht call.touch_ne_goOn.1
  | finish => exact absurd ht call.touch_ne_goOn.2

theorem Run.heads_other (h : Admits world history call) (hn : ∀ act, call ≠ .ofAct number act)
    (hs : world.sheet? number = some sheet) :
    (world.start call).step.Heads number sheet.container := by
  have hshows : (world.start call).Shows number sheet.forest [] :=
    ⟨World.forest?_of_sheet? hs, rfl⟩
  exact .arrived (hshows.step_nothing (h.touch hn)) rfl

theorem Run.heads_new (h : Admits world history call) (hn : ∀ act, call ≠ .ofAct number act)
    (hc : world.call call = .ok change) {instanceId : UInt32}
    (hs : change.1.sheet? number = some (.create instanceId)) :
    (world.start call).step.Heads number .empty := by
  obtain ⟨hworld, hstack⟩ := World.start_step hc
  have hshows : (world.start call).step.Shows number (.ofContainer .empty) [] := by
    constructor
    · rw [hworld, World.forest?_of_sheet? hs]
      rfl
    · rw [Run.rests, hstack, List.filterMap_append, (World.spares_call (h.touch hn) hc).rests]
      rfl
  exact .arrived hshows rfl

namespace Leaves

theorem keeps (h : Leaves world call after reply) (hc : world.call call = .ok change) :
    change.1.Keeps after := by
  obtain ⟨run, notices, hrun, -, rfl, -⟩ := h
  rw [← (World.start_step hc).1]
  exact hrun.keeps.trans ⟨fun number => World.staff?_settle number, fun _ => rfl⟩

theorem container (h : Leaves world call after reply) {target : Container}
    (hf : (world.start call).step.Heads number target) :
    ∃ left, after.sheet? number = some left ∧ left.container = target := by
  obtain ⟨run, notices, hrun, hdone, rfl, -⟩ := h
  obtain ⟨left, hleft, hroot⟩ := (hrun.heads hf).container hdone
  refine ⟨left.settle, ?_, hroot⟩
  rw [World.sheet?, World.settle, List.getElem?_map, show run.world.sheets[number]? = _ from hleft]
  rfl

/-- Emitters keep what the call owed when it began. -/
theorem recorded? (h : Leaves world call after reply) (hc : world.call call = .ok change)
    (ho : change.1.Open) {working : Bool} {total : List Notice}
    (hf : Owes change.1 number working (change.2 ++ [.script []]) total) (emitter : Nat) :
    after.recorded? emitter = (change.1.recorded? emitter).map
      (· ++ total.flatMap (change.1.sent emitter)) := by
  obtain ⟨run, notices, hrun, hdone, rfl, -⟩ := h
  obtain ⟨hworld, hstack⟩ := World.start_step hc
  rw [← hworld] at ho hf ⊢
  rw [← hstack] at hf
  rw [← hrun.notices_eq hdone hf]
  exact hrun.recorded? ho emitter

theorem watched (h : Leaves world call after reply) (hw : (world.start call).step.Watched) :
    after.Watched := by
  obtain ⟨run, notices, hrun, -, rfl, -⟩ := h
  exact (hrun.watched hw).world.settle

theorem seated (h : Leaves world call after reply) : after.Seated := by
  obtain ⟨run, notices, -, -, rfl, -⟩ := h
  exact run.world.seated_settle

theorem reply_eq {changed : World} {answer : Reply} (h : Leaves world call after reply)
    (hc : world.call call = .ok (changed, [.answer answer])) : reply = answer := by
  obtain ⟨run, notices, hrun, hdone, -, rfl⟩ := h
  exact hrun.reply_eq (World.start_step hc).2 hdone

end Leaves

/-! ## All that a session keeps -/

/-- What holds between the calls of a session. -/
structure Upheld (world : World) (history : List (Call × Reply)) : Prop where
  kept : world.Open
  seated : world.Seated
  watched : world.Watched
  steady : ∀ number sheet, world.sheet? number = some sheet → Act.Steady sheet.container
  orderly : ∀ number staff, world.staff? number = some staff → staff.Orderly
  attached : ∀ number, attachedIn history number = (world.staff? number).bind (·.emitter)
  joined : ∀ number callback id, (.listen number callback, .number id) ∈ history →
    ∃ staff, world.staff? number = some staff ∧ staff.Joined id

namespace Upheld

theorem initial : Upheld .initial [] where
  kept _ _ h := by cases h
  seated := World.seated_initial
  watched := World.watched_initial
  steady _ _ h := by cases h
  orderly _ _ h := by cases h
  attached _ := rfl
  joined _ _ _ h := absurd h List.not_mem_nil

/-- Nobody takes the sheet's own listener away but the sheet itself. -/
theorem ne_monitor (h : Upheld world history) {id : Nat}
    (ha : Admits world history (.unlisten number id)) {staff : Staff}
    (hs : world.staff? number = some staff) : staff.monitor ≠ some id := by
  obtain ⟨callback, hm⟩ := ha
  obtain ⟨found, hfound, hjoined⟩ := h.joined number callback id hm
  obtain rfl := Option.some.inj (hs.symm.trans hfound)
  exact hjoined.other

theorem orderly_call (h : Upheld world history) (ha : Admits world history call)
    (hc : world.call call = .ok change) {staff : Staff} (hs : change.1.staff? number = some staff) :
    staff.Orderly := by
  cases hbefore : world.staff? number with
  | some before =>
    obtain rfl := Option.some.inj (hs.symm.trans (World.staff?_call hc hbefore))
    refine (h.orderly number before hbefore).staffed fun id hid => ?_
    subst hid
    exact h.ne_monitor ha hbefore
  | none =>
    rcases World.staff?_call_of_none hc hbefore with hnone | ⟨instanceId, hnew⟩
    · rw [hnone] at hs
      cases hs
    · obtain rfl := Option.some.inj (hs.symm.trans hnew)
      exact Staff.orderly_create instanceId

theorem steady_call (h : Upheld world history) (ha : Admits world history call)
    (hc : world.call call = .ok change) (hl : Leaves world call after reply)
    (hs : after.sheet? number = some sheet) : Act.Steady sheet.container := by
  have hleft {target : Container} (hf : (world.start call).step.Heads number target)
      (ht : Act.Steady target) : Act.Steady sheet.container := by
    obtain ⟨left, hl, hroot⟩ := hl.container hf
    obtain rfl := Option.some.inj (hs.symm.trans hl)
    exact hroot ▸ ht
  cases hbefore : world.sheet? number with
  | some before =>
    have hsteady := h.steady number before hbefore
    by_cases hact : ∃ act, call = .ofAct number act
    · obtain ⟨act, rfl⟩ := hact
      exact hleft (Run.heads_begin hbefore hsteady.wellFormed act) (hsteady.alone act)
    · exact hleft (Run.heads_other ha (not_exists.mp hact) hbefore) hsteady
  | none =>
    have hn (act : Act) : call ≠ .ofAct number act := by
      rintro rfl
      obtain ⟨before, hb⟩ := ha.exists_sheet
      rw [hbefore] at hb
      cases hb
    rcases World.sheet?_call_of_none hc hbefore with hnone | ⟨instanceId, hnew⟩
    · have hstaff := (hl.keeps hc).staff number
      rw [World.staff?_of_sheet? hs, World.staff?, hnone] at hstaff
      cases hstaff
    · exact hleft (Run.heads_new ha hn hc hnew) (Act.steady_made [])

theorem attached_call (h : Upheld world history) (ha : Admits world history call)
    (hc : world.call call = .ok change) (number : Nat) :
    call.attaches number (attachedIn history number) =
      (change.1.staff? number).bind (·.emitter) := by
  rw [h.attached]
  cases hbefore : world.staff? number with
  | some before =>
    rw [World.staff?_call hc hbefore, Option.bind_some, Option.bind_some, call.emitter_staffed]
  | none =>
    -- Only a sheet that is there is attached.
    have hkeeps : call.attaches number none = none := by
      unfold Call.attaches
      split
      · split
        · rename_i heq
          obtain rfl := heq
          obtain ⟨sheet, hsheet⟩ := ha
          rw [World.staff?_of_sheet? hsheet] at hbefore
          cases hbefore
        · rfl
      · rfl
    rw [Option.bind_none, hkeeps]
    rcases World.staff?_call_of_none hc hbefore with hnone | ⟨instanceId, hnew⟩
    · rw [hnone]
      rfl
    · rw [hnew]
      rfl

theorem joined_call (h : Upheld world history) (ha : Admits world history call)
    (hc : world.call call = .ok change) (hl : Leaves world call after reply) {number id : Nat}
    {callback : Callback Call}
    (hm : (.listen number callback, .number id) ∈ history ++ [(call, reply)]) :
    ∃ staff, change.1.staff? number = some staff ∧ staff.Joined id := by
  rcases List.mem_append.mp hm with hm | hm
  · obtain ⟨staff, hs, hj⟩ := h.joined number callback id hm
    exact ⟨_, World.staff?_call hc hs, hj.staffed number call⟩
  · obtain ⟨rfl, rfl⟩ := Prod.mk.inj (List.mem_singleton.mp hm)
    obtain ⟨-, sheet, hsheet⟩ := ha
    have hstaff := World.staff?_of_sheet? hsheet
    have hanswer : world.call (.listen number callback) = .ok
        (world.updateSheet number
          ({ · with listeners := sheet.listeners.add (.scripted callback) }),
          [.answer (.number (sheet.listeners.issued + 1))]) := by
      rw [World.call, World.onSheet, hsheet]
      rfl
    have hid := hl.reply_eq hanswer
    injection hid with hid
    refine ⟨_, World.staff?_call hc hstaff, ?_⟩
    rw [hid, Call.staffed, if_pos rfl]
    exact .new (h.orderly number _ hstaff)

theorem next (h : Upheld world history) (ha : Admits world history call)
    (hl : Leaves world call after reply) : Upheld after (history ++ [(call, reply)]) := by
  obtain ⟨change, hc⟩ := ha.exists_change
  have hkeeps := hl.keeps hc
  refine ⟨?_, hl.seated, hl.watched (World.watched_start h.watched ha hc),
    fun number sheet hs => ?_, fun number staff hs => ?_, fun number => ?_,
    fun number callback id hm => ?_⟩
  · refine (h.kept.of_call hc ?_).keeps hkeeps
    rintro emitter severity rfl
    cases ha
  · exact h.steady_call ha hc hl hs
  · rw [hkeeps.staff] at hs
    exact h.orderly_call ha hc hs
  · rw [attachedIn_concat, hkeeps.staff]
    exact h.attached_call ha hc number
  · obtain ⟨staff, hs, hj⟩ := h.joined_call ha hc hl hm
    exact ⟨staff, (hkeeps.staff number).trans hs, hj⟩

end Upheld

theorem Used.upheld (h : Used world history) : Upheld world history := by
  induction h with
  | initial => exact .initial
  | call call _ ha hl ih => exact ih.next ha hl

/-! ## What is reported -/

/-- The reports of a call: one of each change, and one of the call itself. -/
def Sheet.reportsOf (sheet : Sheet) (act : Act) (changes : List Event) : List Diagnostic :=
  (changes.map fun event => sheet.report (ascii "cache") event.change.name event.key) ++
    [sheet.report (ascii "registry") act.name (sheet.subject act)]

/-- While a sheet is attached, its own listener hands on each change once. -/
theorem World.flatMap_sent (hs : world.staff? number = some sheet.staff)
    (ho : sheet.staff.Orderly) (act : Act) (changes : List Event) (emitter : Nat) :
    (changes.flatMap (sheet.staff.notices number 0) ++
        [Notice.done number act.name (sheet.subject act)]).flatMap (world.sent emitter) =
      if sheet.emitter = some emitter then sheet.reportsOf act changes else [] := by
  have hsent (notice : Notice) (hn : notice.sheet = number) : world.sent emitter notice =
      if sheet.emitter = some emitter then [sheet.staff.report notice] else [] := by
    rw [World.sent, hn, hs]
    rfl
  have hclosing := hsent (.done number act.name (sheet.subject act)) rfl
  have hchange (event : Event) := hsent (.change number event) rfl
  rw [List.flatMap_append, List.flatMap_singleton, hclosing, List.flatMap_assoc]
  split
  · rename_i he
    have hone : sheet.staff.waiting 0 = 1 := by
      rw [ho.waiting_zero, show sheet.staff.emitter = _ from he]
      rfl
    have hnotice (event : Event) :
        (sheet.staff.notices number 0 event).flatMap (world.sent emitter) =
          [sheet.report (ascii "cache") event.change.name event.key] := by
      rw [Staff.notices, hone, List.replicate_one, List.flatMap_singleton, hchange, if_pos he]
      rfl
    simp only [hnotice]
    rw [← List.map_eq_flatMap]
    rfl
  · rename_i he
    have hnotice (event : Event) :
        (sheet.staff.notices number 0 event).flatMap (world.sent emitter) = [] := by
      simp [Staff.notices, List.flatMap_replicate, hchange, he]
    simp [hnotice]

namespace Used

theorem length_monitors_during (h : Used world history) (ha : Admits world history call)
    {run : Run} {notices : List Notice} (hrun : Observing (world.start call).step run notices)
    (hs : run.world.sheet? number = some sheet) : sheet.staff.monitors.length ≤ 1 := by
  obtain ⟨change, hc⟩ := ha.exists_change
  have hstaff : change.1.staff? number = some sheet.staff := by
    rw [← (World.start_step hc).1, ← hrun.keeps.staff]
    exact World.staff?_of_sheet? hs
  exact (h.upheld.orderly_call ha hc hstaff).length_monitors

theorem recorded_act (h : Used world history) {act : Act}
    (ha : Admits world history (.ofAct number act)) (hs : world.sheet? number = some sheet)
    (hl : Leaves world (.ofAct number act) after reply) (emitter : Nat) :
    after.recorded? emitter = (world.recorded? emitter).map
      (· ++ if attachedIn history number = some emitter then
        sheet.reportsOf act (topLevel (act.outcome sheet.forest).2) else []) := by
  obtain ⟨change, hc⟩ := ha.exists_change
  obtain ⟨hworld, hstack⟩ := World.start_step hc
  have hstaff := World.staff?_of_sheet? hs
  obtain ⟨hk, hrecords⟩ := Call.keeps_ofAct number act
  have hkeeps := World.keeps_call hc hk
  have hattached : attachedIn history number = sheet.emitter := by
    rw [h.upheld.attached, hstaff]
    rfl
  have howes := Owes.begin hs act
  simp only [hworld, hstack] at howes
  rw [hl.recorded? hc (h.upheld.kept.keeps hkeeps) howes, hattached, hkeeps.sent,
    World.flatMap_sent hstaff (h.upheld.orderly number _ hstaff), World.recorded?_call hc hrecords]

theorem recorded_other (h : Used world history) (ha : Admits world history call)
    (hn : ∀ number act, call ≠ .ofAct number act) (hl : Leaves world call after reply)
    {emitter : Nat} {reports : List Diagnostic} (hr : world.recorded? emitter = some reports) :
    after.recorded? emitter = some reports := by
  obtain ⟨changed, answer, hc⟩ := ha.exists_answer hn
  have hopen : changed.Open := by
    refine h.upheld.kept.of_call hc ?_
    rintro emitter severity rfl
    cases ha
  -- Nothing but the answer is left to do.
  have howes : Owes changed 0 false ([.answer answer] ++ [.script []]) [] :=
    .idle rfl (.idle rfl .nil)
  have hchanged : changed.recorded? emitter = some reports := by
    by_cases hnew : call = .newEmitter
    · subst hnew
      obtain rfl := (Prod.mk.inj (Except.ok.inj hc)).1
      obtain ⟨e, he, rfl⟩ := Option.map_eq_some_iff.mp hr
      have hlt := (List.getElem?_eq_some_iff.mp he).1
      exact congrArg (Option.map (·.events)) ((List.getElem?_append_left hlt).trans he)
    · rw [← hr]
      refine World.recorded?_call hc ?_
      cases call with
      | newEmitter => exact absurd rfl hnew
      | emit | clearReports => cases ha
      | _ => rfl
  rw [hl.recorded? hc hopen howes, hchanged]
  simp

/-! ### The end of a call -/

/-- Whoever looks at what, the run goes on from there to its end. -/
theorem ends (h : Used world history) (ha : Admits world history call) {run : Run}
    {notices : List Notice} (hrun : Observing (world.start call).step run notices) :
    ∃ more, Observing (world.start call).step (run.steps run.bound) (notices ++ more) ∧
      (run.steps run.bound).stack = [] := by
  obtain ⟨change, hc⟩ := ha.exists_change
  exact hrun.ends (World.watched_start h.upheld.watched ha hc) (h.upheld.seated.start call).step

/-- The call returns, and nobody does more than look before it does. -/
theorem returns (h : Used world history) (ha : Admits world history call) :
    ∃ reply, (world.run call).2.result = .ok reply ∧
      Leaves world call (world.run call).1 reply := by
  obtain ⟨change, hc⟩ := ha.exists_change
  have hseated := h.upheld.seated.start call
  obtain ⟨fuel, hfuel⟩ : ∃ fuel, (world.start call).bound = fuel + 1 := ⟨_, rfl⟩
  have hlast : (world.start call).steps (world.start call).bound =
      (world.start call).step.steps fuel := by
    rw [hfuel]
    exact Run.steps_of_not_done rfl fuel
  have hdone : ((world.start call).step.steps fuel).isDone = true := by
    rw [← hlast]
    exact hseated.ends (Nat.le_refl _)
  obtain ⟨notices, hrun⟩ :=
    Observing.start.steps (World.watched_start h.upheld.watched ha hc) fuel
  have hfailure : ((world.start call).step.steps fuel).failure = none := by
    rw [hrun.failure_eq, Run.step_call rfl hc]
    rfl
  refine ⟨((world.start call).step.steps fuel).reply, ?_, _, _, hrun, List.isEmpty_iff.mp hdone,
    ?_, rfl⟩
  · simp only [World.run, hlast, hfailure]
  · simp only [World.run, hlast]

/-- **Each change of the top level is reported once, to whom the sheet is attached.**
In a session of calls on sheets, with listeners and observers that only look and
emitters that keep everything, every call comes to its end and returns an answer, at
whatever others look while it is under way. A sheet never has more than one listener
of its own, not even during a call. A call that registers or undoes a tree or clears
a sheet changes its top level one key at a time and touches no key twice. It leaves
with the emitter that the sheet was attached to last one report for each of these
changes, in their order, and then one of its own, and nothing with any other
emitter; if the sheet is attached to none, with nobody. Nor does any other call
leave a report. -/
theorem reported (h : Used world history) (ha : Admits world history call) :
    (∀ number sheet, world.sheet? number = some sheet → sheet.staff.monitors.length ≤ 1) ∧
    (∀ run notices, Observing (world.start call).step run notices →
      (∀ number sheet, run.world.sheet? number = some sheet →
        sheet.staff.monitors.length ≤ 1) ∧
      ∃ more, Observing (world.start call).step (run.steps run.bound) (notices ++ more) ∧
        (run.steps run.bound).stack = []) ∧
    (∃ reply, (world.run call).2.result = .ok reply ∧
      Leaves world call (world.run call).1 reply) ∧
    ∀ after reply, Leaves world call after reply →
      (∀ number act sheet, call = .ofAct number act → world.sheet? number = some sheet →
        let changes := topLevel (act.outcome sheet.forest).2
        (∃ left, after.sheet? number = some left ∧
          Turnover sheet.container.keys changes left.container.keys ∧
          (∀ event ∈ changes, event.change = act.change) ∧
          (changes.map (·.key)).Nodup ∧
          ∀ key, key ∈ changes.map (·.key) ↔
            (key ∉ sheet.container.keys ∧ key ∈ left.container.keys) ∨
              (key ∈ sheet.container.keys ∧ key ∉ left.container.keys)) ∧
        ∀ emitter reports, world.recorded? emitter = some reports →
          after.recorded? emitter = some (reports ++
            if attachedIn history number = some emitter then sheet.reportsOf act changes
            else [])) ∧
      ((∀ number act, call ≠ .ofAct number act) → ∀ emitter reports,
        world.recorded? emitter = some reports → after.recorded? emitter = some reports) := by
  refine ⟨fun number sheet hs => ?_, fun run notices hrun => ⟨?_, h.ends ha hrun⟩,
    h.returns ha, fun after reply hl => ⟨?_, fun hn emitter reports hr => ?_⟩⟩
  · exact (h.upheld.orderly number _ (World.staff?_of_sheet? hs)).length_monitors
  · exact fun number sheet hs => h.length_monitors_during ha hrun hs
  · rintro number act sheet rfl hs changes
    have hw := (h.upheld.steady number sheet hs).wellFormed
    obtain ⟨left, hleft, hroot⟩ := hl.container (Run.heads_begin hs hw act)
    have hturnover : Turnover sheet.container.keys changes left.container.keys := by
      rw [hroot, Sheet.container, ← Act.root_outcome hw act]
      exact Act.turnover_outcome sheet.forest act
    have hchange : ∀ event ∈ changes, event.change = act.change := fun event he =>
      Act.change_outcome sheet.forest act event (List.mem_of_mem_filter he)
    obtain ⟨hnodup, hexact⟩ := hturnover.exact hw.tidy.sound.nodup hchange
    refine ⟨⟨left, hleft, hturnover, hchange, hnodup, hexact⟩, fun emitter reports hr => ?_⟩
    rw [h.recorded_act ha hs hl, hr]
    rfl
  · exact h.recorded_other ha hn hl hr

end Used
end Calls

/-! ## A sheet that changes its emitter -/

/-- A session after one more call. -/
def proceed (state : World × List (Call × Reply)) (call : Call) : World × List (Call × Reply) :=
  let (after, ended) := state.1.run call
  match ended.result with
  | .ok reply => (after, state.2 ++ [(call, reply)])
  | .error _ => state

theorem Used.proceed {state : World × List (Call × Reply)} (h : Used state.1 state.2)
    (call : Call) (ha : Admits state.1 state.2 call) :
    Used (proceed state call).1 (proceed state call).2 := by
  obtain ⟨reply, hreply, hl⟩ := h.returns ha
  rw [SheetSession.proceed]
  simp only [hreply]
  exact h.call call ha hl

theorem mem_proceed_of_mem {state : World × List (Call × Reply)} {made : Call × Reply}
    (h : made ∈ state.2) (call : Call) : made ∈ (proceed state call).2 := by
  simp only [proceed]
  split
  · exact List.mem_append_left _ h
  · exact h

def Reply.number? : Reply → Option Nat
  | .number n => some n
  | _ => none

theorem Reply.eq_number {reply : Reply} {n : Nat} (h : reply.number? = some n) :
    reply = .number n := by
  cases reply with
  | number m => exact congrArg Reply.number (Option.some.inj h)
  | _ => cases h

/-- The answer of a call that answers with a number. -/
theorem mem_proceed {state : World × List (Call × Reply)} {call : Call} {n : Nat}
    (h : (state.1.run call).2.result.map Reply.number? = .ok (some n)) :
    (call, .number n) ∈ (proceed state call).2 := by
  cases hr : (state.1.run call).2.result with
  | error message =>
    rw [hr] at h
    cases h
  | ok reply =>
    rw [hr] at h
    obtain rfl := Reply.eq_number (Except.ok.inj h)
    simp [proceed, hr]

/-- A listener that has the sheet printed when it is told of a change. -/
def viewer : Callback Call := ⟨ascii "view", none, 1, [.render 0]⟩

/-- An observer that reads the reports when it is told of another. -/
def reader : Callback Call := ⟨ascii "read", none, 1, [.reports 1 .all]⟩

/-- A sheet that is attached, and has a listener that joined after that. -/
def attended : World × List (Call × Reply) :=
  [.newSheet none, .newEmitter, .newEmitter, .observe 1 reader, .attach 0 (some 0),
    .listen 0 viewer].foldl proceed (.initial, [])

/-- A tree is registered, the sheet is attached to another emitter, and the
listener leaves. Then the tree is undone and registered again. -/
def switched : World × List (Call × Reply) :=
  [.register 0 plainRed, .attach 0 (some 1), .unlisten 0 2, .unregister 0 plainRed,
    .register 0 plainRed].foldl proceed attended

/-- The sheet is cleared and attached to none. -/
def detached : World × List (Call × Reply) :=
  [.clear 0, .attach 0 none].foldl proceed switched

theorem used_attended : Used attended.1 attended.2 ∧
    (.listen 0 viewer, .number 2) ∈ attended.2 := by
  have made := @Used.proceed (.initial, []) .initial (.newSheet none) trivial
  have first := made.proceed .newEmitter trivial
  have second := first.proceed .newEmitter trivial
  have watched := second.proceed (.observe 1 reader) rfl
  have attached := watched.proceed (.attach 0 (some 0))
    (Option.isSome_iff_exists.mp (by decide +kernel))
  have joined := attached.proceed (.listen 0 viewer)
    ⟨rfl, Option.isSome_iff_exists.mp (by decide +kernel)⟩
  refine ⟨joined, ?_⟩
  simp only [attended, List.foldl_cons, List.foldl_nil]
  exact mem_proceed (by decide +kernel)

theorem used_switched : Used switched.1 switched.2 := by
  obtain ⟨attended, hid⟩ := used_attended
  have registered := attended.proceed (.register 0 plainRed)
    (Option.isSome_iff_exists.mp (by decide +kernel))
  have moved := registered.proceed (.attach 0 (some 1))
    (Option.isSome_iff_exists.mp (by decide +kernel))
  have left := moved.proceed (.unlisten 0 2)
    ⟨viewer, mem_proceed_of_mem (mem_proceed_of_mem hid _) _⟩
  have undone := left.proceed (.unregister 0 plainRed)
    (Option.isSome_iff_exists.mp (by decide +kernel))
  exact undone.proceed (.register 0 plainRed) (Option.isSome_iff_exists.mp (by decide +kernel))

theorem used_detached : Used detached.1 detached.2 := by
  have cleared := used_switched.proceed (.clear 0)
    (Option.isSome_iff_exists.mp (by decide +kernel))
  exact cleared.proceed (.attach 0 none) (Option.isSome_iff_exists.mp (by decide +kernel))

/-- What is cleared is reported to the second emitter alone, and what is registered
after that to nobody. -/
theorem reported_of_switched :
    let added := ⟨.info, ascii "cache", ascii "add", ascii "nhit8s2", 1⟩
    let registered := ⟨.info, ascii "registry", ascii "register", ascii "1rscope", 1⟩
    let removed := ⟨.info, ascii "cache", ascii "remove", ascii "nhit8s2", 1⟩
    let undone := ⟨.info, ascii "registry", ascii "unregister", ascii "1rscope", 1⟩
    let emptied := ⟨.info, ascii "registry", ascii "clear", ascii "sheet 1 emptied", 1⟩
    (∃ reply, (switched.1.run (.clear 0)).2.result = .ok reply ∧
      let after := (switched.1.run (.clear 0)).1
      Leaves switched.1 (.clear 0) after reply ∧
        after.recorded? 0 = some [added, registered] ∧
        after.recorded? 1 = some [removed, undone, added, registered, removed, emptied]) ∧
    ∃ reply, (detached.1.run (.register 0 plainRed)).2.result = .ok reply ∧
      let after := (detached.1.run (.register 0 plainRed)).1
      Leaves detached.1 (.register 0 plainRed) after reply ∧
        after.recorded? 0 = some [added, registered] ∧
        after.recorded? 1 = some [removed, undone, added, registered, removed, emptied] := by
  intro added registered removed undone emptied
  constructor
  · have hcleared : (switched.1.sheet? 0).map (fun sheet =>
        sheet.reportsOf .clear (topLevel (Act.clear.outcome sheet.forest).2)) =
          some [removed, emptied] := by decide +kernel
    obtain ⟨sheet, hs, hreports⟩ := Option.map_eq_some_iff.mp hcleared
    have hbefore : switched.1.recorded? 0 = some [added, registered] ∧
        switched.1.recorded? 1 = some [removed, undone, added, registered] := by decide +kernel
    have hattached : attachedIn switched.2 0 = some 1 := by decide +kernel
    have hadmits : Admits switched.1 switched.2 (.ofAct 0 .clear) := ⟨sheet, hs⟩
    obtain ⟨-, -, ⟨reply, hreply, hl⟩, hleft⟩ := used_switched.reported hadmits
    obtain ⟨-, hall⟩ := (hleft _ reply hl).1 0 .clear sheet rfl hs
    refine ⟨reply, hreply, hl, ?_, ?_⟩
    · refine (hall 0 _ hbefore.1).trans ?_
      rw [hattached, if_neg (by simp), List.append_nil]
    · refine (hall 1 _ hbefore.2).trans ?_
      rw [hattached, if_pos rfl, hreports]
      rfl
  · obtain ⟨sheet, hs⟩ : ∃ sheet, detached.1.sheet? 0 = some sheet :=
      Option.isSome_iff_exists.mp (by decide +kernel)
    have hbefore : detached.1.recorded? 0 = some [added, registered] ∧
        detached.1.recorded? 1 = some [removed, undone, added, registered, removed, emptied] := by
      decide +kernel
    have hattached : attachedIn detached.2 0 = none := by decide +kernel
    have hadmits : Admits detached.1 detached.2 (.register 0 plainRed) := ⟨sheet, hs⟩
    obtain ⟨-, -, ⟨reply, hreply, hl⟩, hleft⟩ := used_detached.reported hadmits
    obtain ⟨-, hall⟩ := (hleft _ reply hl).1 0 (.style (.register plainRed)) sheet rfl hs
    refine ⟨reply, hreply, hl, ?_, ?_⟩
    · refine (hall 0 _ hbefore.1).trans ?_
      rw [hattached, if_neg (by simp), List.append_nil]
    · refine (hall 1 _ hbefore.2).trans ?_
      rw [hattached, if_neg (by simp), List.append_nil]

end StyleRegistry.SheetSession
