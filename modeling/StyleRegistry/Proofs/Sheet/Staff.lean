import StyleRegistry.Proofs.Sheet.Notice
import StyleRegistry.Proofs.Subscribers

/-! # A sheet's own listener

A sheet that sends its diagnostics to an emitter has one listener of its own,
which stands among the others and takes its id from the same counter. Attaching
takes the old one off before it adds a new one, and no id is used twice, so
whoever gives back an id of a listener that joined never takes the sheet's own.
Runs leave all this as it is: only calls change who listens, and a firing that
is used up does not. -/
namespace StyleRegistry.SheetSession

open Bytes (ascii)

def Listener.isMonitor : Listener → Bool
  | .monitor => true
  | .scripted _ => false

/-- What a sheet has beside its containers: who listens, which of them is the
sheet's own, and for which emitter. -/
structure Staff where
  instanceId : UInt32
  emitter : Option Nat
  monitor : Option Nat
  listeners : Subscribers Bool

def Sheet.staff (sheet : Sheet) : Staff :=
  ⟨sheet.instanceId, sheet.emitter, sheet.monitor, sheet.listeners.map Listener.isMonitor⟩

/-! ## Order among listeners -/

/-- The ids of the listeners that are marked as the sheet's own. -/
def marked (listeners : Subscribers Bool) : List Nat :=
  (listeners.present.filter (·.2)).map (·.1)

theorem marked_add (listeners : Subscribers Bool) (own : Bool) :
    marked (listeners.add own) =
      marked listeners ++ if own then [listeners.issued + 1] else [] := by
  cases own <;> simp [marked, Subscribers.add]

theorem marked_remove {listeners : Subscribers Bool} (h : listeners.Sound) (id : Nat) :
    marked (listeners.remove id) = (marked listeners).filter (· != id) := by
  rw [marked, h.present_remove, List.filter_comm, marked, List.filter_map]
  rfl

namespace Staff

/-- The ids of the sheet's own listeners. -/
def monitors (staff : Staff) : List Nat := marked staff.listeners

/-- How many of the sheet's own listeners are told from this turn on. -/
def waiting (staff : Staff) (next : Nat) : Nat := (staff.listeners.present.drop next).countP (·.2)

structure Orderly (staff : Staff) : Prop where
  sound : staff.listeners.Sound
  own : staff.monitors = staff.monitor.toList
  attached : staff.monitor.isSome = staff.emitter.isSome

def join (staff : Staff) : Staff := { staff with listeners := staff.listeners.add false }

def leave (staff : Staff) (id : Nat) : Staff :=
  { staff with listeners := staff.listeners.remove id }

/-- Without a listener of its own. -/
def dismiss (staff : Staff) : Staff :=
  { staff with
    emitter := none
    monitor := none
    listeners := staff.monitor.elim staff.listeners staff.listeners.remove }

def engage (staff : Staff) (emitter : Nat) : Staff :=
  { staff with
    emitter := some emitter
    monitor := some (staff.listeners.issued + 1)
    listeners := staff.listeners.add true }

/-- What becomes of the sheet's own listener when it is attached anew. -/
def reattach (staff : Staff) (emitter : Option Nat) : Staff :=
  emitter.elim staff.dismiss staff.dismiss.engage

theorem issued_dismiss (staff : Staff) :
    staff.dismiss.listeners.issued = staff.listeners.issued := by
  unfold dismiss
  cases staff.monitor <;> rfl

namespace Orderly

variable {staff : Staff}

theorem length_monitors (h : staff.Orderly) : staff.monitors.length ≤ 1 := by
  rw [h.own]
  cases staff.monitor <;> simp

/-- While it is attached, the sheet is told of a change once. -/
theorem waiting_zero (h : staff.Orderly) :
    staff.waiting 0 = if staff.emitter.isSome then 1 else 0 := by
  have hlength := congrArg List.length h.own
  rw [monitors, marked, List.length_map] at hlength
  rw [waiting, List.drop_zero, List.countP_eq_length_filter, hlength, ← h.attached]
  cases staff.monitor <;> rfl

theorem join (h : staff.Orderly) : staff.join.Orderly := by
  refine ⟨h.sound.add false, ?_, h.attached⟩
  refine (marked_add staff.listeners false).trans ?_
  rw [if_neg Bool.false_ne_true, List.append_nil]
  exact h.own

theorem leave (h : staff.Orderly) {id : Nat} (hid : staff.monitor ≠ some id) :
    (staff.leave id).Orderly := by
  refine ⟨h.sound.remove id, ?_, h.attached⟩
  refine (marked_remove h.sound id).trans ?_
  refine (List.filter_eq_self.mpr fun other ho => ?_).trans h.own
  have hother : other ∈ staff.monitor.toList := h.own ▸ ho
  rw [Option.mem_toList] at hother
  rw [bne_iff_ne]
  rintro rfl
  exact hid hother

theorem dismiss (h : staff.Orderly) : staff.dismiss.Orderly := by
  have hown := h.own
  unfold Staff.dismiss
  cases hm : staff.monitor with
  | none =>
    rw [hm] at hown
    exact ⟨h.sound, hown, rfl⟩
  | some id =>
    rw [hm] at hown
    refine ⟨h.sound.remove id, ?_, rfl⟩
    refine (marked_remove h.sound id).trans ?_
    rw [show marked staff.listeners = [id] from hown]
    simp

theorem engage (h : staff.Orderly) (hm : staff.monitor = none) (emitter : Nat) :
    (staff.engage emitter).Orderly := by
  refine ⟨h.sound.add true, ?_, rfl⟩
  refine (marked_add staff.listeners true).trans ?_
  have hown : marked staff.listeners = [] := by rw [show marked _ = _ from h.own, hm]; rfl
  rw [hown]
  rfl

theorem reattach (h : staff.Orderly) (emitter : Option Nat) : (staff.reattach emitter).Orderly := by
  cases emitter with
  | none => exact h.dismiss
  | some number => exact h.dismiss.engage rfl number

theorem monitor_le (h : staff.Orderly) {id : Nat} (hid : staff.monitor = some id) :
    id ≤ staff.listeners.issued := by
  have hown : id ∈ staff.monitors := by
    rw [h.own, hid]
    exact List.mem_singleton_self id
  obtain ⟨subscriber, hmem, rfl⟩ := List.mem_map.mp hown
  exact h.sound.issued _ (List.mem_map.mpr ⟨subscriber, List.mem_of_mem_filter hmem, rfl⟩)

end Orderly

/-- The id was given to a listener that is not the sheet's own, whoever is still there. -/
structure Joined (staff : Staff) (id : Nat) : Prop where
  issued : id ≤ staff.listeners.issued
  other : staff.monitor ≠ some id

namespace Joined

variable {staff : Staff} {id : Nat}

theorem new (h : staff.Orderly) : staff.join.Joined (staff.listeners.issued + 1) :=
  ⟨Nat.le_refl _, fun hm => Nat.not_succ_le_self _ (h.monitor_le hm)⟩

theorem join (h : staff.Joined id) : staff.join.Joined id :=
  ⟨Nat.le_succ_of_le h.issued, h.other⟩

/-- The sheet's next own listener gets an id of its own. -/
theorem reattach (h : staff.Joined id) (emitter : Option Nat) :
    (staff.reattach emitter).Joined id := by
  have hissued := staff.issued_dismiss ▸ h.issued
  cases emitter with
  | none => exact ⟨hissued, fun hm => by cases hm⟩
  | some number =>
    refine ⟨Nat.le_succ_of_le hissued, fun hm => ?_⟩
    have heq : staff.dismiss.listeners.issued + 1 = id := Option.some.inj hm
    omega

end Joined
end Staff

theorem Sheet.staff_attach (sheet : Sheet) (emitter : Option Nat) :
    (sheet.attach emitter).staff = sheet.staff.reattach emitter := by
  obtain ⟨instanceId, forest, listeners, old, monitor⟩ := sheet
  have hissued (subscribers : Subscribers Listener) :
    (subscribers.map Listener.isMonitor).issued = subscribers.issued := rfl
  cases emitter <;> cases monitor <;>
    simp [Sheet.attach, Sheet.staff, Staff.reattach, Staff.dismiss, Staff.engage,
      Subscribers.map_add, Subscribers.map_remove, Listener.isMonitor, hissued]

theorem Staff.orderly_create (instanceId : UInt32) : (Sheet.create instanceId).staff.Orderly :=
  ⟨Subscribers.sound_empty, rfl, rfl⟩

/-! ## Worlds whose sheets keep their listeners -/

def Staff.report (staff : Staff) (notice : Notice) : Diagnostic :=
  ⟨.info, notice.module, notice.stage, notice.message, staff.instanceId.toUInt64⟩

namespace World

def staff? (world : World) (number : Nat) : Option Staff := (world.sheet? number).map Sheet.staff

theorem staff?_of_sheet? {world : World} {number : Nat} {sheet : Sheet}
    (h : world.sheet? number = some sheet) : world.staff? number = some sheet.staff := by
  rw [staff?, h, Option.map_some]

def minimum? (world : World) (emitter : Nat) : Option Severity :=
  (world.emitter? emitter).map (·.minimum)

/-- Nobody joins or leaves, and the emitters keep what they ask for. -/
structure Keeps (before after : World) : Prop where
  staff : ∀ number, after.staff? number = before.staff? number
  minimum : ∀ emitter, after.minimum? emitter = before.minimum? emitter

variable {world between after : World}

theorem staff?_updateSheet {sheet : Nat} {s : Sheet} (hs : world.sheet? sheet = some s)
    (change : Sheet → Sheet) (number : Nat) :
    (world.updateSheet sheet change).staff? number =
      if sheet = number then some (change s).staff else world.staff? number := by
  split
  · rename_i h
    obtain rfl := h
    exact staff?_of_sheet? (sheet?_updateSheet hs change)
  · rename_i h
    rw [staff?, sheet?_updateSheet_of_ne h, staff?]

namespace Keeps

theorem refl (world : World) : world.Keeps world := ⟨fun _ => rfl, fun _ => rfl⟩

theorem trans (h : world.Keeps between) (hn : between.Keeps after) : world.Keeps after :=
  ⟨fun number => (hn.staff number).trans (h.staff number),
    fun emitter => (hn.minimum emitter).trans (h.minimum emitter)⟩

theorem updateSheet {number : Nat} {change : Sheet → Sheet}
    (h : ∀ sheet, world.sheet? number = some sheet → (change sheet).staff = sheet.staff) :
    world.Keeps (world.updateSheet number change) := by
  refine ⟨fun other => ?_, fun _ => rfl⟩
  cases hs : world.sheet? number with
  | none =>
    unfold sheet? at hs
    rw [staff?, sheet?, World.updateSheet, List.modify_eq_self (List.getElem?_eq_none_iff.mp hs)]
    rfl
  | some sheet =>
    rw [staff?_updateSheet hs, h sheet hs]
    split
    · rename_i ho
      rw [← ho, staff?_of_sheet? hs]
    · rfl

theorem setForest (number : Nat) (forest : Forest) : world.Keeps (world.setForest number forest) :=
  updateSheet fun _ _ => rfl

theorem updateEmitter {number : Nat}
    {change : Emitter (Callback Call) → Emitter (Callback Call)}
    (h : ∀ e, (change e).minimum = e.minimum) :
    world.Keeps (world.updateEmitter number change) := by
  exact ⟨fun _ => rfl, map_emitter?_updateEmitter h world number⟩

theorem emit (emitter : Nat) (report : Diagnostic) : world.Keeps (world.emit emitter report).1 := by
  unfold World.emit
  split
  · exact updateEmitter fun _ => rfl
  · exact refl world

theorem emitFrom (number : Nat) (module stage message : Bytes) :
    world.Keeps (world.emitFrom number module stage message).1 := by
  unfold World.emitFrom
  split
  · exact refl world
  · split
    · exact refl world
    · exact emit ..

end Keeps

theorem staff?_settle (number : Nat) : world.settle.staff? number = world.staff? number := by
  simp only [staff?, sheet?, settle, List.getElem?_map, Option.map_map]
  rfl

end World

/-! ## Runs that only look -/

/-- The calls that change nothing. -/
def Call.looks : Call → Bool
  | .render _ | .url _ _ | .join _ _ | .reports _ _ | .reportTexts _ => true
  | _ => false

/-- The next step makes no other call. -/
def Run.looks (run : Run) : Bool :=
  match run.stack with
  | .script (call :: _) :: _ => call.looks
  | _ => true

theorem Call.touch_of_looks {call : Call} (h : call.looks = true) (number : Nat) :
    call.touch number = .nothing := by
  cases call with
  | render | url | join | reports | reportTexts => rfl
  | _ => cases h

theorem Call.records_of_looks {call : Call} (h : call.looks = true) : call.records = false := by
  cases call with
  | render | url | join | reports | reportTexts => rfl
  | _ => cases h

theorem World.call_of_looks {world : World} {call : Call} (h : call.looks = true) :
    ∃ reply, world.call call = .ok (world, [.answer reply]) := by
  cases call with
  | render number | url number | join number =>
    simp only [World.call, World.onSheet]
    cases world.sheet? number with
    | none => exact ⟨_, rfl⟩
    | some sheet => exact ⟨_, rfl⟩
  | reports number | reportTexts number =>
    simp only [World.call, World.onEmitter]
    cases world.emitter? number with
    | none => exact ⟨_, rfl⟩
    | some emitter => exact ⟨_, rfl⟩
  | _ => cases h

theorem Run.throws?_of_looks {run : Run} (h : run.looks = true) : run.throws? = none := by
  cases hthrows : run.throws? with
  | none => rfl
  | some message =>
    obtain ⟨calls, below, hs⟩ := throws?_eq_some hthrows
    rw [looks, hs] at h
    cases h

theorem Run.keeps_step {run : Run} (h : run.looks = true) : run.world.Keeps run.step.world := by
  cases hs : run.stack with
  | nil =>
    rw [step, hs]
    exact .refl run.world
  | cons frame below =>
    obtain ⟨change, hmove, hworld, -⟩ := step_move hs (throws?_of_looks h)
    rw [hworld]
    cases hmove with
    | drop | listen | observe | count => exact .refl run.world
    | call hc =>
      rw [looks, hs] at h
      obtain ⟨reply, hreply⟩ := @World.call_of_looks run.world _ h
      obtain rfl := Except.ok.inj (hreply.symm.trans hc)
      exact .refl run.world
    | monitor | done => exact .emitFrom ..
    | @listenerFires _ _ _ sheet callback hsheet hget =>
      refine .updateSheet fun s hs => ?_
      obtain rfl := Option.some.inj (hsheet.symm.trans hs)
      -- A firing that is used up leaves the listener what it was.
      have hspent : Listener.isMonitor (.scripted callback.spend) =
        Listener.isMonitor (.scripted callback) := rfl
      simp only [Sheet.staff, Subscribers.map_set Listener.isMonitor hget hspent]
    | observerFires =>
      refine .updateEmitter ?_
      exact fun _ => rfl
    | walk | walked | removal => exact .setForest ..

/-! ## What a notice leaves with the emitters -/

namespace World

variable {world : World}

/-- Every emitter keeps whatever it is sent. -/
def Open (world : World) : Prop :=
  ∀ emitter minimum, world.minimum? emitter = some minimum → minimum = .info

theorem Open.keeps {after : World} (h : world.Open) (hk : world.Keeps after) : after.Open :=
  fun emitter minimum hm => h emitter minimum ((hk.minimum emitter).symm.trans hm)

theorem recorded?_record (number emitter : Nat) (report : Diagnostic) :
    (world.updateEmitter number (·.record report)).recorded? emitter =
      (world.recorded? emitter).map (· ++ if number = emitter then [report] else []) := by
  rw [recorded?, emitter?_updateEmitter, recorded?]
  split
  · rw [Option.map_map, Option.map_map]
    rfl
  · simp [Function.comp_def]

theorem recorded?_emit (h : world.Open) {report : Diagnostic} (number emitter : Nat) :
    (world.emit number report).1.recorded? emitter =
      (world.recorded? emitter).map (· ++ if number = emitter then [report] else []) := by
  unfold emit
  split
  · exact recorded?_record ..
  · rename_i hrefused
    -- Only an emitter that does not exist keeps nothing.
    have hnone : world.emitter? number = none := by
      cases he : world.emitter? number with
      | none => rfl
      | some e =>
        have hinfo : e.minimum = .info := h number e.minimum (by rw [minimum?, he]; rfl)
        simp [he, Emitter.accepts, hinfo, Severity.rank] at hrefused
    by_cases hn : number = emitter
    · obtain rfl := hn
      rw [recorded?, hnone]
      rfl
    · simp [hn]

/-- What an emitter gets of a notice: a report, if the sheet is attached to it. -/
def sent (world : World) (emitter : Nat) (notice : Notice) : List Diagnostic :=
  match world.staff? notice.sheet with
  | some staff => if staff.emitter = some emitter then [staff.report notice] else []
  | none => []

theorem Keeps.sent {after : World} (h : world.Keeps after) : after.sent = world.sent := by
  funext emitter notice
  rw [World.sent, h.staff, World.sent]

theorem recorded?_file (h : world.Open) (notice : Notice) (emitter : Nat) :
    (world.file notice).1.recorded? emitter =
      (world.recorded? emitter).map (· ++ world.sent emitter notice) := by
  simp only [file, emitFrom, sent, staff?]
  cases hsheet : world.sheet? notice.sheet with
  | none => simp
  | some sheet =>
    simp only [Option.map_some]
    cases he : sheet.emitter with
    | none => simp [Sheet.staff, he]
    | some number =>
      simp only [Sheet.staff, he, Option.some.injEq]
      exact recorded?_emit h number emitter

end World

/-! ## What calls do to listeners -/

/-- What a call does to the listeners of a sheet. -/
def Call.staffed (number : Nat) (call : Call) (staff : Staff) : Staff :=
  match call with
  | .listen sheet _ => if sheet = number then staff.join else staff
  | .unlisten sheet id => if sheet = number then staff.leave id else staff
  | .attach sheet emitter => if sheet = number then staff.reattach emitter else staff
  | _ => staff

theorem Staff.Orderly.staffed {staff : Staff} (h : staff.Orderly) {number : Nat} {call : Call}
    (hid : ∀ id, call = .unlisten number id → staff.monitor ≠ some id) :
    (call.staffed number staff).Orderly := by
  unfold Call.staffed
  split
  · split
    · exact h.join
    · exact h
  · split
    · rename_i heq
      obtain rfl := heq
      exact h.leave (hid _ rfl)
    · exact h
  · split
    · exact h.reattach _
    · exact h
  · exact h

theorem Staff.Joined.staffed {staff : Staff} {id : Nat} (h : staff.Joined id) (number : Nat)
    (call : Call) : (call.staffed number staff).Joined id := by
  unfold Call.staffed
  split
  · split
    · exact h.join
    · exact h
  · split
    · exact ⟨h.issued, h.other⟩
    · exact h
  · split
    · exact h.reattach _
    · exact h
  · exact h

/-- The calls that add no sheet and no emitter, and let nobody join, leave or
ask for less. -/
def Call.keeps : Call → Bool
  | .newSheet _ | .newEmitter | .listen _ _ | .unlisten _ _ | .attach _ _ | .setMinimum _ _ => false
  | _ => true

namespace World

variable {world : World} {call : Call} {change : World × List Frame} {number : Nat}

theorem keeps_call (hc : world.call call = .ok change) (h : call.keeps = true) :
    world.Keeps change.1 := by
  cases call with
  | register | render | clear | url | join =>
    rcases onSheet_cases hc with ⟨-, rfl⟩ | ⟨s, -, rfl⟩
    · exact .refl world
    · exact .refl world
  | unregister =>
    rcases onSheet_cases hc with ⟨-, rfl⟩ | ⟨s, -, rfl⟩
    · exact .refl world
    · exact .setForest _ _
  | emit =>
    rcases onEmitter_cases hc with rfl | ⟨e, -, rfl⟩
    · exact .refl world
    · exact .emit _ _
  | observe | clearReports =>
    rcases onEmitter_cases hc with rfl | ⟨e, -, rfl⟩
    · exact .refl world
    · exact .updateEmitter fun _ => rfl
  | reports | reportTexts =>
    rcases onEmitter_cases hc with rfl | ⟨e, -, rfl⟩
    · exact .refl world
    · exact .refl world
  | newSheet | newEmitter | listen | unlisten | attach | setMinimum => cases h
  | fail => cases hc

/-- A call on one sheet's listeners. -/
theorem staff?_onSheet {sheet : Nat} {act : Sheet → World × List Frame}
    {made : Sheet → Sheet → Sheet} {staff : Staff} (staffed : Staff → Staff)
    (hc : world.onSheet sheet act = .ok change)
    (hact : ∀ s, (act s).1 = world.updateSheet sheet (made s))
    (hmade : ∀ s, world.sheet? sheet = some s → (made s s).staff = staffed s.staff)
    (hs : world.staff? number = some staff) :
    change.1.staff? number = some (if sheet = number then staffed staff else staff) := by
  rcases onSheet_cases hc with ⟨hnone, rfl⟩ | ⟨s, hsome, rfl⟩
  · have hne : sheet ≠ number := by
      rintro rfl
      simp [staff?, hnone] at hs
    rw [if_neg hne]
    exact hs
  · rw [hact, staff?_updateSheet hsome, hmade s hsome, hs]
    split
    · rename_i h
      obtain rfl := h
      rw [Option.some.inj ((staff?_of_sheet? hsome).symm.trans hs)]
    · rfl

theorem staff?_call (hc : world.call call = .ok change) {staff : Staff}
    (hs : world.staff? number = some staff) :
    change.1.staff? number = some (call.staffed number staff) := by
  cases call with
  | newSheet =>
    obtain rfl := Except.ok.inj hc
    obtain ⟨sheet, hsheet, rfl⟩ := Option.map_eq_some_iff.mp hs
    have hlt := (List.getElem?_eq_some_iff.mp hsheet).1
    exact congrArg (Option.map Sheet.staff) ((List.getElem?_append_left hlt).trans hsheet)
  | newEmitter =>
    obtain rfl := Except.ok.inj hc
    exact hs
  | setMinimum =>
    rcases onEmitter_cases hc with rfl | ⟨e, -, rfl⟩
    · exact hs
    · exact hs
  | listen sheet callback =>
    refine staff?_onSheet Staff.join hc (fun _ => rfl) (fun s _ => ?_) hs
    simp [Sheet.staff, Staff.join, Subscribers.map_add, Listener.isMonitor]
  | unlisten sheet id =>
    refine staff?_onSheet (Staff.leave · id) hc (fun _ => rfl) (fun s _ => ?_) hs
    simp [Sheet.staff, Staff.leave, Subscribers.map_remove]
  | attach sheet emitter =>
    refine staff?_onSheet (Staff.reattach · emitter) hc (fun _ => rfl) (fun s _ => ?_) hs
    exact s.staff_attach emitter
  | register | unregister | render | clear | url | join | emit | observe | reports | reportTexts
  | clearReports =>
    exact ((keeps_call hc rfl).staff number).trans hs
  | fail => cases hc

theorem length_sheets_emit (emitter : Nat) (report : Diagnostic) :
    (world.emit emitter report).1.sheets.length = world.sheets.length := by
  unfold World.emit
  split <;> rfl

/-- A sheet that was not there is a new one. -/
theorem sheet?_call_of_none (hc : world.call call = .ok change)
    (hs : world.sheet? number = none) : change.1.sheet? number = none ∨
      ∃ instanceId, change.1.sheet? number = some (.create instanceId) := by
  have hle : world.sheets.length ≤ number := List.getElem?_eq_none_iff.mp hs
  have hsame (hl : change.1.sheets.length = world.sheets.length) :
      change.1.sheet? number = none := List.getElem?_eq_none_iff.mpr (hl ▸ hle)
  cases call with
  | newSheet instanceId =>
    obtain rfl := Except.ok.inj hc
    have hlast (sheet : Sheet) : (world.sheets ++ [sheet])[number]? = none ∨
        (world.sheets ++ [sheet])[number]? = some sheet := by
      rw [List.getElem?_append_right hle]
      cases number - world.sheets.length with
      | zero => exact .inr rfl
      | succ beyond => exact .inl rfl
    exact (hlast _).imp_right fun hnew => ⟨_, hnew⟩
  | register | unregister | render | clear | url | join | listen | unlisten | attach =>
    refine .inl (hsame ?_)
    rcases onSheet_cases hc with ⟨-, rfl⟩ | ⟨s, -, rfl⟩
    · rfl
    · simp [updateSheet, setForest, beginUnregister, beginClear]
  | emit =>
    refine .inl (hsame ?_)
    rcases onEmitter_cases hc with rfl | ⟨e, -, rfl⟩
    · rfl
    · exact length_sheets_emit _ _
  | setMinimum | observe | reports | reportTexts | clearReports =>
    refine .inl (hsame ?_)
    rcases onEmitter_cases hc with rfl | ⟨e, -, rfl⟩
    · rfl
    · rfl
  | newEmitter =>
    obtain rfl := Except.ok.inj hc
    exact .inl hs
  | fail => cases hc

theorem staff?_call_of_none (hc : world.call call = .ok change)
    (hs : world.staff? number = none) : change.1.staff? number = none ∨
      ∃ instanceId, change.1.staff? number = some (Sheet.create instanceId).staff := by
  rcases sheet?_call_of_none hc (Option.map_eq_none_iff.mp hs) with hnone | ⟨instanceId, hnew⟩
  · exact .inl (Option.map_eq_none_iff.mpr hnone)
  · exact .inr ⟨instanceId, staff?_of_sheet? hnew⟩

/-- Whoever keeps everything goes on doing so until it is told otherwise. -/
theorem Open.of_call (h : world.Open) (hc : world.call call = .ok change)
    (hm : ∀ emitter severity, call ≠ .setMinimum emitter severity) : change.1.Open := by
  cases call with
  | newSheet =>
    obtain rfl := Except.ok.inj hc
    exact h
  | newEmitter =>
    obtain rfl := Except.ok.inj hc
    intro emitter minimum hminimum
    simp only [minimum?, emitter?, List.getElem?_append] at hminimum
    split at hminimum
    · exact h emitter minimum hminimum
    · obtain ⟨e, he, rfl⟩ := Option.map_eq_some_iff.mp hminimum
      obtain rfl := List.mem_singleton.mp (List.mem_of_getElem? he)
      rfl
  | listen | unlisten | attach =>
    rcases onSheet_cases hc with ⟨-, rfl⟩ | ⟨s, -, rfl⟩
    · exact h
    · exact h
  | setMinimum emitter severity => exact absurd rfl (hm emitter severity)
  | register | unregister | render | clear | url | join | emit | observe | reports | reportTexts
  | clearReports =>
    exact h.keeps (keeps_call hc rfl)
  | fail => cases hc

end World

end StyleRegistry.SheetSession
