import StyleRegistry.Proofs.Sheet.Staff

/-! # Those who only look

A listener or an observer may do no more than look: its script makes none but the
calls that change nothing. If all that are there do no more, and none joins that
would, then nothing that is ever put on a stack for them does more. -/
namespace StyleRegistry.SheetSession

/-! ## Who only looks -/

/-- Its script makes no calls but those that change nothing. -/
def onlyLooks (callback : Callback Call) : Bool := callback.script.all Call.looks

def Listener.onlyLooks : Listener → Bool
  | .monitor => true
  | .scripted callback => SheetSession.onlyLooks callback

/-- All who may be told of anything only look. -/
structure World.Watched (world : World) : Prop where
  listeners : ∀ number sheet, world.sheet? number = some sheet →
    sheet.listeners.All (·.onlyLooks = true)
  observers : ∀ number e, world.emitter? number = some e →
    ∀ callback ∈ e.observers, onlyLooks callback = true

def Frame.Watched : Frame → Prop
  | .script calls => calls.all Call.looks = true
  | _ => True

structure Run.Watched (run : Run) : Prop where
  world : run.world.Watched
  stack : ∀ frame ∈ run.stack, frame.Watched

/-- Whoever the call has join only looks. -/
def Call.enlistsLookers : Call → Bool
  | .listen _ callback | .observe _ callback => onlyLooks callback
  | _ => true

theorem Sheet.all_attach {property : Listener → Prop} {sheet : Sheet}
    (h : sheet.listeners.All property) (hm : property .monitor) (emitter : Option Nat) :
    (sheet.attach emitter).listeners.All property := by
  unfold attach
  cases sheet.monitor with
  | none =>
    cases emitter with
    | none => exact h
    | some number => exact h.add hm
  | some id =>
    cases emitter with
    | none => exact h.remove id
    | some number => exact (h.remove id).add hm

namespace World

variable {world : World} {number : Nat} {sheet : Sheet} {e : Emitter (Callback Call)}

theorem watched_initial : World.initial.Watched where
  listeners _ _ h := by cases h
  observers _ _ h := by cases h

theorem Watched.settle (h : world.Watched) : world.settle.Watched := by
  refine ⟨fun number sheet hs => ?_, h.observers⟩
  rw [sheet?, World.settle, List.getElem?_map] at hs
  obtain ⟨before, hb, rfl⟩ := Option.map_eq_some_iff.mp hs
  exact h.listeners number before hb

theorem Watched.updateSheet (h : world.Watched) (hs : world.sheet? number = some sheet)
    {alter : Sheet → Sheet} (ha : (alter sheet).listeners.All (·.onlyLooks = true)) :
    (world.updateSheet number alter).Watched :=
  ⟨forall_updateSheet h.listeners hs ha, h.observers⟩

theorem Watched.updateEmitter (h : world.Watched) (he : world.emitter? number = some e)
    {alter : Emitter (Callback Call) → Emitter (Callback Call)}
    (ha : ∀ callback ∈ (alter e).observers, onlyLooks callback = true) :
    (world.updateEmitter number alter).Watched :=
  ⟨h.listeners, forall_updateEmitter h.observers he ha⟩

theorem Watched.setForest (h : world.Watched) (hs : world.sheet? number = some sheet)
    (forest : Forest) : (world.setForest number forest).Watched :=
  h.updateSheet hs (h.listeners number sheet hs)

theorem Watched.emit (h : world.Watched) (emitter : Nat) (report : Diagnostic) :
    (world.emit emitter report).1.Watched ∧
      ∀ frame ∈ (world.emit emitter report).2, frame.Watched := by
  unfold World.emit
  split
  · rename_i haccepts
    obtain ⟨e, he, -⟩ := (Option.any_eq_true ..).mp haccepts
    exact ⟨h.updateEmitter he (h.observers emitter e he), by simp [Frame.Watched]⟩
  · exact ⟨h, by simp⟩

theorem Watched.emitFrom (h : world.Watched) (sheet : Nat) (module stage message : Bytes) :
    (world.emitFrom sheet module stage message).1.Watched ∧
      ∀ frame ∈ (world.emitFrom sheet module stage message).2, frame.Watched := by
  unfold World.emitFrom
  split
  · exact ⟨h, by simp⟩
  · split
    · exact ⟨h, by simp⟩
    · exact h.emit ..

/-! ## Calls -/

theorem Watched.onSheet (h : world.Watched) {act : Sheet → World × List Frame}
    {change : World × List Frame} (hc : world.onSheet number act = .ok change)
    (ha : ∀ sheet, world.sheet? number = some sheet →
      (act sheet).1.Watched ∧ ∀ frame ∈ (act sheet).2, frame.Watched) :
    change.1.Watched ∧ ∀ frame ∈ change.2, frame.Watched := by
  rcases onSheet_cases hc with ⟨-, rfl⟩ | ⟨sheet, hs, rfl⟩
  · exact ⟨h, by simp [Frame.Watched]⟩
  · exact ha sheet hs

theorem Watched.onEmitter (h : world.Watched)
    {act : Emitter (Callback Call) → World × List Frame} {change : World × List Frame}
    (hc : world.onEmitter number act = .ok change)
    (ha : ∀ e, world.emitter? number = some e →
      (act e).1.Watched ∧ ∀ frame ∈ (act e).2, frame.Watched) :
    change.1.Watched ∧ ∀ frame ∈ change.2, frame.Watched := by
  rcases onEmitter_cases hc with rfl | ⟨e, he, rfl⟩
  · exact ⟨h, by simp [Frame.Watched]⟩
  · exact ha e he

theorem Watched.call (h : world.Watched) {call : Call} {change : World × List Frame}
    (hl : call.enlistsLookers = true) (hc : world.call call = .ok change) :
    change.1.Watched ∧ ∀ frame ∈ change.2, frame.Watched := by
  cases call with
  | newSheet instanceId =>
    obtain rfl := Except.ok.inj hc
    refine ⟨⟨forall_newSheet h.listeners (fun _ => ?_) instanceId, h.observers⟩, ?_⟩
    · simp [Sheet.create, Subscribers.All, Subscribers.empty]
    · simp [Frame.Watched]
  | register | clear | render | url | join =>
    exact h.onSheet hc fun sheet _ => ⟨h, by simp [Frame.Watched, beginClear]⟩
  | unregister =>
    exact h.onSheet hc fun sheet hs =>
      ⟨h.setForest hs _, by simp [Frame.Watched, beginUnregister]⟩
  | listen number callback =>
    refine h.onSheet hc fun sheet hs => ⟨h.updateSheet hs ?_, by simp [Frame.Watched]⟩
    exact (h.listeners number sheet hs).add hl
  | unlisten number id =>
    refine h.onSheet hc fun sheet hs => ⟨h.updateSheet hs ?_, by simp [Frame.Watched]⟩
    exact (h.listeners number sheet hs).remove id
  | attach number emitter =>
    refine h.onSheet hc fun sheet hs => ⟨h.updateSheet hs ?_, by simp [Frame.Watched]⟩
    exact Sheet.all_attach (h.listeners number sheet hs) rfl emitter
  | newEmitter =>
    obtain rfl := Except.ok.inj hc
    refine ⟨⟨h.listeners, fun number e he => ?_⟩, by simp [Frame.Watched]⟩
    rcases List.mem_append.mp (List.mem_of_getElem? he) with hm | hm
    · obtain ⟨other, ho⟩ := List.getElem?_of_mem hm
      exact h.observers other e ho
    · obtain rfl := List.mem_singleton.mp hm
      simp [Emitter.empty]
  | emit number report =>
    refine h.onEmitter hc fun e _ => ?_
    obtain ⟨hafter, hframes⟩ := h.emit number report
    exact ⟨hafter, List.forall_mem_append.mpr ⟨hframes, by simp [Frame.Watched]⟩⟩
  | setMinimum number | clearReports number =>
    exact h.onEmitter hc fun e he =>
      ⟨h.updateEmitter he (h.observers number e he), by simp [Frame.Watched]⟩
  | observe number callback =>
    refine h.onEmitter hc fun e he => ⟨h.updateEmitter he ?_, by simp [Frame.Watched]⟩
    exact List.forall_mem_append.mpr
      ⟨h.observers number e he, List.forall_mem_singleton.mpr hl⟩
  | reports | reportTexts => exact h.onEmitter hc fun e _ => ⟨h, by simp [Frame.Watched]⟩
  | fail => cases hc

end World

theorem watched_tell (number : Nat) (event : Option Event) :
    ∀ frame ∈ World.tell number event, frame.Watched := by
  unfold World.tell
  cases event.filter Event.isTopLevel <;> simp [Frame.Watched]

/-! ## Steps -/

/-- Who fires has its calls made, and stays who it is. -/
theorem Frame.Move.watched {frame : Frame} {world : World} {change : World × List Frame}
    (hm : frame.Move world change) (h : world.Watched) (hf : frame.Watched) :
    change.1.Watched ∧ ∀ other ∈ change.2, other.Watched := by
  cases hm with
  | drop => exact ⟨h, by simp⟩
  | @call call calls change hc =>
    obtain ⟨hlooks, hcalls⟩ := Bool.and_eq_true_iff.mp hf
    obtain ⟨reply, hreply⟩ := @World.call_of_looks world call hlooks
    obtain rfl := Except.ok.inj (hreply.symm.trans hc)
    exact ⟨h, by simpa [Frame.Watched] using hcalls⟩
  | monitor =>
    obtain ⟨hafter, hframes⟩ := h.emitFrom ..
    exact ⟨hafter, List.forall_mem_append.mpr ⟨hframes, by simp [Frame.Watched]⟩⟩
  | done => exact h.emitFrom ..
  | listen | observe | count => exact ⟨h, by simp [Frame.Watched]⟩
  | @listenerFires number next event sheet callback hs hget =>
    have hlooks := (h.listeners number sheet hs).of_get? hget
    refine ⟨h.updateSheet hs ((h.listeners number sheet hs).set next hlooks), ?_⟩
    exact List.forall_mem_cons.mpr ⟨hlooks, by simp [Frame.Watched]⟩
  | @observerFires number next report e callback he hget =>
    have hlooks := h.observers number e he callback (List.mem_of_getElem? hget)
    refine ⟨h.updateEmitter he fun other ho => ?_,
      List.forall_mem_cons.mpr ⟨hlooks, by simp [Frame.Watched]⟩⟩
    rcases List.mem_or_eq_of_mem_set ho with ho | rfl
    · exact h.observers number e he other ho
    · exact hlooks
  | walk hs | removal hs =>
    refine ⟨h.setForest hs _, ?_⟩
    exact List.forall_mem_append.mpr ⟨watched_tell _ _, by simp [Frame.Watched]⟩
  | walked hs => exact ⟨h.setForest hs _, by simp [Frame.Watched]⟩

namespace Run

variable {run : Run}

theorem Watched.looks (h : run.Watched) : run.looks = true := by
  unfold Run.looks
  split
  · rename_i call calls below hs
    have hscript : Frame.Watched (.script (call :: calls)) :=
      h.stack _ (hs ▸ List.mem_cons_self)
    exact (Bool.and_eq_true_iff.mp hscript).1
  · rfl

theorem Watched.step (h : run.Watched) : run.step.Watched := by
  cases hs : run.stack with
  | nil =>
    rw [Run.step, hs]
    exact h
  | cons frame below =>
    obtain ⟨change, hmove, hworld, hstack, -⟩ := step_move hs (throws?_of_looks h.looks)
    obtain ⟨hafter, hframes⟩ := hmove.watched h.world (h.stack frame (hs ▸ List.mem_cons_self))
    refine ⟨hworld ▸ hafter, fun other ho => ?_⟩
    rw [hstack] at ho
    exact (List.mem_append.mp ho).elim (hframes other) fun hm =>
      h.stack other (hs ▸ List.mem_cons_of_mem _ hm)

end Run

end StyleRegistry.SheetSession
