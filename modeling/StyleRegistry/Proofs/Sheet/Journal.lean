import StyleRegistry.Proofs.Sheet.Staff

/-! # The journal of an emitter

An emitter is asked to keep reports by calls and by the sheets that are attached
to it, and the observers that it tells may ask it for more, clear it or change
what it asks for before they return. One step of a run does at most one such
deed. So what an emitter keeps is read off its deeds, however they are nested:
the reports that were severe enough when they were emitted, in this order, from
the last clearing on. -/
namespace StyleRegistry

/-- A callback apart from the firings that it has left. -/
def Callback.bare {α : Type} (callback : Callback α) : Callback α := { callback with firings := 0 }

namespace SheetSession

open Bytes (ascii)

/-! ## Deeds -/

/-- What is done to an emitter. -/
inductive Deed where
  | emit (report : Diagnostic)
  | setMinimum (severity : Severity)
  | clear
  deriving DecidableEq, Repr

/-- An emitter after a deed, or after none. -/
def Deed.done (e : Emitter (Callback Call)) : Option Deed → Emitter (Callback Call)
  | none => e
  | some (.emit report) => if e.accepts report then e.record report else e
  | some (.setMinimum severity) => { e with minimum := severity }
  | some .clear => e.clear

@[simp] theorem Deed.observers_done (e : Emitter (Callback Call)) (deed : Option Deed) :
    (Deed.done e deed).observers = e.observers := by
  match deed with
  | none | some (.setMinimum _) | some .clear => rfl
  | some (.emit report) =>
    rw [Deed.done]
    split <;> rfl

def Call.deed? (emitter : Nat) : Call → Option Deed
  | .emit number report => if number = emitter then some (.emit report) else none
  | .setMinimum number severity => if number = emitter then some (.setMinimum severity) else none
  | .clearReports number => if number = emitter then some .clear else none
  | _ => none

/-- The call adds an observer to the emitter. -/
def Call.observes (emitter : Nat) : Call → Bool
  | .observe number _ => number == emitter
  | _ => false

namespace Run

/-- What the next step does to the emitter, if it is there: what a call asks it
for, or the report of a sheet that is attached to it. -/
def deed? (run : Run) (emitter : Nat) : Option Deed :=
  (run.world.emitter? emitter).bind fun _ =>
    match run.stack with
    | .script (call :: _) :: _ => call.deed? emitter
    | _ => (run.files?.bind fun notice => (run.world.sent emitter notice).head?).map .emit

/-- What so many steps do to the emitter, until the run is over. -/
def deeds (run : Run) (emitter : Nat) : Nat → List Deed
  | 0 => []
  | fuel + 1 =>
    if run.isDone then [] else (run.deed? emitter).toList ++ run.step.deeds emitter fuel

/-- The next step adds an observer to the emitter. -/
def observes (run : Run) (emitter : Nat) : Bool :=
  match run.stack with
  | .script (call :: _) :: _ => call.observes emitter
  | _ => false

end Run

/-! ## One step -/

/-- The emitter is there after the deed, with the observers that it had unless
one was added. -/
def World.Does (before after : World) (emitter : Nat) (deed : Option Deed) (observes : Bool) :
    Prop :=
  ∀ e, before.emitter? emitter = some e → ∃ observers,
    after.emitter? emitter = some { Deed.done e deed with observers } ∧
      (observes = false → observers.map Callback.bare = e.observers.map Callback.bare)

namespace World

variable {world after : World} {emitter number : Nat} {e : Emitter (Callback Call)}
  {deed : Option Deed} {observes : Bool} {call : Call} {change : World × List Frame}

theorem does_of_eq (h : ∀ e, world.emitter? emitter = some e →
    after.emitter? emitter = some (Deed.done e deed)) : world.Does after emitter deed observes := by
  intro e he
  refine ⟨e.observers, (h e he).trans ?_, fun _ => rfl⟩
  rw [← Deed.observers_done e deed]

theorem does_nothing (h : after.emitter? emitter = world.emitter? emitter) :
    world.Does after emitter none observes :=
  does_of_eq fun _ he => h.trans he

/-- What one emitter is asked for is nothing to the others. -/
theorem does_updateEmitter (deed : Option Deed)
    {alter : Emitter (Callback Call) → Emitter (Callback Call)}
    (h : ∀ e, alter e = Deed.done e deed) :
    world.Does (world.updateEmitter number alter) emitter (if number = emitter then deed else none)
      observes := by
  refine does_of_eq fun e he => ?_
  rw [emitter?_updateEmitter, he]
  split
  · rw [Option.map_some, h]
  · rfl

theorem does_emit (report : Diagnostic) :
    world.Does (world.emit number report).1 emitter
      (if number = emitter then some (.emit report) else none) observes := by
  refine does_of_eq fun e he => ?_
  unfold emit
  split
  · rename_i haccepts
    rw [emitter?_updateEmitter, he]
    split
    · rename_i hn
      obtain rfl := hn
      rw [he, Option.any_some] at haccepts
      rw [Option.map_some, Deed.done, if_pos haccepts]
    · rfl
  · rename_i hrefused
    split
    · rename_i hn
      obtain rfl := hn
      rw [he, Option.any_some] at hrefused
      rw [he, Deed.done, if_neg hrefused]
    · exact he

theorem does_onEmitter {act : Emitter (Callback Call) → World × List Frame}
    (hc : world.onEmitter number act = .ok change)
    (h : ∀ e, world.emitter? number = some e → world.Does (act e).1 emitter
      (if number = emitter then deed else none) observes) :
    world.Does change.1 emitter (if number = emitter then deed else none) observes := by
  obtain rfl := Except.ok.inj hc
  cases hnumber : world.emitter? number with
  | some e => exact h e hnumber
  | none =>
    have hne (e : Emitter (Callback Call)) (he : world.emitter? emitter = some e) :
        number ≠ emitter := by
      rintro rfl
      rw [hnumber] at he
      cases he
    refine does_of_eq fun e he => ?_
    rw [if_neg (hne e he)]
    exact he

theorem does_call (hc : world.call call = .ok change) :
    world.Does change.1 emitter (call.deed? emitter) (call.observes emitter) := by
  cases call with
  | newSheet =>
    obtain rfl := Except.ok.inj hc
    exact does_nothing rfl
  | register | unregister | render | clear | url | join | listen | unlisten | attach =>
    rcases onSheet_cases hc with ⟨-, rfl⟩ | ⟨s, -, rfl⟩
    · exact does_nothing rfl
    · exact does_nothing rfl
  | newEmitter =>
    obtain rfl := Except.ok.inj hc
    refine does_of_eq fun e he => ?_
    have hlt := (List.getElem?_eq_some_iff.mp he).1
    exact (List.getElem?_append_left hlt).trans he
  | emit number report => exact does_onEmitter hc fun _ _ => does_emit report
  | setMinimum number severity =>
    exact does_onEmitter hc fun _ _ => does_updateEmitter (some _) fun _ => rfl
  | clearReports number =>
    exact does_onEmitter hc fun _ _ => does_updateEmitter (some _) fun _ => rfl
  | reports number | reportTexts number =>
    rcases onEmitter_cases hc with rfl | ⟨e, -, rfl⟩
    · exact does_nothing rfl
    · exact does_nothing rfl
  | observe number callback =>
    intro e he
    by_cases hn : number = emitter
    · obtain rfl := hn
      have hact : change.1 = world.updateEmitter number
          ({ · with observers := e.observers ++ [callback] }) := by
        rw [call, onEmitter, he] at hc
        rw [← Except.ok.inj hc]
        rfl
      refine ⟨e.observers ++ [callback], ?_, fun ho => ?_⟩
      · rw [hact, emitter?_updateEmitter, if_pos rfl, he]
        rfl
      · simp [Call.observes] at ho
    · refine ⟨e.observers, ?_, fun _ => rfl⟩
      rcases onEmitter_cases hc with rfl | ⟨e', -, rfl⟩
      · exact he
      · exact (emitter?_updateEmitter ..).trans ((if_neg hn).trans he)
  | fail => cases hc

/-- A notice is emitted where its sheet is attached, if it is. -/
theorem file_cases (world : World) (notice : Notice) :
    (∃ number report, world.file notice = world.emit number report ∧
      ∀ emitter, world.sent emitter notice = if number = emitter then [report] else []) ∨
    (world.file notice = (world, []) ∧ ∀ emitter, world.sent emitter notice = []) := by
  simp only [file, emitFrom, sent, staff?]
  cases hsheet : world.sheet? notice.sheet with
  | none => exact .inr ⟨rfl, fun _ => rfl⟩
  | some sheet =>
    simp only [Option.map_some, Sheet.staff]
    cases he : sheet.emitter with
    | none => exact .inr ⟨rfl, fun _ => if_neg (Option.some_ne_none _).symm⟩
    | some number =>
      refine .inl ⟨number, _, rfl, fun emitter => ?_⟩
      simp only [Option.some.injEq]
      rfl

theorem does_file (notice : Notice) :
    world.Does (world.file notice).1 emitter ((world.sent emitter notice).head?.map .emit)
      observes := by
  rcases world.file_cases notice with ⟨number, report, hfile, hsent⟩ | ⟨hfile, hsent⟩
  · have hdeed : (world.sent emitter notice).head?.map Deed.emit =
        if number = emitter then some (.emit report) else none := by
      rw [hsent]
      split
      · rfl
      · rfl
    rw [hfile, hdeed]
    exact does_emit report
  · rw [hfile, hsent]
    exact does_nothing rfl

/-- A firing that is used up leaves the observer what it was. -/
theorem does_spend {next : Nat} {callback : Callback Call}
    (he : world.emitter? number = some e) (hget : e.observers[next]? = some callback) :
    world.Does (world.updateEmitter number
      ({ · with observers := e.observers.set next callback.spend })) emitter none observes := by
  intro e' he'
  have hbare : (e.observers.set next callback.spend).map Callback.bare =
      e.observers.map Callback.bare := by
    refine List.ext_getElem? fun place => ?_
    rw [List.getElem?_map, List.getElem?_map, List.getElem?_set]
    split
    · rename_i hplace
      rw [if_pos (List.getElem?_eq_some_iff.mp hget).1, ← hplace, hget]
      rfl
    · rfl
  rw [emitter?_updateEmitter, he']
  split
  · rename_i hn
    obtain rfl := hn
    obtain rfl := Option.some.inj (he.symm.trans he')
    exact ⟨_, rfl, fun _ => hbare⟩
  · exact ⟨e'.observers, rfl, fun _ => rfl⟩

end World

namespace Run

variable {run : Run} {emitter : Nat}

theorem deed?_of_some {e : Emitter (Callback Call)} (he : run.world.emitter? emitter = some e) :
    run.deed? emitter = match run.stack with
      | .script (call :: _) :: _ => call.deed? emitter
      | _ => (run.files?.bind fun notice => (run.world.sent emitter notice).head?).map .emit := by
  rw [deed?, he, Option.bind_some]

theorem does_idle (hf : run.files? = none) (observes : Bool)
    (hc : ∀ call calls below, run.stack ≠ .script (call :: calls) :: below) :
    run.world.Does run.step.world emitter none observes := by
  rcases emitters_step hf hc with hsame | ⟨number, e, next, callback, he, hget, hworld⟩
  · exact World.does_nothing (congrArg (·[emitter]?) hsame)
  · rw [hworld]
    exact World.does_spend he hget

/-- A step does its deed to the emitter and nothing else. -/
theorem does_step (run : Run) (emitter : Nat) :
    run.world.Does run.step.world emitter (run.deed? emitter) (run.observes emitter) := by
  intro e he
  have hdeed := deed?_of_some he
  by_cases hcall : ∃ call calls below, run.stack = .script (call :: calls) :: below
  · obtain ⟨call, calls, below, hs⟩ := hcall
    simp only [hs] at hdeed
    rw [hdeed, observes, hs]
    cases hc : run.world.call call with
    | ok change =>
      rw [step_call hs hc]
      exact World.does_call hc e he
    | error message =>
      obtain ⟨text, rfl⟩ := World.call_eq_error hc
      rw [step_of_cons hs]
      exact World.does_nothing rfl e he
  · have hother (call : Call) (calls : List Call) (below : List Frame) :
        run.stack ≠ .script (call :: calls) :: below := fun hs => hcall ⟨call, calls, below, hs⟩
    split at hdeed
    · rename_i hs
      exact absurd hs (hother _ _ _)
    · rw [hdeed]
      cases hf : run.files? with
      | none => exact does_idle hf _ hother e he
      | some notice =>
        rw [world_of_files hf]
        exact World.does_file notice e he

end Run

/-! ## What deeds leave -/

def Deed.minimum? : Deed → Option Severity
  | .setMinimum severity => some severity
  | _ => none

/-- The minimum that is in force after the deeds: the one that was set last. -/
def inForce (deeds : List Deed) : Severity := (deeds.filterMap Deed.minimum?).getLast?.getD .info

/-- The report that was emitted at this place, if it was severe enough for the
minimum in force then, and there was no clearing since. -/
def keptAt (deeds : List Deed) (place : Nat) : Option Diagnostic :=
  match deeds[place]? with
  | some (.emit report) =>
    if (inForce (deeds.take place)).rank ≤ report.severity.rank ∧
        .clear ∉ deeds.drop (place + 1) then some report
    else none
  | _ => none

/-- The reports that are to be there after the deeds, in the order of their emission. -/
def kept (deeds : List Deed) : List Diagnostic :=
  (List.range deeds.length).filterMap (keptAt deeds)

theorem inForce_concat (deeds : List Deed) (deed : Deed) :
    inForce (deeds ++ [deed]) = deed.minimum?.getD (inForce deeds) := by
  rw [inForce, List.filterMap_append]
  cases deed with
  | setMinimum severity => simp [Deed.minimum?]
  | emit report => simp [Deed.minimum?, inForce]
  | clear => simp [Deed.minimum?, inForce]

theorem keptAt_concat {deeds : List Deed} {place : Nat} (h : place < deeds.length) (deed : Deed) :
    keptAt (deeds ++ [deed]) place = if deed = .clear then none else keptAt deeds place := by
  have hdrop : (deeds ++ [deed]).drop (place + 1) = deeds.drop (place + 1) ++ [deed] :=
    List.drop_append_of_le_length h
  rw [keptAt, List.getElem?_append_left h, List.take_append_of_le_length (Nat.le_of_lt h), hdrop]
  split
  · rename_i report hreport
    rw [keptAt, hreport]
    by_cases hd : deed = .clear
    · simp [hd]
    · simp [hd, Ne.symm hd]
  · rename_i hother
    have hnone : keptAt deeds place = none := by
      rw [keptAt]
      split
      · rename_i hreport
        exact absurd hreport (hother _)
      · rfl
    rw [hnone, ite_self]

theorem keptAt_last (deeds : List Deed) (deed : Deed) : keptAt (deeds ++ [deed]) deeds.length =
    match deed with
    | .emit report => if (inForce deeds).rank ≤ report.severity.rank then some report else none
    | _ => none := by
  rw [keptAt, List.getElem?_concat_length, List.take_left, List.drop_eq_nil_of_le (by simp)]
  cases deed with
  | emit report => simp
  | setMinimum severity => rfl
  | clear => rfl

/-- A severe enough report comes last, and a clearing leaves nothing. -/
theorem kept_concat (deeds : List Deed) (deed : Deed) : kept (deeds ++ [deed]) =
    match deed with
    | .emit report => kept deeds ++
      if (inForce deeds).rank ≤ report.severity.rank then [report] else []
    | .setMinimum _ => kept deeds
    | .clear => [] := by
  have hbefore : (List.range deeds.length).filterMap (keptAt (deeds ++ [deed])) =
      if deed = .clear then [] else kept deeds := by
    split
    · rename_i hd
      refine List.filterMap_eq_nil_iff.mpr fun place hm => ?_
      rw [keptAt_concat (List.mem_range.mp hm), if_pos hd]
    · rename_i hd
      refine List.filterMap_congr fun place hm => ?_
      rw [keptAt_concat (List.mem_range.mp hm), if_neg hd]
  rw [kept, List.length_append, List.length_singleton, List.range_succ, List.filterMap_append,
    hbefore]
  have hlast := keptAt_last deeds deed
  cases deed with
  | emit report =>
    by_cases hsevere : (inForce deeds).rank ≤ report.severity.rank
    · simp [hlast, hsevere]
    · simp [hlast, hsevere]
  | setMinimum severity => simp [hlast]
  | clear => simp [hlast]

theorem Deed.done_kept (deeds : List Deed) (deed : Deed) (observers : List (Callback Call)) :
    Deed.done ⟨inForce deeds, kept deeds, observers⟩ (some deed) =
      ⟨inForce (deeds ++ [deed]), kept (deeds ++ [deed]), observers⟩ := by
  rw [inForce_concat, kept_concat]
  cases deed with
  | emit report =>
    simp only [Deed.done, Emitter.accepts, decide_eq_true_eq]
    split
    · rfl
    · rw [List.append_nil]
      rfl
  | setMinimum severity => rfl
  | clear => rfl

/-! ## Every moment -/

/-- Runs, with what was done to an emitter since it was made. Whoever is told of
something may make any calls before it returns, an exception may end what is
under way, up to one that was told and catches it, and the session may make any
call when the one before is over. -/
inductive Journal (emitter : Nat) : Run → List Deed → Prop
  | start {run : Run} : run.world.emitter? emitter = some .empty → Journal emitter run []
  | call {run : Run} {deeds : List Deed} (call : Call) :
    Journal emitter run deeds → run.stack = [] →
      Journal emitter (run.world.settle.start call) deeds
  | nested {run : Run} {deeds : List Deed} (call : Call) :
    Journal emitter run deeds → run.listening = true →
      Journal emitter { run with stack := .script [call] :: run.stack } deeds
  | step {run : Run} {deeds : List Deed} : Journal emitter run deeds →
      Journal emitter run.step (deeds ++ (run.deed? emitter).toList)
  | unwind {run : Run} {deeds : List Deed} {rest : List Frame} :
    Journal emitter run deeds → rest <:+ run.stack →
      rest = [] ∨ Run.listening { run with stack := rest } = true →
      Journal emitter { run with stack := rest } deeds

/-- An emitter keeps at every moment what its deeds leave. -/
theorem Journal.exists_emitter {emitter : Nat} {run : Run} {deeds : List Deed}
    (h : Journal emitter run deeds) : ∃ observers,
      run.world.emitter? emitter = some ⟨inForce deeds, kept deeds, observers⟩ := by
  induction h with
  | start hempty => exact ⟨[], hempty⟩
  | call _ _ _ ih => exact ih
  | nested _ _ _ ih => exact ih
  | unwind _ _ _ ih => exact ih
  | @step run deeds _ ih =>
    obtain ⟨before, he⟩ := ih
    obtain ⟨observers, hafter, -⟩ := run.does_step emitter _ he
    refine ⟨observers, ?_⟩
    rw [hafter]
    cases run.deed? emitter with
    | none => rw [Option.toList_none, List.append_nil, Deed.done]
    | some deed => rw [Deed.done_kept, Option.toList_some]

/-- So many steps do their deeds. -/
theorem Journal.steps {emitter : Nat} {run : Run} {deeds : List Deed}
    (h : Journal emitter run deeds) (fuel : Nat) :
    Journal emitter (run.steps fuel) (deeds ++ run.deeds emitter fuel) := by
  induction fuel generalizing run deeds with
  | zero =>
    rw [Run.deeds, List.append_nil]
    exact h
  | succ fuel ih =>
    rw [Run.steps, Run.deeds]
    split
    · rw [List.append_nil]
      exact h
    · rw [← List.append_assoc]
      exact ih h.step

end SheetSession
end StyleRegistry
