import StyleRegistry.Proofs.Sheet.Ending
import StyleRegistry.Proofs.Sheet.Owed
import StyleRegistry.Proofs.Sheet.Watching

/-! # Runs in which others only look

Whoever is told of a change or of a report may look at sheets and emitters. While
nobody does more than that, a call on a sheet comes out as it would without
listeners, and its notices are those that it owed when it began. A sheet that it
is not on stays as it is. If there is nobody who would do more, such a run goes on
in this way until it has ended. -/
namespace StyleRegistry.SheetSession

/-! ## Traces -/

/-- Runs that make no other calls but those that change nothing, with the notices
that were filed. Whoever is being told may make any such calls. -/
inductive Observing (first : Run) : Run → List Notice → Prop
  | start : Observing first first []
  /-- A listener or an observer makes a call before it returns. -/
  | nested {run : Run} {notices : List Notice} (call : Call) : Observing first run notices →
      run.listening = true → call.looks = true →
      Observing first { run with stack := .script [call] :: run.stack } notices
  | step {run : Run} {notices : List Notice} : Observing first run notices → run.looks = true →
      Observing first run.step (notices ++ run.files?.toList)

/-! ## What the sheets come to -/

/-- A sheet holds the target, or what is left of the call on it leads there. -/
inductive Run.Heads (run : Run) (number : Nat) (target : Container) : Prop
  | arrived {forest : Forest} : run.Shows number forest [] → forest.root = target →
      Heads run number target
  | underway {forest : Forest} {rest : Rest} : run.Shows number forest [rest] →
      rest.LeadsTo forest target → Heads run number target

section Looking

variable {world : World} {run : Run} {number : Nat} {target : Container}

theorem Run.touch_of_looks (h : run.looks = true) (number : Nat) :
    run.touch number = .nothing ∨ run.touch number = .goOn ∨ run.touch number = .finish := by
  unfold Run.looks at h
  unfold Run.touch
  cases hs : run.stack with
  | nil => exact .inl rfl
  | cons frame stack =>
    rw [hs] at h
    have hnone (hcall : frame.touch number = .begin ∨ frame.touch number = .breaks) : False := by
      obtain ⟨call, calls, rfl, ht⟩ := Frame.exists_call hcall
      rw [← ht, Call.touch_of_looks h] at hcall
      simp at hcall
    cases ht : frame.touch number with
    | nothing => exact .inl ht
    | goOn => exact .inr (.inl ht)
    | finish => exact .inr (.inr ht)
    | begin => exact (hnone (.inl ht)).elim
    | breaks => exact (hnone (.inr ht)).elim

theorem Run.Heads.step (h : run.Heads number target) (hl : run.looks = true) :
    run.step.Heads number target := by
  cases h with
  | arrived hs hroot =>
    -- Only a call that is under way goes on or comes to its end.
    have hnone (ht : run.touch number = .goOn ∨ run.touch number = .finish) : False := by
      obtain ⟨rest, stack, -, hr, -⟩ := hs.exists_rest ht
      cases hr
    rcases Run.touch_of_looks hl number with ht | ht
    · exact .arrived (hs.step_nothing ht) hroot
    · exact (hnone ht).elim
  | underway hs hleads =>
    rcases Run.touch_of_looks hl number with ht | ht | ht
    · exact .underway (hs.step_nothing ht) hleads
    · obtain ⟨after, next, hstep, hnext⟩ := hs.goOn_leadsTo hleads ht
      exact .underway hstep hnext
    · obtain ⟨after, hstep, hroot⟩ := hs.finish_leadsTo hleads ht
      exact .arrived hstep hroot

theorem Run.Heads.container (h : run.Heads number target) (hs : run.stack = []) :
    ∃ sheet, run.world.sheet? number = some sheet ∧ sheet.container = target := by
  cases h with
  | arrived hshows hroot =>
    obtain ⟨sheet, hsheet, rfl⟩ := Option.map_eq_some_iff.mp hshows.forest
    exact ⟨sheet, hsheet, hroot⟩
  | underway hshows _ =>
    have hrests := hshows.rests
    rw [Run.rests, hs] at hrests
    cases hrests

end Looking

/-! ## What the notices come to -/

namespace Observing

variable {first run : Run} {notices : List Notice} {number : Nat}

theorem keeps (h : Observing first run notices) : first.world.Keeps run.world := by
  induction h with
  | start => exact .refl first.world
  | nested call _ _ _ ih => exact ih
  | step _ hl ih => exact ih.trans (Run.keeps_step hl)

theorem heads (h : Observing first run notices) {target : Container}
    (hf : first.Heads number target) : run.Heads number target := by
  induction h with
  | start => exact hf
  | nested call _ _ _ ih =>
    cases ih with
    | arrived hs hroot => exact .arrived ⟨hs.forest, hs.rests⟩ hroot
    | underway hs hleads => exact .underway ⟨hs.forest, hs.rests⟩ hleads
  | step _ hl ih => exact ih.step hl

/-- What was owed in the beginning has been filed or is owed. -/
theorem owes (h : Observing first run notices) {working : Bool} {total : List Notice}
    (hf : Owes first.world number working first.stack total) :
    ∃ working owed, Owes run.world number working run.stack owed ∧ notices ++ owed = total := by
  induction h with
  | start => exact ⟨working, total, hf, rfl⟩
  | nested call _ _ _ ih =>
    obtain ⟨working, owed, howes, htotal⟩ := ih
    exact ⟨working, owed, .idle rfl howes, htotal⟩
  | step _ hl ih =>
    obtain ⟨working, owed, howes, rfl⟩ := ih
    obtain ⟨after, left, hleft, rfl⟩ := howes.step hl
    exact ⟨after, left, hleft, List.append_assoc ..⟩

/-- In the end everything has been filed. -/
theorem notices_eq (h : Observing first run notices) (hs : run.stack = []) {working : Bool}
    {total : List Notice} (hf : Owes first.world number working first.stack total) :
    notices = total := by
  obtain ⟨after, owed, howes, rfl⟩ := h.owes hf
  rw [hs] at howes
  cases howes with
  | nil => exact (List.append_nil _).symm

theorem recorded? (h : Observing first run notices) (ho : first.world.Open) (emitter : Nat) :
    run.world.recorded? emitter = (first.world.recorded? emitter).map
      (· ++ notices.flatMap (first.world.sent emitter)) := by
  induction h with
  | start => simp
  | nested call _ _ _ ih => exact ih
  | @step run notices hrun hl ih =>
    cases hf : run.files? with
    | none =>
      rw [Option.toList_none, List.append_nil, ← ih]
      refine Run.recorded?_step hf fun call calls stack hs => ?_
      rw [Run.looks, hs] at hl
      exact Call.records_of_looks hl
    | some notice =>
      rw [Run.world_of_files hf, World.recorded?_file (ho.keeps hrun.keeps), ih,
        hrun.keeps.sent, Option.map_map]
      simp [Function.comp_def]

/-- A call that is over at once has nothing to tell, and its answer stays. -/
theorem reply_eq {reply : Reply} (h : Observing first run notices)
    (hf : first.stack = [.answer reply, .script []]) (hs : run.stack = []) : run.reply = reply := by
  have hkept : run.stack = [.answer reply, .script []] ∨
      run.reply = reply ∧ (run.stack = [.script []] ∨ run.stack = []) := by
    clear hs
    induction h with
    | start => exact .inl hf
    | @nested run _ call _ hlistening _ ih =>
      -- Nobody is being told anything.
      unfold Run.listening at hlistening
      rcases ih with hs | ⟨-, hs | hs⟩ <;> rw [hs] at hlistening <;> cases hlistening
    | step _ _ ih =>
      rcases ih with hs | ⟨hreply, hs | hs⟩
      · rw [Run.step_of_cons hs]
        exact .inr ⟨rfl, .inl rfl⟩
      · rw [Run.step_of_cons hs]
        exact .inr ⟨hreply, .inr rfl⟩
      · rw [Run.step, hs]
        exact .inr ⟨hreply, .inr hs⟩
  rcases hkept with hstack | ⟨hreply, -⟩
  · rw [hs] at hstack
    cases hstack
  · exact hreply

end Observing

/-! ## Runs that go on to their end -/

namespace Observing

variable {first run : Run} {notices : List Notice}

theorem watched (h : Observing first run notices) (hf : first.Watched) : run.Watched := by
  induction h with
  | start => exact hf
  | nested call _ _ hl ih =>
    refine ⟨ih.world, List.forall_mem_cons.mpr ⟨?_, ih.stack⟩⟩
    exact Bool.and_eq_true_iff.mpr ⟨hl, rfl⟩
  | step _ _ ih => exact ih.step

theorem seated (h : Observing first run notices) (hf : first.Seated) : run.Seated := by
  induction h with
  | start => exact hf
  | nested call _ _ _ ih => exact ⟨ih.world, List.forall_mem_cons.mpr ⟨trivial, ih.stack⟩⟩
  | step _ _ ih => exact ih.step

theorem failure_eq (h : Observing first run notices) : run.failure = first.failure := by
  induction h with
  | start => rfl
  | nested call _ _ _ ih => exact ih
  | @step run notices _ hl ih =>
    rw [← ih]
    cases hs : run.stack with
    | nil => rw [Run.step, hs]
    | cons frame below =>
      obtain ⟨change, -, -, -, hfailure⟩ := Run.step_move hs (Run.throws?_of_looks hl)
      exact hfailure

theorem steps (h : Observing first run notices) (hw : run.Watched) (fuel : Nat) :
    ∃ more, Observing first (run.steps fuel) (notices ++ more) := by
  induction fuel generalizing run notices with
  | zero => exact ⟨[], by rwa [List.append_nil]⟩
  | succ fuel ih =>
    cases hd : run.isDone with
    | true => exact ⟨[], by rwa [Run.steps_of_isDone hd, List.append_nil]⟩
    | false =>
      obtain ⟨more, hmore⟩ := ih (h.step hw.looks) hw.step
      rw [Run.steps_of_not_done hd]
      exact ⟨run.files?.toList ++ more, List.append_assoc .. ▸ hmore⟩

/-- **It goes on, looking only, to its end.** -/
theorem ends (h : Observing first run notices) (hw : first.Watched) (hs : first.Seated) :
    ∃ more, Observing first (run.steps run.bound) (notices ++ more) ∧
      (run.steps run.bound).stack = [] := by
  obtain ⟨more, hmore⟩ := h.steps (h.watched hw) run.bound
  exact ⟨more, hmore, List.isEmpty_iff.mp ((h.seated hs).ends (Nat.le_refl _))⟩

end Observing

end StyleRegistry.SheetSession
