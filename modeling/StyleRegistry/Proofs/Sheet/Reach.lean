import StyleRegistry.Proofs.Rule.Reach
import StyleRegistry.Proofs.Sheet.Nesting

/-! # Sheets keep kinds apart

A sheet's containers may change at any moment while walks are under way in them:
a listener may register, undo or clear, and may fail. Every walk that is left
has the containers and the blocks that it counts on. -/
namespace StyleRegistry.SheetSession

open Bytes (ascii)

/-! ## What a step keeps -/

/-- The containers of the sheet are sound, and each walk that is under way on it
finds what it took. -/
def Run.Kept (run : Run) (number : Nat) : Prop :=
  ∃ forest rests, run.Shows number forest rests ∧ forest.Sound ∧
    ∀ walk, Rest.walk walk ∈ rests → walk.Kept forest

namespace Run.Kept

variable {run : Run} {number : Nat} {forest after : Forest} {rests later : List Rest}

/-- The walks that were under way go on in what follows. -/
theorem of_follows (hshows : run.Shows number after later) (hf : forest.Follows after)
    (hk : ∀ walk, Rest.walk walk ∈ rests → walk.Kept forest)
    (hl : ∀ walk, Rest.walk walk ∈ later → Rest.walk walk ∈ rests ∨ walk.Kept after) :
    run.Kept number := by
  refine ⟨after, later, hshows, hf.sound, fun walk hm => ?_⟩
  rcases hl walk hm with hm | hkept
  · exact (hk walk hm).follows hf
  · exact hkept

theorem stepCall (hshows : run.Shows number forest rests) (hs : forest.Sound)
    (hk : ∀ walk, Rest.walk walk ∈ rests → walk.Kept forest)
    (ht : run.touch number = .begin ∨ run.touch number = .breaks) : run.step.Kept number := by
  cases hstack : run.stack with
  | nil => simp [Run.touch, hstack] at ht
  | cons frame stack =>
    have htouch : run.touch number = frame.touch number := by rw [Run.touch, hstack]
    rw [htouch] at ht
    obtain ⟨call, calls, rfl, hcall⟩ := Frame.exists_call ht
    rw [← hcall] at ht
    rcases Call.eq_of_touch ht with ⟨styles, rfl⟩ | ⟨styles, rfl⟩ | rfl | ⟨message, rfl⟩
    · refine of_follows (hshows.step_register hstack) (.refl hs) hk fun walk hm => ?_
      rcases List.mem_cons.mp hm with he | hm
      · cases he
        exact .inr (.start (.inl ⟨Nat.le_refl _, Forest.locate_place _⟩) _)
      · exact .inl hm
    · refine of_follows (hshows.step_unregister hstack) (hs.removeSelectors _ _) hk ?_
      exact fun walk hm => .inl ((List.mem_cons.mp hm).resolve_left (by simp))
    · refine of_follows (hshows.step_clear hstack) (.refl hs) hk ?_
      exact fun walk hm => .inl ((List.mem_cons.mp hm).resolve_left (by simp))
    · refine of_follows (hshows.step_fail hstack) (.refl hs) hk ?_
      exact fun walk hm => absurd hm List.not_mem_nil

theorem stepGoOn (hshows : run.Shows number forest rests) (hs : forest.Sound)
    (hk : ∀ walk, Rest.walk walk ∈ rests → walk.Kept forest) (ht : run.touch number = .goOn) :
    run.step.Kept number := by
  obtain ⟨later, ⟨walk, rfl, -, hstep⟩ | ⟨removal, left, rfl, hone⟩⟩ := hshows.step_goOn ht
  · refine of_follows hstep (hs.step walk) hk fun other hm => ?_
    rcases List.mem_cons.mp hm with he | hm
    · cases he
      exact .inr ((hk walk List.mem_cons_self).step hs)
    · exact .inl (List.mem_cons_of_mem _ hm)
  · have hlater : ∀ {next : List Removal} {walk},
        Rest.walk walk ∈ Rest.removals next :: later → Rest.walk walk ∈ later :=
      fun hm => (List.mem_cons.mp hm).resolve_left (by simp)
    cases removal with
    | one slot =>
      exact of_follows (hone slot rfl) (hs.release _ _) hk fun walk hm =>
        .inl (List.mem_cons_of_mem _ (hlater hm))
    | all slot =>
      exact of_follows (hshows.step_all ht) (.refl hs) hk fun walk hm =>
        .inl (List.mem_cons_of_mem _ (hlater hm))

theorem step (h : run.Kept number) : run.step.Kept number := by
  obtain ⟨forest, rests, hshows, hs, hk⟩ := h
  cases ht : run.touch number with
  | nothing => exact ⟨forest, rests, hshows.step_nothing ht, hs, hk⟩
  | begin => exact stepCall hshows hs hk (.inl ht)
  | breaks => exact stepCall hshows hs hk (.inr ht)
  | goOn => exact stepGoOn hshows hs hk ht
  | finish =>
    obtain ⟨later, ⟨walk, rfl, -, hstep⟩ | ⟨rfl, hstep⟩⟩ := hshows.step_finish ht
    · exact of_follows hstep (hs.addSelectors _ _) hk fun walk hm =>
        .inl (List.mem_cons_of_mem _ hm)
    · exact of_follows hstep (.refl hs) hk fun walk hm => .inl (List.mem_cons_of_mem _ hm)

end Run.Kept

/-! ## Runs -/

/-- The runs that lead on from one where a sheet is empty and untouched. Any
calls may be made between runs and by any listener or observer, on this sheet
too, and any of them may fail. -/
inductive Reachable (number : Nat) : Run → Prop
  | start {run : Run} {sheet : Sheet} : run.world.sheet? number = some sheet →
      sheet.forest = .ofContainer .empty → run.rests number = [] → Reachable number run
  | call {run : Run} (call : Call) : Reachable number run → run.stack = [] →
      Reachable number (run.world.settle.start call)
  | nested {run : Run} (call : Call) : Reachable number run → run.listening = true →
      Reachable number { run with stack := .script [call] :: run.stack }
  | step {run : Run} : Reachable number run → Reachable number run.step

namespace Reachable

variable {number : Nat} {run : Run}

theorem kept (h : Reachable number run) : run.Kept number := by
  induction h with
  | start hsheet hempty hrests =>
    refine ⟨.ofContainer .empty, [], ⟨?_, hrests⟩, .empty, fun _ hm => absurd hm List.not_mem_nil⟩
    rw [World.forest?, hsheet, ← hempty]
    rfl
  | call call _ hstack ih =>
    obtain ⟨forest, rests, hs, hsound, -⟩ := ih
    refine ⟨.ofContainer forest.root, [], ⟨?_, rfl⟩, hsound.settle,
      fun _ hm => absurd hm List.not_mem_nil⟩
    show (World.settle _).forest? number = _
    rw [World.forest?_settle, hs.forest]
    rfl
  | nested call _ _ ih =>
    obtain ⟨forest, rests, hs, hkept⟩ := ih
    exact ⟨forest, rests, ⟨hs.forest, hs.rests⟩, hkept⟩
  | step _ ih => exact ih.step

theorem steps (h : Reachable number run) (fuel : Nat) : Reachable number (run.steps fuel) := by
  induction fuel generalizing run with
  | zero => exact h
  | succ fuel ih =>
    rw [Run.steps]
    split
    · exact h
    · exact ih h.step

end Reachable

/-- **Every look-up finds its kind.** In a tree of containers after any calls, and
in a sheet at any moment of any run, each container has one entry for a key,
under the key of the node it stores; a key that starts with `n` holds a block,
one that starts with `a` an at-rule. So a registering walk has a container for
each of its tasks and a block for each selector that it gives, and an undoing
walk finds a body in each at-rule and a block for each selector that it takes. -/
theorem typed_and_gets :
    (∀ session : RuleSession.Session, RuleSession.Reachable session →
      (∀ address container, session.forest.containerAt? address = some container →
        container.Typed) ∧
      ∀ (rules : List Bytes) (styles : Layer),
        let place := session.forest.place ⟨none, rules.map Key.atRule⟩
        (session.forest.container? place).isSome →
          (∀ steps, let run := (Walk.start place styles.compile).run session.forest steps
            run.2.1.Gets run.1) ∧
          (session.forest.replay (some place) Selector.root .nothing styles.compile).Gets
            session.forest) ∧
    ∀ (number : Nat) (run : Run), Reachable number run →
      ∃ sheet, run.world.sheet? number = some sheet ∧
      (∀ address container, sheet.forest.containerAt? address = some container →
        container.Typed) ∧
      (∀ walk, .walk number walk ∈ run.stack → walk.Gets sheet.forest) ∧
      ∀ styles : Layer,
        (sheet.forest.replay (some sheet.top) Selector.root .nothing styles.compile).Gets
          sheet.forest := by
  refine ⟨fun session h => ⟨fun address container => h.sound.typed, ?_⟩, fun number run h => ?_⟩
  · intro rules styles place hc
    rw [Forest.container?_place] at hc
    have hopens := h.sound.opens_place hc
    refine ⟨fun steps => ?_, (Found.Kept.replay h.sound (.nothing _) _).gets h.sound⟩
    have hstart : (Walk.start place styles.compile).Kept session.forest := .start hopens _
    exact (hstart.run h.sound steps).gets (h.sound.run _ steps).sound
  · obtain ⟨forest, rests, hshows, hs, hkept⟩ := h.kept
    obtain ⟨sheet, hsheet, rfl⟩ := Option.map_eq_some_iff.mp hshows.forest
    refine ⟨sheet, hsheet, fun address container => hs.typed, fun walk hm => ?_, fun styles => ?_⟩
    · refine (hkept walk ?_).gets hs
      rw [← hshows.rests]
      exact List.mem_filterMap.mpr ⟨_, hm, if_pos rfl⟩
    · exact (Found.Kept.replay hs (.nothing _) _).gets hs

/-- A block that stores another text than the one that is asked for, in an
at-rule, and a walk that waits for a listener. -/
theorem typed_and_gets_shared :
    let media := ascii "@media print"
    let session := ((RuleSession.Session.initial.call [] (.add (.atRule media))).1.call [media]
      (.register fore)).1
    let run := (watched.start (.register 0 [(media, .nested back)])).steps 2
    (∃ container, session.forest.containerAt? ⟨none, [Key.atRule media]⟩ = some container ∧
      container.Typed ∧
      (session.forest.replay (some (session.forest.place ⟨none, [Key.atRule media]⟩))
        Selector.root .nothing back.compile).Gets session.forest) ∧
    ∃ sheet walk, run.world.sheet? 0 = some sheet ∧ .walk 0 walk ∈ run.stack ∧
      walk.Gets sheet.forest := by
  intro media session run
  have hsession : RuleSession.Reachable session := .call [media] _ (.call [] _ .initial)
  have hopen : (session.forest.containerAt? ⟨none, [Key.atRule media]⟩).isSome := by
    decide +kernel
  obtain ⟨container, hc⟩ := Option.isSome_iff_exists.mp hopen
  obtain ⟨htyped, hgets⟩ := typed_and_gets.1 session hsession
  have hidle : Reachable 0 ⟨watched, [], [], .nothing, none⟩ := .start rfl rfl rfl
  have hrun : Reachable 0 run := (hidle.call (.register 0 [(media, .nested back)]) rfl).steps 2
  obtain ⟨sheet, hsheet, -, hwalks, -⟩ := typed_and_gets.2 0 run hrun
  have hwalk : ∃ walk, .walk 0 walk ∈ run.stack := by
    have hany : (run.stack.any fun | .walk 0 _ => true | _ => false) = true := by decide +kernel
    obtain ⟨frame, hm, hf⟩ := List.any_eq_true.mp hany
    split at hf
    · exact ⟨_, hm⟩
    · cases hf
  obtain ⟨walk, hm⟩ := hwalk
  have hplace : (session.forest.container?
      (session.forest.place ⟨none, [Key.atRule media]⟩)).isSome := by
    rw [Forest.container?, Forest.locate_place]
    exact hopen
  exact ⟨⟨container, hc, htyped _ _ hc, (hgets [media] back hplace).2⟩,
    sheet, walk, hsheet, hm, hwalks walk hm⟩

end StyleRegistry.SheetSession
