import StyleRegistry.Proofs.Cache.Clearing

/-! # Every call returns or throws

A listener may make calls while it is told of a change, and these may start
emissions, clearings and scripts of their own before the first goes on. What is
begun is put on top of the stack, so it is over when the stack is what it was
before. Every step lowers the bound of the run and leaves what waits below the
top as it is, unless it throws. All that is ever begun therefore comes to its
end, the innermost first: it returns to what waits for it, or an exception ends
everything that is under way. -/
namespace StyleRegistry.CacheSession

open Bytes (ascii)

variable {run : Run} {frame : Frame} {above below : List Frame}

namespace Run

/-! ## What is begun comes to its end -/

/-- Something is on top of what waits below. -/
def Busy (run : Run) (below : List Frame) : Prop :=
  ∃ frame above, run.stack = frame :: above ++ below

/-- What is on top of `below` is over after so many steps and not before: it
has returned to what waits below, or the last step has thrown. -/
structure Finishes (run : Run) (below : List Frame) (steps : Nat) : Prop where
  busy : ∀ earlier < steps, (run.steps earlier).Busy below
  ended : ((run.steps steps).stack = below ∧ (run.steps steps).failure = run.failure) ∨
    ∃ last message, steps = last + 1 ∧ (run.steps last).throws? = some message ∧
      (run.steps steps).stack = [] ∧ (run.steps steps).failure = some message

theorem Busy.not_done (h : run.Busy below) : run.isDone = false := by
  obtain ⟨frame, above, hs⟩ := h
  rw [isDone, hs]
  rfl

/-- What is finished after the next step is finished one step later. -/
theorem Finishes.step {steps : Nat} (h : run.step.Finishes below steps) (hb : run.Busy below)
    (hf : run.step.failure = run.failure) : run.Finishes below (steps + 1) := by
  have hnext := steps_of_not_done hb.not_done
  refine ⟨fun earlier hlt => ?_, ?_⟩
  · cases earlier with
    | zero => exact hb
    | succ earlier =>
      rw [hnext]
      exact h.busy earlier (Nat.lt_of_succ_lt_succ hlt)
  · rcases h.ended with ⟨hs, hfailure⟩ | ⟨last, message, rfl, ht, hs, hfailure⟩
    · rw [hnext]
      exact .inl ⟨hs, hfailure.trans hf⟩
    · refine .inr ⟨last + 1, message, rfl, ?_, ?_, ?_⟩
      · rwa [hnext]
      · rwa [hnext]
      · rwa [hnext]

/-- **What is begun comes to its end**, within the bound of the run. -/
theorem exists_finishes (hs : run.stack = above ++ below) :
    ∃ steps ≤ run.bound, run.Finishes below steps := by
  induction hb : run.bound using Nat.strong_induction_on generalizing run above with
  | _ bound ih =>
  cases above with
  | nil => exact ⟨0, Nat.zero_le _, fun _ h => absurd h (Nat.not_lt_zero _), .inl ⟨hs, rfl⟩⟩
  | cons frame above =>
    have hbusy : run.Busy below := ⟨frame, above, hs⟩
    have hlt : run.step.bound < bound := hb ▸ bound_step hbusy.not_done
    cases ht : run.throws? with
    | some message =>
      have hone : run.steps 1 = run.step := steps_of_not_done hbusy.not_done 0
      have hstep := (step_of_throws ht).2
      refine ⟨1, by omega, fun earlier h => ?_, .inr ⟨0, message, rfl, ht, ?_, ?_⟩⟩
      · obtain rfl : earlier = 0 := by omega
        exact hbusy
      · rw [hone, hstep]
      · rw [hone, hstep]
    | none =>
      obtain ⟨hf, frames, -, hframes⟩ := step_of_not_throws ht hs
      have hframes : run.step.stack = (frames ++ above) ++ below :=
        hframes.trans (List.append_assoc ..).symm
      obtain ⟨steps, hle, hfinish⟩ := ih _ hlt hframes rfl
      exact ⟨steps + 1, by omega, hfinish.step hbusy hf⟩

theorem not_done_of_throws {message : Bytes} (h : run.throws? = some message) :
    run.isDone = false := by
  obtain ⟨⟨calls, rest, hs⟩, -⟩ := step_of_throws h
  rw [isDone, hs]
  rfl

/-- A run ends at one moment, and is over from then on. -/
theorem exists_length (run : Run) : ∃ length ≤ run.bound,
    ∀ steps, (run.steps steps).isDone = true ↔ length ≤ steps := by
  obtain ⟨length, hle, h⟩ := exists_finishes (List.append_nil run.stack).symm
  have hdone : (run.steps length).isDone = true := by
    rcases h.ended with ⟨hs, -⟩ | ⟨-, -, -, -, hs, -⟩
    · rw [isDone, hs]
      rfl
    · rw [isDone, hs]
      rfl
  refine ⟨length, hle, fun steps => ⟨fun hd => Nat.le_of_not_lt fun hlt => ?_, fun hle => ?_⟩⟩
  · rw [(h.busy steps hlt).not_done] at hd
    cases hd
  · obtain ⟨more, rfl⟩ := Nat.exists_eq_add_of_le hle
    rwa [steps_add, steps_of_isDone hdone]

section Length

variable {length : Nat} (hlength : ∀ steps, (run.steps steps).isDone = true ↔ length ≤ steps)
include hlength

theorem steps_of_length_le {steps : Nat} (h : length ≤ steps) :
    run.steps steps = run.steps length := by
  obtain ⟨more, rfl⟩ := Nat.exists_eq_add_of_le h
  rw [steps_add, steps_of_isDone ((hlength length).mpr (Nat.le_refl _))]

theorem lt_length_of_not_done {steps : Nat} (h : (run.steps steps).isDone = false) :
    steps < length := by
  refine Nat.lt_of_not_le fun hle => ?_
  rw [(hlength steps).mpr hle] at h
  cases h

/-- What throws takes the last step. -/
theorem length_of_throws {last : Nat} {message : Bytes}
    (h : (run.steps last).throws? = some message) :
    length = last + 1 ∧ (run.steps length).failure = some message := by
  have hlt := lt_length_of_not_done hlength (not_done_of_throws h)
  have hstep : run.steps (last + 1) = { run.steps last with stack := [], failure := some message } := by
    rw [steps_succ, (step_of_throws h).2]
  have hle : length ≤ last + 1 := (hlength _).mp (by rw [hstep]; rfl)
  obtain rfl : length = last + 1 := Nat.le_antisymm hle hlt
  exact ⟨rfl, by rw [hstep]⟩

/-- Whatever is begun is finished before the run is over. -/
theorem finishes_within (steps : Nat) (hs : (run.steps steps).stack = above ++ below) :
    ∃ more ≤ length - steps, (run.steps steps).Finishes below more := by
  obtain ⟨more, -, h⟩ := exists_finishes hs
  refine ⟨more, ?_, h⟩
  cases more with
  | zero => exact Nat.zero_le _
  | succ more =>
    have hbusy := (h.busy more (Nat.lt_succ_self _)).not_done
    rw [← steps_add] at hbusy
    have hlt := lt_length_of_not_done hlength hbusy
    omega

end Length
end Run

/-! ## Sessions -/

namespace State

variable {state after : State} {call : Call} {frames : List Frame}

/-- The last thing that a call does is to answer. -/
theorem exists_answer (h : state.call call = .ok (after, frames)) :
    ∃ begun reply, frames = begun ++ [.answer reply] := by
  cases call with
  | add item =>
    obtain ⟨-, rfl⟩ := Prod.mk.inj (Except.ok.inj h)
    exact ⟨_, _, rfl⟩
  | remove key =>
    obtain ⟨-, rfl⟩ := Prod.mk.inj (Except.ok.inj h)
    exact ⟨[.release key 1], .nothing, rfl⟩
  | clear =>
    obtain ⟨-, rfl⟩ := Prod.mk.inj (Except.ok.inj h)
    exact ⟨[.clearing state.cache.keys], .nothing, rfl⟩
  | count key | find key | listen callback | unlisten id =>
    obtain ⟨-, rfl⟩ := Prod.mk.inj (Except.ok.inj h)
    exact ⟨[], _, rfl⟩
  | fail message => cases h

/-- A call that is begun answers in the end, as was laid down when it was made,
or something throws before. -/
theorem answers_or_throws {begun : List Frame} {reply : Reply}
    (h : state.call call = .ok (after, begun ++ [.answer reply])) :
    (∃ steps, ((state.start call).steps steps).isDone = true ∧
      ((state.start call).steps steps).failure = none ∧
      ((state.start call).steps steps).reply = reply) ∨
    ∃ last message, ((state.start call).steps last).throws? = some message := by
  let start := state.start call
  have hstep : start.step =
      ⟨after, begun ++ [.answer reply, .script []], [], .nothing, none⟩ := by
    simp [start, State.start, Run.step, Run.advance, h]
  obtain ⟨steps, -, hfinish⟩ := Run.exists_finishes (congrArg Run.stack hstep)
  have hfirst (steps : Nat) : start.steps (steps + 1) = start.step.steps steps := rfl
  rcases hfinish.ended with ⟨hs, hf⟩ | ⟨last, message, -, ht, -⟩
  · have hlast : start.steps (steps + 3) =
        { start.step.steps steps with stack := [], reply } := by
      rw [Run.steps_succ, Run.steps_succ, hfirst, Run.step, Run.step, hs]
      rfl
    refine .inl ⟨steps + 3, ?_, ?_, ?_⟩
    · show (start.steps (steps + 3)).isDone = true
      rw [hlast]
      rfl
    · show (start.steps (steps + 3)).failure = none
      rw [hlast, hf, hstep]
    · show (start.steps (steps + 3)).reply = reply
      rw [hlast]
  · exact .inr ⟨last + 1, message, ht⟩

/-- **Every step of a session ends.** Whatever the cache holds and whoever
listens to it, with scripts of any calls nested to any depth, a call is over
after a number of steps, and not before. At each moment until then, whatever is
on top of the stack comes to its end within the steps that are left: it returns
to what waits below, which is as it was, or something throws. The outcome is
that of the whole run, with the answer laid down when the call was made, or with
what the last step threw. -/
theorem run_ends (state : State) (call : Call) :
    let start := state.start call
    ∃ length ≤ start.bound,
      (∀ steps, (start.steps steps).isDone = true ↔ length ≤ steps) ∧
      (∀ steps above below, (start.steps steps).stack = above ++ below →
        ∃ more ≤ length - steps, (start.steps steps).Finishes below more) ∧
      (state.run call).1 = (start.steps length).state ∧
      (state.run call).2.log = (start.steps length).log ∧
      ((∃ after begun reply, state.call call = .ok (after, begun ++ [.answer reply]) ∧
          (state.run call).2.result = .ok reply) ∨
        ∃ last message, length = last + 1 ∧ (start.steps last).throws? = some message ∧
          (state.run call).2.result = .error message) := by
  intro start
  obtain ⟨length, hle, hlength⟩ := start.exists_length
  have hlast : start.steps start.bound = start.steps length :=
    Run.steps_of_length_le hlength hle
  have hthrown {last : Nat} {message : Bytes} (ht : (start.steps last).throws? = some message) :
      length = last + 1 ∧ (state.run call).2.result = .error message := by
    obtain ⟨he, hf⟩ := Run.length_of_throws hlength ht
    refine ⟨he, ?_⟩
    simp only [run, show state.start call = start from rfl, hlast, hf]
  refine ⟨length, hle, hlength, fun steps _ _ hs => Run.finishes_within hlength steps hs,
    congrArg Run.state hlast, congrArg Run.log hlast, ?_⟩
  cases hc : state.call call with
  | error message =>
    obtain rfl := eq_fail hc
    have ht : (start.steps 0).throws? = some message := rfl
    obtain ⟨he, hr⟩ := hthrown ht
    exact .inr ⟨0, message, he, ht, hr⟩
  | ok result =>
    obtain ⟨after, frames⟩ := result
    obtain ⟨begun, reply, rfl⟩ := exists_answer hc
    rcases answers_or_throws hc with ⟨steps, hdone, hf, hr⟩ | ⟨last, message, ht⟩
    · have hsame : start.steps start.bound = start.steps steps :=
        hlast.trans (Run.steps_of_length_le hlength ((hlength steps).mp hdone)).symm
      refine .inl ⟨after, begun, reply, rfl, ?_⟩
      simp only [run, show state.start call = start from rfl, hsame]
      rw [show (start.steps steps).failure = none from hf,
        show (start.steps steps).reply = reply from hr]
    · obtain ⟨he, hr⟩ := hthrown ht
      exact .inr ⟨last, message, he, ht, hr⟩

/-- A listener that lets another one join and clears the cache, twice. The other
one adds an item when it is told of a removal. -/
def sower : Callback Call :=
  ⟨ascii "sower", none, 2,
    [.listen ⟨ascii "seed", some (ascii "remove"), 1, [.add ⟨ascii "b", ascii "2"⟩]⟩, .clear]⟩

theorem run_ends_of_sower :
    let state : State := ⟨.empty, Subscribers.empty.add sower⟩
    let call := Call.add ⟨ascii "a", ascii "1"⟩
    (state.run call).2.result = .ok (.payload (some (ascii "1"))) ∧
      (state.run call).2.log.map (fun entry => (entry.name, entry.change, entry.item.key)) =
        [(ascii "sower", .add, ascii "a"), (ascii "sower", .remove, ascii "a"),
          (ascii "seed", .remove, ascii "a"), (ascii "sower", .add, ascii "b"),
          (ascii "seed", .add, ascii "b"), (ascii "seed", .add, ascii "b"),
          (ascii "seed", .remove, ascii "a"), (ascii "seed", .add, ascii "a"),
          (ascii "seed", .add, ascii "a")] ∧
      (state.run call).1.cache.entries.map (fun entry => (entry.key, entry.count)) =
        [(ascii "b", 2)] := by
  intro state call
  obtain ⟨length, -, hlength, -, hstate, hlog, houtcome⟩ := run_ends state call
  have hdone : ((state.start call).steps 60).isDone = true := by decide +kernel
  have hsame := Run.steps_of_length_le hlength ((hlength 60).mp hdone)
  rw [← hsame] at hstate hlog
  refine ⟨?_, ?_, ?_⟩
  · rcases houtcome with ⟨after, begun, reply, hc, hr⟩ | ⟨last, message, rfl, ht, -⟩
    · obtain ⟨-, hframes⟩ := Prod.mk.inj (Except.ok.inj hc)
      obtain ⟨-, hlast⟩ := List.append_inj' hframes rfl
      rw [hr, ← Frame.answer.inj (List.head_eq_of_cons_eq hlast)]
      decide
    · have hnone : ((state.start call).steps 60).failure = none := by decide +kernel
      rw [hsame, (Run.length_of_throws hlength ht).2] at hnone
      cases hnone
  · rw [hlog]
    decide +kernel
  · rw [hstate]
    decide +kernel

end State
end StyleRegistry.CacheSession
