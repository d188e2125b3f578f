import Mathlib.Data.List.Infix
import StyleRegistry.Cache.Session
import StyleRegistry.Proofs.Cache.Counts

/-! # Traces of an observed cache

A trace is a run of a cache together with what was done to it and what its
listeners were told. The listeners of a trace need not keep to their scripts:
one that is being told of a change may make any calls before it returns, each
in view of all that happened before, and an exception may end any of the calls
that are under way and be caught by the listener that made the outermost of
these, or by nobody. What holds of all traces so holds of listeners of every
kind, at every moment. -/
namespace StyleRegistry.CacheSession

open Bytes (ascii)

/-! ## What is done and told -/

/-- An addition or a removal, by whoever, and whether the key was present. -/
inductive Act where
  | add (item : Item) (present : Bool)
  | remove (key : Bytes) (present : Bool)
  deriving DecidableEq, Repr

def Act.apply (cache : Cache Item) : Act → Cache Item
  | .add item _ => cache.acquire item
  | .remove key _ => cache.release key

/-- An emission as it starts, with the count of its item at that moment. -/
structure Emission where
  change : Change
  item : Item
  count : Nat
  deriving DecidableEq, Repr

namespace Run

variable {run : Run}

/-- What the next step does to the cache. Each reference that a clearing gives
back is a removal too. -/
def act? (run : Run) : Option Act :=
  match run.stack with
  | .script (.add item :: _) :: _ => some (.add item (run.state.cache.contains item.key))
  | .release key (_ + 1) :: _ => some (.remove key (run.state.cache.contains key))
  | _ => none

/-- The emission that starts here: no listener is told of the change yet. -/
def opening? (run : Run) : Option Emission :=
  match run.stack with
  | .emission change item 0 :: _ => some ⟨change, item, run.state.cache.count item.key⟩
  | _ => none

/-- What so many steps do to the cache, until the run is over. -/
def acts (run : Run) : Nat → List Act
  | 0 => []
  | fuel + 1 => if run.isDone then [] else run.act?.toList ++ run.step.acts fuel

/-- The emissions that so many steps start. -/
def openings (run : Run) : Nat → List Emission
  | 0 => []
  | fuel + 1 => if run.isDone then [] else run.step.opening?.toList ++ run.step.openings fuel

/-- A listener was called and has not returned. -/
def Listening (stack : List Frame) : Prop :=
  ∃ change item next rest, stack = .emission change item (next + 1) :: rest

end Run

/-! ## Traces -/

inductive Trace : Run → List Act → List Emission → Prop
  | start : Trace ⟨.initial, [], [], .nothing, none⟩ [] []
  /-- The next call is made when the one before is over. -/
  | call {run : Run} {acts : List Act} {emissions : List Emission} (call : Call) :
    Trace run acts emissions → run.stack = [] → Trace (run.state.start call) acts emissions
  /-- A listener makes a call before it returns. -/
  | nested {run : Run} {acts : List Act} {emissions : List Emission} (call : Call) :
    Trace run acts emissions → Run.Listening run.stack →
      Trace { run with stack := .script [call] :: run.stack } acts emissions
  | step {run : Run} {acts : List Act} {emissions : List Emission} :
    Trace run acts emissions →
      Trace run.step (acts ++ run.act?.toList) (emissions ++ run.step.opening?.toList)
  /-- An exception ends what is under way, up to a listener that catches it. -/
  | unwind {run : Run} {acts : List Act} {emissions : List Emission} {rest : List Frame} :
    Trace run acts emissions → rest <:+ run.stack → rest = [] ∨ Run.Listening rest →
      Trace { run with stack := rest } acts emissions

/-! ## One step -/

/-- What an act makes known. -/
def Act.emission? (cache : Cache Item) : Act → Option Emission
  | .add item _ =>
    if cache.contains item.key then none
    else some ⟨.add, item, (cache.acquire item).count item.key⟩
  | .remove key _ =>
    (cache.evicted? key).map fun item => ⟨.remove, item, (cache.release key).count item.key⟩

def Frame.opens : Frame → Bool
  | .emission _ _ 0 => true
  | _ => false

/-- Below the top of a stack no emission is about to start. -/
def Quiet (stack : List Frame) : Prop := ∀ frame ∈ stack.tail, frame.opens = false

theorem quiet_of_forall {stack : List Frame} (h : ∀ frame ∈ stack, frame.opens = false) :
    Quiet stack := fun frame hm => h frame (List.mem_of_mem_tail hm)

theorem Quiet.append {frames rest : List Frame} (hf : Quiet frames)
    (hr : ∀ frame ∈ rest, frame.opens = false) : Quiet (frames ++ rest) := by
  intro frame hm
  cases frames with
  | nil => exact hr frame (List.mem_of_mem_tail hm)
  | cons first frames =>
    rcases List.mem_append.mp hm with hm | hm
    · exact hf frame hm
    · exact hr frame hm

theorem Quiet.suffix {stack rest : List Frame} (h : Quiet stack) (hs : rest <:+ stack) :
    Quiet rest := by
  obtain ⟨dropped, rfl⟩ := hs
  cases dropped with
  | nil => exact h
  | cons frame dropped =>
    exact quiet_of_forall fun other hm => h other (List.mem_append_right dropped hm)

theorem Quiet.nested {stack : List Frame} (h : Quiet stack) (hl : Run.Listening stack)
    (call : Call) : Quiet (.script [call] :: stack) := by
  obtain ⟨change, item, next, rest, rfl⟩ := hl
  intro frame hm
  rcases List.mem_cons.mp hm with rfl | hm
  · rfl
  · exact h frame hm

namespace State

theorem quiet_tell (change : Change) (item : Option Item) : Quiet (tell change item) := by
  cases item <;> simp [tell, Quiet]

/-- A call starts at most one emission, before all else that it does. -/
theorem quiet_call {state after : State} {call : Call} {frames : List Frame}
    (h : state.call call = .ok (after, frames)) : Quiet frames := by
  cases call with
  | add item =>
    obtain ⟨-, rfl⟩ := Prod.mk.inj (Except.ok.inj h)
    exact (quiet_tell _ _).append (by simp [Frame.opens])
  | fail message => cases h
  | _ =>
    obtain ⟨-, rfl⟩ := Prod.mk.inj (Except.ok.inj h)
    simp [Quiet, Frame.opens]

/-- Only the call that is made to throw throws. -/
theorem eq_fail {state : State} {call : Call} {message : Bytes}
    (h : state.call call = .error message) : call = .fail message := by
  cases call with
  | fail thrown =>
    obtain rfl := Except.error.inj h
    rfl
  | _ => cases h

end State

namespace Run

variable {run : Run}

theorem cache_step (run : Run) : run.step.state.cache =
    (run.act?.map (Act.apply run.state.cache)).getD run.state.cache := by
  obtain ⟨state, stack, log, reply, failure⟩ := run
  match stack with
  | [] => rfl
  | .script [] :: rest => rfl
  | .script (call :: calls) :: rest => cases call <;> rfl
  | .emission change item next :: rest =>
    simp only [step, advance, visit, act?, Option.map_none, Option.getD_none]
    split
    · rfl
    · split <;> rfl
  | .release key 0 :: rest => rfl
  | .release key (times + 1) :: rest => rfl
  | .clearing [] :: rest => rfl
  | .clearing (key :: keys) :: rest => rfl
  | .answer reply' :: rest => rfl

theorem act?_eq_some {act : Act} (h : run.act? = some act) :
    (∃ item, act = .add item (run.state.cache.contains item.key)) ∨
      ∃ key, act = .remove key (run.state.cache.contains key) := by
  unfold act? at h
  split at h
  · exact .inl ⟨_, (Option.some.inj h).symm⟩
  · exact .inr ⟨_, (Option.some.inj h).symm⟩
  · cases h

theorem opening?_of_quiet (h : ∀ frame ∈ run.stack, frame.opens = false) :
    run.opening? = none := by
  unfold opening?
  split
  · rename_i hs
    have ho := h _ (hs ▸ List.mem_cons_self)
    cases ho
  · rfl

/-- An emission starts at the act that it tells of, and nowhere else. -/
theorem opening?_step (hq : Quiet run.stack) :
    run.step.opening? = run.act?.bind (Act.emission? run.state.cache) := by
  obtain ⟨state, stack, log, reply, failure⟩ := run
  match stack with
  | [] => rfl
  | .script [] :: rest => exact opening?_of_quiet hq
  | .script (call :: calls) :: rest =>
    cases call with
    | add item =>
      simp only [step, advance, State.call, act?, Option.bind_some, Act.emission?]
      split <;> rfl
    | _ => rfl
  | .emission change item next :: rest =>
    simp only [step, advance, visit, act?, Option.bind_none]
    split
    · exact opening?_of_quiet hq
    · split <;> rfl
  | .release key 0 :: rest => exact opening?_of_quiet hq
  | .release key (times + 1) :: rest =>
    simp only [step, advance, release, act?, Option.bind_some, Act.emission?]
    cases state.cache.evicted? key <;> rfl
  | .clearing [] :: rest => exact opening?_of_quiet hq
  | .clearing (key :: keys) :: rest => rfl
  | .answer reply' :: rest => exact opening?_of_quiet hq

/-! ## The stack -/

/-- What the next step throws. -/
def throws? (run : Run) : Option Bytes :=
  match run.stack with
  | .script (.fail message :: _) :: _ => some message
  | _ => none

theorem step_of_throws {message : Bytes} (h : run.throws? = some message) :
    (∃ calls rest, run.stack = .script (.fail message :: calls) :: rest) ∧
      run.step = { run with stack := [], failure := some message } := by
  unfold throws? at h
  split at h
  · rename_i thrown calls rest hs
    obtain rfl := Option.some.inj h
    refine ⟨⟨calls, rest, hs⟩, ?_⟩
    rw [step, hs]
    rfl
  · cases h

/-- A step that does not throw replaces the frame on top of the stack. -/
theorem step_of_not_throws {frame : Frame} {below : List Frame} (ht : run.throws? = none)
    (hs : run.stack = frame :: below) : run.step.failure = run.failure ∧
      ∃ frames, Quiet frames ∧ run.step.stack = frames ++ below := by
  obtain ⟨state, stack, log, reply, failure⟩ := run
  cases hs
  match frame with
  | .script (call :: calls) =>
    simp only [step, advance]
    split
    · rename_i after frames hcall
      refine ⟨rfl, frames ++ [.script calls], (State.quiet_call hcall).append ?_, by simp⟩
      simp [Frame.opens]
    · rename_i message hcall
      obtain rfl := State.eq_fail hcall
      cases ht
  | .emission change item next =>
    simp only [step, advance, visit]
    split
    · exact ⟨rfl, [], quiet_of_forall (by simp), rfl⟩
    · split
      · refine ⟨rfl, [.script _, .emission change item (next + 1)], ?_, rfl⟩
        simp [Quiet, Frame.opens]
      · refine ⟨rfl, [.emission change item (next + 1)], ?_, rfl⟩
        simp [Quiet]
  | .release key (times + 1) =>
    refine ⟨rfl, State.tell .remove (state.cache.evicted? key) ++ [.release key times],
      (State.quiet_tell _ _).append (by simp [Frame.opens]), ?_⟩
    simp [step, advance, release]
  | .clearing (key :: keys) =>
    refine ⟨rfl, [.release key _, .clearing keys], ?_, rfl⟩
    simp [Quiet, Frame.opens]
  | .script [] | .release _ 0 | .clearing [] | .answer _ =>
    exact ⟨rfl, [], quiet_of_forall (by simp), rfl⟩

/-- A step replaces the frame on top of the stack, unless it fails. -/
theorem stack_step {frame : Frame} {below : List Frame} (hs : run.stack = frame :: below) :
    (run.step.stack = [] ∧ run.step.failure.isSome) ∨
      ∃ frames, Quiet frames ∧ run.step.stack = frames ++ below := by
  cases ht : run.throws? with
  | some message =>
    rw [(step_of_throws ht).2]
    exact .inl ⟨rfl, rfl⟩
  | none => exact .inr (step_of_not_throws ht hs).2

theorem quiet_step (hq : Quiet run.stack) : Quiet run.step.stack := by
  cases hs : run.stack with
  | nil =>
    rw [step, hs]
    exact hq
  | cons frame below =>
    rw [hs] at hq
    rcases stack_step hs with ⟨hempty, -⟩ | ⟨frames, hframes, hstack⟩
    · rw [hempty]
      exact quiet_of_forall (by simp)
    · rw [hstack]
      exact hframes.append hq

end Run

/-! ## All steps -/

namespace Trace

variable {run : Run} {acts : List Act} {emissions : List Emission}

theorem quiet (h : Trace run acts emissions) : Quiet run.stack := by
  induction h with
  | start => exact quiet_of_forall (by simp)
  | call call _ _ _ => exact fun _ hm => absurd hm List.not_mem_nil
  | nested call _ hl ih => exact ih.nested hl call
  | step _ ih => exact Run.quiet_step ih
  | unwind _ hs _ ih => exact ih.suffix hs

/-- What holds at the start and is kept by every act, together with what it
makes known, holds at every moment of every trace. -/
theorem invariant (h : Trace run acts emissions)
    (holds : Cache Item → List Act → List Emission → Prop) (hstart : holds .empty [] [])
    (hadd : ∀ cache acts emissions item, holds cache acts emissions →
      let act := Act.add item (cache.contains item.key)
      holds (cache.acquire item) (acts ++ [act]) (emissions ++ (act.emission? cache).toList))
    (hremove : ∀ cache acts emissions key, holds cache acts emissions →
      let act := Act.remove key (cache.contains key)
      holds (cache.release key) (acts ++ [act]) (emissions ++ (act.emission? cache).toList)) :
    holds run.state.cache acts emissions := by
  induction h with
  | start => exact hstart
  | call _ _ _ ih => exact ih
  | nested _ _ _ ih => exact ih
  | unwind _ _ _ ih => exact ih
  | step ht ih =>
    rename_i run acts emissions
    rw [Run.opening?_step ht.quiet, Run.cache_step]
    cases ha : run.act? with
    | none => simpa using ih
    | some act =>
      rcases Run.act?_eq_some ha with ⟨item, rfl⟩ | ⟨key, rfl⟩
      · exact hadd _ _ _ item ih
      · exact hremove _ _ _ key ih

theorem steps (h : Trace run acts emissions) (fuel : Nat) :
    Trace (run.steps fuel) (acts ++ run.acts fuel) (emissions ++ run.openings fuel) := by
  induction fuel generalizing run acts emissions with
  | zero => simpa [Run.steps, Run.acts, Run.openings] using h
  | succ fuel ih =>
    rw [Run.steps, Run.acts, Run.openings]
    split
    · simpa using h
    · have hnext := ih h.step
      rwa [List.append_assoc, List.append_assoc] at hnext

/-- A call of a session, run to its end, goes on with the trace. -/
theorem session (h : Trace run acts emissions) (hs : run.stack = []) (call : Call) :
    let start := run.state.start call
    let last := { start.steps start.bound with stack := [] }
    Trace last (acts ++ start.acts start.bound) (emissions ++ start.openings start.bound) ∧
      last.state = (run.state.run call).1 := by
  intro start last
  have hlast := (h.call call hs).steps start.bound
  exact ⟨hlast.unwind (List.nil_suffix) (.inl rfl), rfl⟩

end Trace

/-- A listener that takes out what is added, adds another item and then fails. -/
def swapper : Callback Call :=
  ⟨ascii "swapper", some (ascii "add"), 1,
    [.remove (ascii "a"), .add ⟨ascii "b", ascii "2"⟩, .fail (ascii "stop")]⟩

end StyleRegistry.CacheSession
