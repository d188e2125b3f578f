import StyleRegistry.Proofs.Cache.Trace
import StyleRegistry.Proofs.Subscribers

/-! # Who is told of a change

An emission is a round over the cache's listeners: its frame stays on the
stack, at the same place, until nobody is left to call, and what happens above
it, other emissions included, is what the listener that was called last does
before it returns. The round sees the list of listeners as others change it,
by joining and leaving, so its invariant is the one of rounds over subscribers
that come and go. -/
namespace StyleRegistry.CacheSession

open Bytes (ascii)

variable {change : Change} {item : Item} {rest : List Frame} {first run : Run}
  {next : Nat} {calls missed : List Nat}

/-! ## The list of listeners -/

namespace Run

/-- The listener that the next step adds to the list. -/
def joins? (run : Run) : Option (Callback Call) :=
  match run.stack with
  | .script (.listen callback :: _) :: _ => some callback
  | _ => none

/-- The listener that the next step takes out of the list, if it is there. -/
def leaves? (run : Run) : Option Nat :=
  match run.stack with
  | .script (.unlisten id :: _) :: _ => some id
  | _ => none

/-- The listener that the next step calls, with what it notes. -/
def called? (run : Run) : Option (Nat × LogEntry) :=
  match run.stack with
  | .emission change item next :: _ =>
    run.state.listeners.present[next]?.map fun listener =>
      (listener.1, run.state.logEntry listener.2.name change item)
  | _ => none

/-- A step lets one listener join, lets one leave, or leaves the list as it is
but for the firings that are left. -/
theorem listeners_step (run : Run) :
    (∃ callback, run.joins? = some callback ∧ run.leaves? = none ∧
      run.step.state.listeners = run.state.listeners.add callback) ∨
    (∃ id, run.leaves? = some id ∧ run.step.state.listeners = run.state.listeners.remove id) ∨
    (run.joins? = none ∧ run.leaves? = none ∧
      run.step.state.listeners.ids = run.state.listeners.ids ∧
      run.step.state.listeners.issued = run.state.listeners.issued) := by
  obtain ⟨state, stack, log, reply, failure⟩ := run
  match stack with
  | .script (.listen callback :: calls) :: rest => exact .inl ⟨callback, rfl, rfl, rfl⟩
  | .script (.unlisten id :: calls) :: rest => exact .inr (.inl ⟨id, rfl, rfl⟩)
  | .emission change item next :: rest =>
    refine .inr (.inr ⟨rfl, rfl, ?_⟩)
    simp only [step, advance, visit]
    split
    · exact ⟨rfl, rfl⟩
    · split
      · exact ⟨Subscribers.ids_set .., rfl⟩
      · exact ⟨rfl, rfl⟩
  | [] | .script [] :: _ | .script (.add _ :: _) :: _ | .script (.remove _ :: _) :: _
  | .script (.count _ :: _) :: _ | .script (.find _ :: _) :: _ | .script (.clear :: _) :: _
  | .script (.fail _ :: _) :: _ | .release _ 0 :: _ | .release _ (_ + 1) :: _ | .clearing [] :: _
  | .clearing (_ :: _) :: _ | .answer _ :: _ => exact .inr (.inr ⟨rfl, rfl, rfl, rfl⟩)

theorem sound_listeners_step (h : run.state.listeners.Sound) : run.step.state.listeners.Sound := by
  rcases run.listeners_step with ⟨callback, -, -, hl⟩ | ⟨id, -, hl⟩ | ⟨-, -, hids, hissued⟩
  · rw [hl]
    exact h.add callback
  · rw [hl]
    exact h.remove id
  · exact h.of_ids hids hissued

/-- The log tells of the calls and of nothing else. -/
theorem log_step (run : Run) : run.step.log = run.log ++ (run.called?.map (·.2)).toList := by
  obtain ⟨state, stack, log, reply, failure⟩ := run
  match stack with
  | .emission change item next :: rest =>
    simp only [step, advance, visit, called?, Subscribers.get?]
    cases state.listeners.present[next]? with
    | none => simp
    | some listener =>
      simp only [Option.map_some]
      split <;> rfl
  | .script (call :: calls) :: rest =>
    cases call <;> simp [step, advance, called?, State.call]
  | [] | .script [] :: _ | .release _ 0 :: _ | .release _ (_ + 1) :: _ | .clearing [] :: _
  | .clearing (_ :: _) :: _ | .answer _ :: _ => simp [step, advance, called?, release]

end Run

theorem Trace.sound_listeners {acts : List Act} {emissions : List Emission}
    (h : Trace run acts emissions) : run.state.listeners.Sound := by
  induction h with
  | start => exact Subscribers.sound_empty
  | call _ _ _ ih => exact ih
  | nested _ _ _ ih => exact ih
  | step _ ih => exact Run.sound_listeners_step ih
  | unwind _ _ _ ih => exact ih

/-! ## One emission -/

/-- An emission from its start on, with the turn that is next, the ids of the
listeners it has called and of those it has passed over. -/
inductive Telling (change : Change) (item : Item) (rest : List Frame) (first : Run) :
    Run → Nat → List Nat → List Nat → Prop
  | start :
    first.stack = .emission change item 0 :: rest → Telling change item rest first first 0 [] []
  | visit {run : Run} {next : Nat} {calls missed : List Nat} {id : Nat} {note : LogEntry} :
    Telling change item rest first run next calls missed →
      run.stack = .emission change item next :: rest → run.called? = some (id, note) →
      Telling change item rest first run.step (next + 1) (calls ++ [id]) missed
  /-- The listener that was called last has not returned. -/
  | inside {run : Run} {next : Nat} {calls missed : List Nat} {frame : Frame} {above : List Frame} :
    Telling change item rest first run next calls missed →
      run.stack = frame :: above ++ .emission change item next :: rest →
      Telling change item rest first run.step next calls
        (missed ++ (run.leaves?.bind (run.state.listeners.passedOver · next)).toList)
  /-- It makes a call, or one does that it made the cache call. -/
  | nested {run : Run} {next : Nat} {calls missed : List Nat} (call : Call) :
    Telling change item rest first run next calls missed → Run.Listening run.stack →
      Telling change item rest first { run with stack := .script [call] :: run.stack }
        next calls missed
  /-- It, or one that it made the cache call, catches an exception. -/
  | unwind {run : Run} {next : Nat} {calls missed : List Nat} {dropped kept : List Frame} :
    Telling change item rest first run next calls missed →
      run.stack = dropped ++ kept → Run.Listening kept →
      .emission change item next :: rest <:+ kept →
      Telling change item rest first { run with stack := kept } next calls missed

namespace Telling

/-- **An emission is a round.** -/
theorem round (h : Telling change item rest first run next calls missed)
    (hsound : first.state.listeners.Sound) : run.state.listeners.Sound ∧
      Subscribers.Round first.state.listeners.ids run.state.listeners next calls missed := by
  induction h with
  | start _ => exact ⟨hsound, .start hsound⟩
  | nested _ _ _ ih => exact ih
  | unwind _ _ _ _ ih => exact ih
  | visit _ hs hc ih =>
    rename_i run next calls missed id note _
    obtain ⟨hlisteners, hround⟩ := ih
    have hid : run.state.listeners.ids[next]? = some id := by
      simp only [Run.called?, hs] at hc
      obtain ⟨listener, hl, he⟩ := Option.map_eq_some_iff.mp hc
      rw [Subscribers.ids, List.getElem?_map, hl, ← (Prod.mk.inj he).1]
      rfl
    have hvisit := hround.visit hlisteners hid
    refine ⟨Run.sound_listeners_step hlisteners, ?_⟩
    rcases run.listeners_step with ⟨callback, -, -, hl⟩ | ⟨gone, hleaves, -⟩ |
      ⟨-, -, hids, hissued⟩
    · rw [hl]
      exact hvisit.add callback
    · simp [Run.leaves?, hs] at hleaves
    · exact hvisit.of_ids hids hissued
  | inside _ _ ih =>
    rename_i run next calls missed frame above _ _
    obtain ⟨hlisteners, hround⟩ := ih
    refine ⟨Run.sound_listeners_step hlisteners, ?_⟩
    rcases run.listeners_step with ⟨callback, -, hleaves, hl⟩ | ⟨gone, hleaves, hl⟩ |
      ⟨-, hleaves, hids, hissued⟩
    · rw [hl, hleaves]
      simpa using hround.add callback
    · rw [hl, hleaves]
      exact hround.remove hlisteners gone
    · rw [hleaves]
      simpa using hround.of_ids hids hissued

/-- An emission is followed to its end: a step of what the cache does meanwhile
calls one more listener, goes on inside the last call or ends the emission,
unless it fails. -/
theorem follow (h : Telling change item rest first run next calls missed) {above : List Frame}
    (hs : run.stack = above ++ .emission change item next :: rest) :
    (run.step.stack = [] ∧ run.step.failure.isSome) ∨
    (above = [] ∧ run.state.listeners.ids.length ≤ next ∧ run.step.stack = rest) ∨
    ∃ next calls missed above, Telling change item rest first run.step next calls missed ∧
      run.step.stack = above ++ .emission change item next :: rest := by
  cases above with
  | cons frame above =>
    rw [List.cons_append] at hs
    rcases Run.stack_step hs with hfail | ⟨frames, -, hframes⟩
    · exact .inl hfail
    · refine .inr (.inr ⟨next, calls, _, frames ++ above, h.inside hs, ?_⟩)
      rw [hframes, List.append_assoc]
  | nil =>
    rw [List.nil_append] at hs
    cases hc : run.called? with
    | none =>
      refine .inr (.inl ⟨rfl, ?_⟩)
      obtain ⟨state, stack, log, reply, failure⟩ := run
      cases hs
      have hnone := Option.map_eq_none_iff.mp hc
      rw [Subscribers.ids, List.length_map]
      refine ⟨List.getElem?_eq_none_iff.mp hnone, ?_⟩
      simp [Run.step, Run.advance, Run.visit, Subscribers.get?, hnone]
    | some called =>
      refine .inr (.inr ⟨next + 1, calls ++ [called.1], missed, ?_⟩)
      obtain ⟨above, habove⟩ : ∃ above,
          run.step.stack = above ++ .emission change item (next + 1) :: rest := by
        obtain ⟨state, stack, log, reply, failure⟩ := run
        cases hs
        obtain ⟨listener, hl, -⟩ := Option.map_eq_some_iff.mp hc
        simp only [Run.step, Run.advance, Run.visit, Subscribers.get?, hl, Option.map_some]
        split
        · exact ⟨[.script listener.2.script], rfl⟩
        · exact ⟨[], rfl⟩
      exact ⟨above, h.visit hs hc, habove⟩

end Telling

/-! ## A listener that leaves -/

/-- A listener that takes itself out when it is told of an addition. -/
def leaver : Callback Call := ⟨ascii "leaver", some (ascii "add"), 1, [.unlisten 1]⟩

/-- A listener that only takes notes. -/
def noter : Callback Call := ⟨ascii "noter", none, 0, []⟩

def marker : Item := ⟨ascii "k", ascii "p"⟩

/-- An empty cache to which these listen. -/
def attended (callbacks : List (Callback Call)) : State :=
  callbacks.foldl (fun state callback => (state.run (.listen callback)).1) State.initial

/-- The moment at which it makes an addition known. -/
def announcing (callbacks : List (Callback Call)) : Run :=
  ((attended callbacks).start (.add marker)).step

theorem trace_attended (callbacks : List (Callback Call)) : ∃ run acts emissions,
    Trace run acts emissions ∧ run.stack = [] ∧ run.state = attended callbacks := by
  induction callbacks using List.reverseRecOn with
  | nil => exact ⟨_, _, _, .start, rfl, rfl⟩
  | append_singleton callbacks callback ih =>
    obtain ⟨run, acts, emissions, ht, hs, hstate⟩ := ih
    obtain ⟨hnext, hlast⟩ := ht.session hs (.listen callback)
    refine ⟨_, _, _, hnext, rfl, ?_⟩
    rw [attended, List.foldl_append, ← attended, ← hstate]
    exact hlast

theorem trace_announcing (callbacks : List (Callback Call)) :
    ∃ acts emissions, Trace (announcing callbacks) acts emissions := by
  obtain ⟨run, acts, emissions, ht, hs, hstate⟩ := trace_attended callbacks
  rw [announcing, ← hstate]
  exact ⟨_, _, (ht.call (.add marker) hs).step⟩

/-- What is under way below its emission. -/
def announced : List Frame := [.answer (.payload (some marker.payload)), .script []]

/-- Who stands behind a listener that takes itself out misses its turn. -/
theorem Telling.of_leaver {others : List (Nat × Callback Call)}
    (hs : first.stack = .emission .add marker 0 :: rest)
    (hl : first.state.listeners.present = (1, leaver) :: others) :
    let last := first.step.step.step.step
    Telling .add marker rest first last 1 [1] (others.head?.map (·.1)).toList ∧
      last.stack = .emission .add marker 1 :: rest ∧ last.state.listeners.present = others := by
  obtain ⟨⟨cache, ⟨issued, present⟩⟩, stack, log, reply, failure⟩ := first
  cases hs
  cases hl
  refine ⟨?_, rfl, rfl⟩
  have hstart := @Telling.start .add marker rest ⟨⟨cache, ⟨issued, (1, leaver) :: others⟩⟩,
    .emission .add marker 0 :: rest, log, reply, failure⟩ rfl
  have hcalled := hstart.visit rfl (rfl : Run.called? _ = some (1, _))
  have hgone := hcalled.inside (rfl : Run.stack _ = .script [.unlisten 1] :: [] ++ _)
  have hanswered := hgone.inside (rfl : Run.stack _ = .answer _ :: [.script []] ++ _)
  have hreturned := hanswered.inside (rfl : Run.stack _ = .script [] :: [] ++ _)
  cases others <;> exact hreturned

/-! ## Once, unless passed over -/

/-- **Who is there all along is called once, unless it is passed over.** In an
emission of a cache, whatever its listeners do, a listener that is there when
the emission starts and still there when nobody is left to call has been
called once; or else it was next in line when a listener that had had its turn
left, and has not been called at all. -/
theorem Telling.called_once_unless_passed {acts : List Act} {emissions : List Emission}
    (ht : Trace first acts emissions) (h : Telling change item rest first run next calls missed)
    (hend : run.state.listeners.ids.length ≤ next) {id : Nat}
    (hfirst : id ∈ first.state.listeners.ids) (hlast : id ∈ run.state.listeners.ids) :
    calls.count id = if id ∈ missed then 0 else 1 :=
  (h.round ht.sound_listeners).2.count_calls hend hfirst hlast

theorem called_once_of_noters :
    let first := announcing [leaver, noter, noter]
    let last := first.step.step.step.step.step
    first.state.listeners.ids = [1, 2, 3] ∧ last.state.listeners.ids = [2, 3] ∧
    ∃ calls missed, Telling .add marker announced first last 2 calls missed ∧
      last.stack = .emission .add marker 2 :: announced ∧
      calls.count 2 = 0 ∧ calls.count 3 = 1 := by
  intro first last
  obtain ⟨acts, emissions, ht⟩ := trace_announcing [leaver, noter, noter]
  have hstart : first.stack = .emission .add marker 0 :: announced := rfl
  obtain ⟨hleft, hs, -⟩ := Telling.of_leaver hstart rfl
  have hlast := hleft.visit hs (rfl : Run.called? _ = some (3, _))
  have hcalls (id : Nat) (hfirst : id ∈ first.state.listeners.ids)
      (hlast' : id ∈ last.state.listeners.ids) :=
    Telling.called_once_unless_passed ht hlast (by decide) hfirst hlast'
  exact ⟨rfl, rfl, _, _, hlast, rfl, hcalls 2 (by decide) (by decide),
    hcalls 3 (by decide) (by decide)⟩

/-- Of two listeners the first takes itself out, and the second, which is
there all along, is never told. -/
theorem passed_of_leaver :
    let first := announcing [leaver, noter]
    let last := first.step.step.step.step
    (∃ acts emissions, Trace first acts emissions) ∧
    2 ∈ first.state.listeners.ids ∧ 2 ∈ last.state.listeners.ids ∧
    ∃ calls missed, Telling .add marker announced first last 1 calls missed ∧
      last.stack = .emission .add marker 1 :: announced ∧
      last.state.listeners.ids.length ≤ 1 ∧ calls.count 2 = 0 := by
  intro first last
  have hstart : first.stack = .emission .add marker 0 :: announced := rfl
  obtain ⟨hlast, hs, -⟩ := Telling.of_leaver hstart rfl
  exact ⟨trace_announcing _, by decide, by decide, _, _, hlast, hs, by decide, by decide⟩

end StyleRegistry.CacheSession
