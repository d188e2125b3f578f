import StyleRegistry.Proofs.Cache.Delivery

/-! # Who has ever listened

A cache gives each listener that joins an id, and tells whoever takes an id out
of its list whether it was there. Over a whole trace the ids that were given
count up from one, so none is given twice; and an id is in the list just when
it was given and has not been taken out since. An emission calls its listeners
in the order of their ids, which is the order in which they joined, whoever
joins or leaves while it is under way and whatever is thrown. -/
namespace StyleRegistry.CacheSession

/-! ## Records -/

/-- A trace, and what its steps show of one kind, in order. -/
inductive Record {β : Type} (shows : Run → Option β) : Run → List β → Prop
  | start : Record shows ⟨.initial, [], [], .nothing, none⟩ []
  | call {run : Run} {shown : List β} (call : Call) :
    Record shows run shown → run.stack = [] → Record shows (run.state.start call) shown
  | nested {run : Run} {shown : List β} (call : Call) :
    Record shows run shown → Run.Listening run.stack →
      Record shows { run with stack := .script [call] :: run.stack } shown
  | step {run : Run} {shown : List β} :
    Record shows run shown → Record shows run.step (shown ++ (shows run).toList)
  | unwind {run : Run} {shown : List β} {rest : List Frame} :
    Record shows run shown → rest <:+ run.stack → rest = [] ∨ Run.Listening rest →
      Record shows { run with stack := rest } shown

section Record

variable {β : Type} {shows : Run → Option β} {run : Run} {shown : List β}

/-- Every trace has a record. -/
theorem Trace.record {acts : List Act} {emissions : List Emission}
    (h : Trace run acts emissions) (shows : Run → Option β) : ∃ shown, Record shows run shown := by
  induction h with
  | start => exact ⟨[], .start⟩
  | call call _ hs ih =>
    obtain ⟨shown, h⟩ := ih
    exact ⟨shown, h.call call hs⟩
  | nested call _ hl ih =>
    obtain ⟨shown, h⟩ := ih
    exact ⟨shown, h.nested call hl⟩
  | step _ ih =>
    obtain ⟨shown, h⟩ := ih
    exact ⟨_, h.step⟩
  | unwind _ hs hl ih =>
    obtain ⟨shown, h⟩ := ih
    exact ⟨shown, h.unwind hs hl⟩

/-- What holds at the start and is kept by every step holds of every record. -/
theorem Record.invariant (h : Record shows run shown) (holds : State → List β → Prop)
    (hstart : holds .initial [])
    (hstep : ∀ (run : Run) shown, holds run.state shown →
      holds run.step.state (shown ++ (shows run).toList)) :
    holds run.state shown := by
  induction h with
  | start => exact hstart
  | call _ _ _ ih => exact ih
  | nested _ _ _ ih => exact ih
  | step _ ih => exact hstep _ _ ih
  | unwind _ _ _ ih => exact ih

end Record

/-! ## Joining and leaving -/

/-- A listener joined and was given an id, or an id was to be taken out of the
list, and was there or not. -/
inductive Enrolment where
  | join (id : Nat)
  | leave (id : Nat) (found : Bool)
  deriving DecidableEq, Repr

/-- What the next step answers to one who joins or takes out an id. -/
def Run.enrolment? (run : Run) : Option Enrolment :=
  match run.stack, run.step.stack with
  | .script (.listen _ :: _) :: _, .answer (.listener id) :: _ => some (.join id)
  | .script (.unlisten id :: _) :: _, .answer (.flag found) :: _ => some (.leave id found)
  | _, _ => none

theorem Run.enrolment_cases (run : Run) :
    (∃ callback, run.enrolment? = some (.join (run.state.listeners.issued + 1)) ∧
      run.step.state.listeners = run.state.listeners.add callback) ∨
    (∃ id, run.enrolment? = some (.leave id (run.state.listeners.contains id)) ∧
      run.step.state.listeners = run.state.listeners.remove id) ∨
    (run.enrolment? = none ∧ run.step.state.listeners.ids = run.state.listeners.ids ∧
      run.step.state.listeners.issued = run.state.listeners.issued) := by
  rcases run.listeners_step with ⟨callback, hj, -, hl⟩ | ⟨id, hg, hl⟩ | ⟨hj, hg, hids, hissued⟩
  · refine .inl ⟨callback, ?_, hl⟩
    obtain ⟨state, stack, log, reply, failure⟩ := run
    unfold joins? at hj
    split at hj
    · rename_i hs
      cases hs
      rfl
    · cases hj
  · refine .inr (.inl ⟨id, ?_, hl⟩)
    obtain ⟨state, stack, log, reply, failure⟩ := run
    unfold leaves? at hg
    split at hg
    · rename_i hs
      cases hs
      cases hg
      rfl
    · cases hg
  · refine .inr (.inr ⟨?_, hids, hissued⟩)
    unfold enrolment?
    split
    · rename_i hs _
      simp [joins?, hs] at hj
    · rename_i hs _
      simp [leaves?, hs] at hg
    · rfl

/-- The ids that were given, in order. -/
def joined (history : List Enrolment) : List Nat :=
  history.filterMap fun
    | .join id => some id
    | .leave _ _ => none

theorem joined_append (history : List Enrolment) (enrolment : Enrolment) :
    joined (history ++ [enrolment]) = joined history ++ joined [enrolment] :=
  List.filterMap_append

/-- The list of listeners is what came of joining and leaving. -/
structure Roll (listeners : Subscribers (Callback Call)) (history : List Enrolment) : Prop where
  sound : listeners.Sound
  joined : joined history = List.range' 1 listeners.issued
  left : ∀ id, .leave id true ∈ history → id ∈ CacheSession.joined history
  present : ∀ id, id ∈ listeners.ids ↔
    id ∈ CacheSession.joined history ∧ .leave id true ∉ history

namespace Roll

variable {listeners after : Subscribers (Callback Call)} {history : List Enrolment}

theorem start : Roll .empty [] where
  sound := Subscribers.sound_empty
  joined := rfl
  left _ hl := absurd hl List.not_mem_nil
  present _ := ⟨fun hm => absurd hm List.not_mem_nil, fun hm => absurd hm.1 List.not_mem_nil⟩

theorem of_ids (h : Roll listeners history) (hids : after.ids = listeners.ids)
    (hissued : after.issued = listeners.issued) : Roll after history where
  sound := h.sound.of_ids hids hissued
  joined := hissued ▸ h.joined
  left := h.left
  present := hids ▸ h.present

/-- No id was given that is larger than the number of those given. -/
theorem le_issued (h : Roll listeners history) {id : Nat}
    (hid : id ∈ CacheSession.joined history) : id ≤ listeners.issued := by
  rw [h.joined, List.mem_range'_1] at hid
  omega

theorem join (h : Roll listeners history) (callback : Callback Call) :
    Roll (listeners.add callback) (history ++ [.join (listeners.issued + 1)]) where
  sound := h.sound.add callback
  joined := by
    rw [joined_append, h.joined, Subscribers.issued_add, List.range'_concat, Nat.one_mul,
      Nat.add_comm 1]
    rfl
  left id hl := by
    rw [joined_append]
    refine List.mem_append_left _ (h.left id ?_)
    simpa using hl
  present id := by
    have hfresh : .leave (listeners.issued + 1) true ∉ history := fun hl =>
      Nat.not_succ_le_self _ (h.le_issued (h.left _ hl))
    rw [Subscribers.ids_add, joined_append, List.mem_append, List.mem_append, h.present]
    constructor
    · rintro (⟨hid, hl⟩ | hid)
      · exact ⟨.inl hid, by simpa using hl⟩
      · obtain rfl := List.mem_singleton.mp hid
        exact ⟨.inr hid, by simpa using hfresh⟩
    · rintro ⟨hid | hid, hl⟩
      · exact .inl ⟨hid, by simpa using hl⟩
      · exact .inr hid

theorem leave (h : Roll listeners history) (id : Nat) :
    Roll (listeners.remove id) (history ++ [.leave id (listeners.contains id)]) := by
  have hsame : CacheSession.joined (history ++ [.leave id (listeners.contains id)]) =
      CacheSession.joined history := by
    rw [joined_append]
    exact List.append_nil _
  have hmem (other : Nat) : .leave other true ∈ history ++ [.leave id (listeners.contains id)] ↔
      .leave other true ∈ history ∨ other = id ∧ id ∈ listeners.ids := by
    rw [List.mem_append, List.mem_singleton, Enrolment.leave.injEq, ← Subscribers.contains_iff,
      @eq_comm _ true]
  refine ⟨h.sound.remove id, hsame.trans h.joined, fun other hl => ?_, fun other => ?_⟩
  · rw [hsame]
    rcases (hmem other).mp hl with hl | ⟨rfl, hid⟩
    · exact h.left other hl
    · exact ((h.present other).mp hid).1
  · rw [Subscribers.ids_remove, h.sound.nodup.mem_erase_iff, h.present, hsame, hmem]
    constructor
    · rintro ⟨hne, hid, hl⟩
      exact ⟨hid, fun hm => hm.elim hl fun he => hne he.1⟩
    · rintro ⟨hid, hl⟩
      have hstays : .leave other true ∉ history := fun hm => hl (.inl hm)
      refine ⟨?_, hid, hstays⟩
      rintro rfl
      exact hl (.inr ⟨rfl, (h.present other).mpr ⟨hid, hstays⟩⟩)

end Roll

/-! ## Whole traces -/

namespace Record

variable {run first : Run} {history : List Enrolment}

theorem roll (h : Record Run.enrolment? run history) : Roll run.state.listeners history := by
  refine h.invariant (fun state history => Roll state.listeners history) .start ?_
  intro run history hr
  rcases run.enrolment_cases with ⟨callback, he, hl⟩ | ⟨id, he, hl⟩ | ⟨he, hids, hissued⟩
  · rw [he, hl]
    exact hr.join callback
  · rw [he, hl]
    exact hr.leave id
  · rw [he, Option.toList_none, List.append_nil]
    exact hr.of_ids hids hissued

/-- **Listeners are told in the order in which they joined.** In every trace,
whatever the listeners do to the cache and to each other's membership and
whatever is thrown, the listeners that one emission calls have ever larger ids,
so none is called twice. The ids that were given are ever larger too, so none
is given twice; one who joins is answered by an id larger than all before; and
one who takes an id out is answered `true` just when the id was given and has
not been taken out before. -/
theorem told_in_order (h : Record Run.enrolment? first history) :
    (∀ {change item rest run next calls missed},
      Telling change item rest first run next calls missed → calls.Pairwise (· < ·)) ∧
    (joined history).Pairwise (· < ·) ∧
    (∀ callback calls rest, first.stack = .script (.listen callback :: calls) :: rest →
      ∃ id, first.enrolment? = some (.join id) ∧ first.step.step.reply = .listener id ∧
        ∀ old ∈ joined history, old < id) ∧
    (∀ id calls rest, first.stack = .script (.unlisten id :: calls) :: rest →
      ∃ found, first.enrolment? = some (.leave id found) ∧ first.step.step.reply = .flag found ∧
        (found = true ↔ id ∈ joined history ∧ .leave id true ∉ history)) := by
  have hr := h.roll
  refine ⟨fun ht => (ht.round hr.sound).2.ascending, ?_, fun callback calls rest hs => ?_,
    fun id calls rest hs => ?_⟩
  · rw [hr.joined]
    exact List.pairwise_lt_range'
  · refine ⟨first.state.listeners.issued + 1, ?_, ?_, fun old ho => ?_⟩
    · obtain ⟨state, stack, log, reply, failure⟩ := first
      cases hs
      rfl
    · obtain ⟨state, stack, log, reply, failure⟩ := first
      cases hs
      rfl
    · exact Nat.lt_succ_of_le (hr.le_issued ho)
  · refine ⟨first.state.listeners.contains id, ?_, ?_, ?_⟩
    · obtain ⟨state, stack, log, reply, failure⟩ := first
      cases hs
      rfl
    · obtain ⟨state, stack, log, reply, failure⟩ := first
      cases hs
      rfl
    · rw [Subscribers.contains_iff]
      exact hr.present id

theorem told_in_order_of_leaver :
    (∃ run next calls missed,
      Telling .add marker announced (announcing [leaver, noter, noter]) run next calls missed ∧
        calls = [1, 3] ∧ calls.Pairwise (· < ·)) ∧
    ∃ run, Record Run.enrolment? run [.join 1, .leave 1 true] ∧
      run.stack = [.script [.unlisten 1]] ∧ run.step.step.reply = .flag false := by
  constructor
  · obtain ⟨acts, emissions, ht⟩ := trace_announcing [leaver, noter, noter]
    obtain ⟨history, hr⟩ := ht.record Run.enrolment?
    have hstart : (announcing [leaver, noter, noter]).stack =
        .emission .add marker 0 :: announced :=
      rfl
    obtain ⟨hleft, hs, -⟩ := Telling.of_leaver hstart rfl
    have hcalled := hleft.visit hs (rfl : Run.called? _ = some (3, _))
    exact ⟨_, _, _, _, hcalled, rfl, (told_in_order hr).1 hcalled⟩
  · have hempty : Record Run.enrolment? _ [] := .start
    have hjoined := (hempty.call (.listen noter) rfl).step.step.step
    have hleft := (hjoined.call (.unlisten 1) rfl).step.step.step
    have hagain : Record Run.enrolment? _ [.join 1, .leave 1 true] := hleft.call (.unlisten 1) rfl
    obtain ⟨found, -, hreply, hfound⟩ := (told_in_order hagain).2.2.2 1 [] [] rfl
    have hmissing : found = false := by
      refine Bool.eq_false_iff.mpr fun hf => ?_
      exact (hfound.mp hf).2 (by decide)
    exact ⟨_, hagain, rfl, hmissing ▸ hreply⟩

end Record
end StyleRegistry.CacheSession
