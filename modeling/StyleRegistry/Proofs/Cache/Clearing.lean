import StyleRegistry.Proofs.Cache.Delivery
import StyleRegistry.Proofs.Cache.Ending

/-! # Clearing a cache

A clearing takes the keys that are there when it starts, and gives back all
references to one after the other. Only the last reference to a key makes a
removal known, so each entry is told of once, in order, and while its listeners
are told of it the entries behind it are still there as they were. An exception
of a listener ends the clearing at that point. -/
namespace StyleRegistry.CacheSession

open Bytes (ascii)

variable {first run : Run} {below : List Frame} {told : List Emission}
  {gone left : List (Entry Item)}

/-! ## Clearings -/

/-- What tells of an entry that is gone: no reference to its item is left. -/
def removal (entry : Entry Item) : Emission := ⟨.remove, entry.item, 0⟩

namespace Run

/-- The frame waits for what is on top of it, and what is below waits for it. -/
def Waits (run : Run) (below : List Frame) (frame : Frame) : Prop :=
  ∃ top above, run.stack = top :: above ++ below ∧ frame ∈ above

/-- A listener was called that has not returned yet. -/
def InListener (run : Run) (below : List Frame) : Prop :=
  ∃ change item next, run.Waits below (.emission change item next)

theorem waits_iff {top frame : Frame} (above : List Frame)
    (hs : run.stack = top :: above ++ below) :
    run.Waits below frame ↔ frame ∈ above := by
  constructor
  · rintro ⟨other, upper, ho, hm⟩
    rwa [List.append_cancel_right (List.cons.inj (hs.symm.trans ho)).2]
  · exact fun hm => ⟨top, above, hs, hm⟩

end Run

/-- A clearing from its start on, with the emissions that it has started. What
is below it waits for it to return. Its listeners may do anything that leaves
the cache as it is. -/
inductive Clearing (first : Run) (below : List Frame) : Run → List Emission → Prop
  | start {calls : List Call} {rest : List Frame} :
    first.stack = .script (.clear :: calls) :: rest →
      below = .answer .nothing :: .script calls :: rest → Clearing first below first.step []
  | step {run : Run} {told : List Emission} {top : Frame} (above : List Frame) :
    Clearing first below run told → run.stack = top :: above ++ below →
      (run.InListener below → run.step.state.cache = run.state.cache) →
      Clearing first below run.step (told ++ run.step.opening?.toList)
  /-- A listener makes a call before it returns. -/
  | nested {run : Run} {told : List Emission} {top : Frame} {above : List Frame} (call : Call) :
    Clearing first below run told → run.stack = top :: above ++ below →
      Run.Listening run.stack →
      Clearing first below { run with stack := .script [call] :: run.stack } told
  /-- A listener catches an exception. -/
  | unwind {run : Run} {told : List Emission} {top : Frame} {above : List Frame} :
    Clearing first below run told → top :: above ++ below <:+ run.stack →
      Run.Listening (top :: above ++ below) →
      Clearing first below { run with stack := top :: above ++ below } told

theorem Clearing.quiet (h : Clearing first below run told) (hfirst : Quiet first.stack) :
    Quiet run.stack := by
  induction h with
  | start _ _ => exact Run.quiet_step hfirst
  | step _ _ _ _ ih => exact Run.quiet_step ih
  | nested call _ _ hl ih => exact ih.nested hl call
  | unwind _ hs _ ih => exact ih.suffix hs

/-! ## Stages -/

/-- Where a clearing stands, with the entries that are gone and those left. -/
inductive Stage (below : List Frame) (run : Run) : List (Entry Item) → List (Entry Item) → Prop
  /-- The next entry's turn has come. -/
  | turn {gone left : List (Entry Item)} :
    run.stack = .clearing (left.map (·.key)) :: below → run.state.cache.entries = left →
      Stage below run gone left
  /-- References to the next entry are given back. -/
  | giving {gone left : List (Entry Item)} {entry : Entry Item} (times : Nat) :
    run.stack = .release entry.key (times + 1) :: .clearing (left.map (·.key)) :: below →
      run.state.cache.entries = { entry with count := times + 1 } :: left →
      Stage below run gone (entry :: left)
  /-- The listeners are told of the last entry that is gone. -/
  | telling {gone left : List (Entry Item)} {entry : Entry Item} (above : List Frame)
    (next : Nat) :
    run.stack = above ++ .emission .remove entry.item next :: .release entry.key 0 ::
      .clearing (left.map (·.key)) :: below → run.state.cache.entries = left →
      Stage below run (gone ++ [entry]) left
  | told {gone left : List (Entry Item)} (key : Bytes) :
    run.stack = .release key 0 :: .clearing (left.map (·.key)) :: below →
      run.state.cache.entries = left → Stage below run gone left
  | returned {gone : List (Entry Item)} :
    run.stack = below → run.state.cache.entries = [] → Stage below run gone []
  /-- An exception was thrown, of which the last entry that is gone was the occasion. -/
  | thrown {gone left : List (Entry Item)} {entry : Entry Item} :
    run.stack = [] → run.failure.isSome = true → run.state.cache.entries = left →
      Stage below run (gone ++ [entry]) left

/-- An act that leaves the cache as it is makes nothing known. -/
theorem emission?_of_apply {cache : Cache Item} {act : Act} (h : act.apply cache = cache) :
    act.emission? cache = none := by
  cases act with
  | add item present =>
    rw [Act.emission?]
    split
    · rfl
    · rename_i hc
      have hlength := congrArg (fun cache => cache.entries.length) h
      simp [Act.apply, Cache.acquire, hc, Keyed.key] at hlength
  | remove key present =>
    rw [Act.emission?]
    cases hv : cache.evicted? key with
    | none => rfl
    | some item =>
      have hlighter := Cache.mass_release_lt hv
      rw [show cache.release key = cache from h] at hlighter
      exact absurd hlighter (Nat.lt_irrefl _)

namespace Run

theorem opening?_of_kept (hq : Quiet run.stack) (hkept : run.step.state.cache = run.state.cache) :
    run.step.opening? = none := by
  rw [opening?_step hq]
  cases ha : run.act? with
  | none => rfl
  | some act =>
    rw [cache_step, ha] at hkept
    exact emission?_of_apply hkept

theorem opening?_of_act?_eq_none (hq : Quiet run.stack) (ha : run.act? = none) :
    run.step.opening? = none := by
  rw [opening?_step hq, ha]
  rfl

/-- The release of a reference to the first entry of a cache. -/
theorem step_release {entry : Entry Item} {times : Nat} {rest : List Frame}
    (hs : run.stack = .release entry.key (times + 1) :: rest)
    (he : run.state.cache.entries = { entry with count := times + 1 } :: left) :
    (times = 0 → run.step.state.cache.entries = left ∧
      run.step.stack = .emission .remove entry.item 0 :: .release entry.key times :: rest) ∧
    (times ≠ 0 → run.step.state.cache.entries = { entry with count := times } :: left ∧
      run.step.stack = .release entry.key times :: rest) := by
  obtain ⟨⟨⟨entries⟩, listeners⟩, stack, log, reply, failure⟩ := run
  cases hs
  obtain rfl : entries = { entry with count := times + 1 } :: left := he
  refine ⟨fun ht => ?_, fun ht => ?_⟩
  · simp [step, advance, release, State.tell, Cache.evicted?, Cache.find?, Cache.release_eq,
      Cache.released, ht]
  · have hc : ¬ times + 1 ≤ 1 := by omega
    simp [step, advance, release, State.tell, Cache.evicted?, Cache.find?, Cache.release_eq,
      Cache.released, hc]

end Run

namespace Stage

variable {entry : Entry Item} {top : Frame} {above : List Frame}

theorem step_turn (hs : run.stack = .clearing (left.map (·.key)) :: below)
    (hc : run.state.cache.entries = left) (hpos : ∀ entry ∈ left, 0 < entry.count) :
    Stage below run.step gone left := by
  obtain ⟨⟨⟨entries⟩, listeners⟩, stack, log, reply, failure⟩ := run
  cases hs
  obtain rfl : entries = left := hc
  cases entries with
  | nil => exact .returned rfl rfl
  | cons entry left =>
    obtain ⟨times, ht⟩ := Nat.exists_eq_succ_of_ne_zero (hpos entry List.mem_cons_self).ne'
    have hcount : Cache.count ⟨entry :: left⟩ entry.key = times + 1 := by
      simpa [Cache.count, Cache.find?] using ht
    refine .giving times ?_ ?_
    · simp only [Run.step, Run.advance, List.map_cons, hcount]
    · rw [← Nat.succ_eq_add_one, ← ht]
      rfl

/-- The last reference makes the removal known, and with no reference left. -/
theorem step_giving {times : Nat}
    (hs : run.stack = .release entry.key (times + 1) :: .clearing (left.map (·.key)) :: below)
    (hc : run.state.cache.entries = { entry with count := times + 1 } :: left)
    (hkey : entry.key = entry.item.key) (hfresh : entry.key ∉ left.map (·.key))
    (gone : List (Entry Item)) :
    (run.step.opening? = some (removal entry) ∧ Stage below run.step (gone ++ [entry]) left) ∨
    (run.step.opening? = none ∧ Stage below run.step gone (entry :: left)) := by
  obtain ⟨hlast, hmore⟩ := Run.step_release hs hc
  cases times with
  | zero =>
    obtain ⟨hcache, hstack⟩ := hlast rfl
    have hcount : run.step.state.cache.count entry.item.key = 0 := by
      refine Cache.count_eq_zero (Bool.eq_false_iff.mpr fun hin => hfresh ?_)
      rw [hkey, ← hcache]
      exact Cache.contains_iff_mem.mp hin
    refine .inl ⟨?_, .telling [] 0 hstack hcache⟩
    simp only [Run.opening?, hstack, removal, hcount]
  | succ times =>
    obtain ⟨hcache, hstack⟩ := hmore (Nat.succ_ne_zero times)
    refine .inr ⟨?_, .giving times hstack hcache⟩
    simp only [Run.opening?, hstack]

theorem step_telling {next : Nat}
    (hs : run.stack = above ++ .emission .remove entry.item next :: .release entry.key 0 ::
      .clearing (left.map (·.key)) :: below)
    (hc : run.state.cache.entries = left)
    (hkept : above ≠ [] → run.step.state.cache = run.state.cache) :
    Stage below run.step (gone ++ [entry]) left := by
  cases above with
  | nil =>
    have hcache : run.step.state.cache.entries = left := by
      rw [Run.cache_step, Run.act?, hs]
      exact hc
    rw [List.nil_append] at hs
    cases hl : run.state.listeners.get? next with
    | none =>
      refine .told entry.key ?_ hcache
      simp [Run.step, hs, Run.advance, Run.visit, hl]
    | some callback =>
      cases hf : callback.fires Change.remove.name with
      | true =>
        refine .telling [.script callback.script] (next + 1) ?_ hcache
        simp [Run.step, hs, Run.advance, Run.visit, hl, hf]
      | false =>
        refine .telling [] (next + 1) ?_ hcache
        simp [Run.step, hs, Run.advance, Run.visit, hl, hf]
  | cons frame above =>
    have hcache : run.step.state.cache.entries = left := by
      rw [hkept (List.cons_ne_nil _ _)]
      exact hc
    rcases Run.stack_step hs with ⟨hstack, hfailure⟩ | ⟨frames, -, hstack⟩
    · exact .thrown hstack hfailure hcache
    · exact .telling (frames ++ above) next (hstack.trans (List.append_assoc ..).symm) hcache

theorem waits_of_telling {frame : Frame} {next : Nat}
    (hs : run.stack = (frame :: above) ++ .emission .remove entry.item next ::
      .release entry.key 0 :: .clearing (left.map (·.key)) :: below) :
    run.Waits below (.emission .remove entry.item next) := by
  refine ⟨frame, above ++ [.emission .remove entry.item next, .release entry.key 0,
    .clearing (left.map (·.key))], ?_, by simp⟩
  rw [hs]
  simp

theorem not_suffix_below (top : Frame) (above below : List Frame) :
    ¬ top :: above ++ below <:+ below := by
  intro hs
  have hlength := hs.length_le
  simp only [List.length_append, List.length_cons] at hlength
  omega

theorem ne_longer (top : Frame) (above below : List Frame) : below ≠ top :: above ++ below :=
  fun h => not_suffix_below top above below ⟨[], h.symm⟩

/-- **A step goes on to a stage of the same clearing.** -/
theorem step (h : Stage below run gone left) (hs : run.stack = top :: above ++ below)
    (hq : Quiet run.stack) (hsound : Cache.Sound (⟨gone ++ left⟩ : Cache Item))
    (hkept : run.InListener below → run.step.state.cache = run.state.cache) :
    ∃ passed ahead, passed ++ ahead = gone ++ left ∧
      passed.map removal = gone.map removal ++ run.step.opening?.toList ∧
      Stage below run.step passed ahead := by
  cases h with
  | turn hstack hcache =>
    have hpos : ∀ entry ∈ left, 0 < entry.count := fun entry hm =>
      hsound.count_pos entry (List.mem_append_right gone hm)
    have hopens : run.step.opening? = none :=
      Run.opening?_of_act?_eq_none hq (by rw [Run.act?, hstack])
    refine ⟨gone, left, rfl, ?_, step_turn hstack hcache hpos⟩
    rw [hopens, Option.toList_none, List.append_nil]
  | @giving _ left entry times hstack hcache =>
    have hkey : entry.key = entry.item.key := hsound.key_eq entry (by simp)
    have hfresh : entry.key ∉ left.map (·.key) := by
      have hnodup := hsound.nodup
      rw [Cache.keys, List.map_append, List.map_cons] at hnodup
      exact (List.nodup_cons.mp (List.nodup_append.mp hnodup).2.1).1
    rcases step_giving hstack hcache hkey hfresh gone with ⟨hopens, hnext⟩ | ⟨hopens, hnext⟩
    · refine ⟨gone ++ [entry], left, by simp, ?_, hnext⟩
      rw [hopens, List.map_append]
      rfl
    · refine ⟨gone, entry :: left, rfl, ?_, hnext⟩
      rw [hopens, Option.toList_none, List.append_nil]
  | @telling gone _ entry upper next hstack hcache =>
    have hkeeps (hne : upper ≠ []) : run.step.state.cache = run.state.cache := by
      obtain ⟨frame, upper, rfl⟩ := List.exists_cons_of_ne_nil hne
      exact hkept ⟨.remove, entry.item, next, waits_of_telling hstack⟩
    have hopens : run.step.opening? = none := by
      cases upper with
      | nil => exact Run.opening?_of_act?_eq_none hq (by rw [Run.act?, hstack]; rfl)
      | cons frame upper => exact Run.opening?_of_kept hq (hkeeps (List.cons_ne_nil _ _))
    refine ⟨gone ++ [entry], left, rfl, ?_, step_telling hstack hcache hkeeps⟩
    rw [hopens, Option.toList_none, List.append_nil]
  | told key hstack hcache =>
    have hopens : run.step.opening? = none :=
      Run.opening?_of_act?_eq_none hq (by rw [Run.act?, hstack])
    refine ⟨gone, left, rfl, ?_, .turn ?_ ?_⟩
    · rw [hopens, Option.toList_none, List.append_nil]
    · rw [Run.step, hstack]
      rfl
    · rw [Run.cache_step, Run.act?, hstack]
      exact hcache
  | returned hstack _ => exact absurd (hstack.symm.trans hs) (ne_longer top above below)
  | thrown hstack _ _ => simp [hstack] at hs

theorem nested (h : Stage below run gone left) (hs : run.stack = top :: above ++ below)
    (hl : Run.Listening run.stack) (call : Call) :
    Stage below { run with stack := .script [call] :: run.stack } gone left := by
  obtain ⟨change, item, next, rest, hlistening⟩ := hl
  cases h with
  | telling upper next hstack hcache =>
    exact .telling (.script [call] :: upper) next (congrArg (.script [call] :: ·) hstack) hcache
  | turn hstack _ | giving _ hstack _ | told _ hstack _ =>
    rw [hstack] at hlistening
    cases hlistening
  | returned hstack _ => exact absurd (hstack.symm.trans hs) (ne_longer top above below)
  | thrown hstack _ _ => simp [hstack] at hs

theorem unwind (h : Stage below run gone left) (hs : top :: above ++ below <:+ run.stack)
    (hl : Run.Listening (top :: above ++ below)) :
    Stage below { run with stack := top :: above ++ below } gone left := by
  obtain ⟨change, item, next, rest, hlistening⟩ := hl
  have hlong := not_suffix_below top above below
  -- A listener's emission is on top of what is kept, so it is no frame of the clearing itself.
  cases h with
  | telling upper turn hstack hcache =>
    rw [hstack] at hs
    rcases List.suffix_or_suffix_of_suffix hs (List.suffix_append ..) with hkept | ⟨upper, hupper⟩
    · rw [hlistening] at hkept hlong ⊢
      simp only [List.suffix_cons_iff, hlong, List.cons.injEq, Frame.emission.injEq, reduceCtorEq,
        false_and, or_false] at hkept
      obtain ⟨⟨rfl, rfl, rfl⟩, rfl⟩ := hkept
      exact .telling [] (next + 1) rfl hcache
    · exact .telling upper turn hupper.symm hcache
  | turn hstack _ | giving _ hstack _ | told _ hstack _ =>
    rw [hstack, hlistening] at hs
    rw [hlistening] at hlong
    simp [List.suffix_cons_iff, hlong] at hs
  | returned hstack _ => exact absurd (hstack ▸ hs) hlong
  | thrown hstack _ _ => simp [hstack] at hs

theorem stack_cases (h : Stage below run gone left) : run.stack = below ∨ run.stack = [] ∨
    ∃ top above, run.stack = top :: above ++ below := by
  cases h with
  | turn hstack _ => exact .inr (.inr ⟨_, [], hstack⟩)
  | giving _ hstack _ | told _ hstack _ => exact .inr (.inr ⟨_, [.clearing _], hstack⟩)
  | @telling _ _ entry upper next hstack _ =>
    cases upper with
    | nil => exact .inr (.inr ⟨_, [.release _ 0, .clearing _], hstack⟩)
    | cons top upper =>
      refine .inr (.inr ⟨top, upper ++ [.emission .remove entry.item next, .release entry.key 0,
        .clearing (left.map (·.key))], ?_⟩)
      rw [hstack]
      simp
  | returned hstack _ => exact .inl hstack
  | thrown hstack _ _ => exact .inr (.inl hstack)

theorem of_returned (h : Stage below run gone left) (hs : run.stack = below) (hb : below ≠ []) :
    left = [] ∧ run.state.cache.entries = [] := by
  rw [← hs] at h hb
  have hlong (frames : List Frame) (hl : run.stack = frames ++ run.stack) : frames = [] :=
    List.self_eq_append_left.mp hl
  cases h with
  | returned _ hcache => exact ⟨rfl, hcache⟩
  | turn hstack _ => cases hlong [_] hstack
  | giving _ hstack _ | told _ hstack _ => cases hlong [_, _] hstack
  | @telling _ _ entry upper next hstack _ =>
    have hnil := hlong (upper ++ [_, _, _]) (by simpa using hstack)
    simp at hnil
  | thrown hstack _ _ => exact absurd hstack hb

theorem of_thrown (h : Stage below run gone left) (hs : run.stack = []) (hb : below ≠ []) :
    run.failure.isSome = true ∧ gone ≠ [] ∧ run.state.cache.entries = left := by
  cases h with
  | thrown _ hfailure hcache => exact ⟨hfailure, by simp, hcache⟩
  | returned hstack _ => exact absurd (hstack.symm.trans hs) hb
  | turn hstack _ | giving _ hstack _ | told _ hstack _ | telling _ _ hstack _ =>
    simp [hs] at hstack

/-- While a listener is told, what is left is all there is. -/
theorem of_inListener (h : Stage below run gone left) (hl : run.InListener below) :
    run.state.cache.entries = left ∧ ∃ entry next, gone.getLast? = some entry ∧
      run.Waits below (.emission .remove entry.item next) := by
  obtain ⟨change, item, turn, hwaits⟩ := hl
  cases h with
  | @telling _ _ entry upper next hstack hcache =>
    cases upper with
    | nil => simp [Run.waits_iff [_, _] hstack] at hwaits
    | cons frame upper =>
      exact ⟨hcache, entry, next, List.getLast?_concat, waits_of_telling hstack⟩
  | turn hstack _ => simp [Run.waits_iff [] hstack] at hwaits
  | giving _ hstack _ | told _ hstack _ => simp [Run.waits_iff [_] hstack] at hwaits
  | returned hstack _ =>
    obtain ⟨top, above, hs, -⟩ := hwaits
    exact absurd (hstack.symm.trans hs) (ne_longer top above below)
  | thrown hstack _ _ =>
    obtain ⟨top, above, hs, -⟩ := hwaits
    simp [hstack] at hs

theorem of_throws (h : Stage below run gone left) {message : Bytes}
    (ht : run.throws? = some message) {reply : Reply} {rest : List Frame}
    (hb : below = .answer reply :: rest) :
    run.InListener below ∧ run.step = { run with stack := [], failure := some message } := by
  obtain ⟨⟨calls, others, hs⟩, hstep⟩ := Run.step_of_throws ht
  refine ⟨?_, hstep⟩
  cases h with
  | @telling _ _ entry upper next hstack _ =>
    cases upper with
    | nil => simp [hs] at hstack
    | cons frame upper => exact ⟨.remove, entry.item, next, waits_of_telling hstack⟩
  | turn hstack _ | giving _ hstack _ | told _ hstack _ | thrown hstack _ _ =>
    simp [hs] at hstack
  | returned hstack _ => simp [hs, hb] at hstack

end Stage

/-! ## Whole clearings -/

namespace Clearing

/-- **A clearing stands at a stage of what was there when it started.** -/
theorem stage (h : Clearing first below run told) (hsound : first.state.cache.Sound)
    (hquiet : Quiet first.stack) : ∃ gone left, gone ++ left = first.state.cache.entries ∧
      told = gone.map removal ∧ Stage below run gone left := by
  induction h with
  | start hs hb =>
    refine ⟨[], first.state.cache.entries, rfl, rfl, .turn ?_ ?_⟩
    · rw [Run.step, hs, hb]
      rfl
    · rw [Run.cache_step, Run.act?, hs]
      rfl
  | step above h hs hkept ih =>
    obtain ⟨gone, left, he, rfl, hstage⟩ := ih
    have hentries : Cache.Sound (⟨gone ++ left⟩ : Cache Item) := he ▸ hsound
    obtain ⟨passed, ahead, hsame, hopened, hnext⟩ :=
      hstage.step hs (h.quiet hquiet) hentries hkept
    exact ⟨passed, ahead, hsame.trans he, hopened.symm, hnext⟩
  | nested call _ hs hl ih =>
    obtain ⟨gone, left, he, ht, hstage⟩ := ih
    exact ⟨gone, left, he, ht, hstage.nested hs hl call⟩
  | unwind _ hs hl ih =>
    obtain ⟨gone, left, he, ht, hstage⟩ := ih
    exact ⟨gone, left, he, ht, hstage.unwind hs hl⟩

/-- A clearing whose listeners leave the cache as it is ends. -/
theorem ends {calls : List Call} {rest : List Frame}
    (hs : first.stack = .script (.clear :: calls) :: rest) (hsound : first.state.cache.Sound)
    (hquiet : Quiet first.stack) {below : List Frame}
    (hb : below = .answer .nothing :: .script calls :: rest)
    (hkept : ∀ fuel, let run := first.steps fuel
      run.InListener below → run.step.state.cache = run.state.cache) :
    ∃ fuel told, Clearing first below (first.steps fuel) told ∧
      ((first.steps fuel).stack = below ∨ (first.steps fuel).stack = []) := by
  have hgoes (fuel : Nat) : (∃ fuel told, Clearing first below (first.steps fuel) told ∧
      ((first.steps fuel).stack = below ∨ (first.steps fuel).stack = [])) ∨
      ∃ told, Clearing first below (first.steps (fuel + 1)) told := by
    induction fuel with
    | zero =>
      rw [Run.steps_succ, Run.steps]
      exact .inr ⟨[], .start hs hb⟩
    | succ fuel ih =>
      rcases ih with hended | ⟨told, h⟩
      · exact .inl hended
      obtain ⟨gone, left, -, -, hstage⟩ := h.stage hsound hquiet
      rcases hstage.stack_cases with hreturned | hthrown | ⟨top, above, hstack⟩
      · exact .inl ⟨fuel + 1, told, h, .inl hreturned⟩
      · exact .inl ⟨fuel + 1, told, h, .inr hthrown⟩
      · rw [Run.steps_succ]
        exact .inr ⟨_, h.step above hstack (hkept (fuel + 1))⟩
  rcases hgoes first.bound with hended | ⟨told, h⟩
  · exact hended
  · have hdone := first.isDone_steps (Nat.le_succ first.bound)
    exact ⟨first.bound + 1, told, h, .inr (List.isEmpty_iff.mp hdone)⟩

/-- **A clearing tells of each entry once, in order, and an exception ends it
where it is.** At every moment of a clearing whose listeners leave the cache as
it is, whatever else they do, the emissions that it has started are the removals
of the entries that came first, one each. While a listener is told of one, the
cache holds exactly the entries behind it, as they were; only then can anything
be thrown, and nothing is done after that. When the clearing returns it has told
of all entries and the cache is empty. And it ends, in one of these ways. -/
theorem tells_once {calls : List Call} {rest : List Frame}
    (hs : first.stack = .script (.clear :: calls) :: rest) (hsound : first.state.cache.Sound)
    (hquiet : Quiet first.stack) :
    let below := Frame.answer .nothing :: .script calls :: rest
    (∀ {run told}, Clearing first below run told → ∃ gone left,
      gone ++ left = first.state.cache.entries ∧ told = gone.map removal ∧
      (run.InListener below → run.state.cache.entries = left ∧
        ∃ entry next, gone.getLast? = some entry ∧
          run.Waits below (.emission .remove entry.item next)) ∧
      (∀ message, run.throws? = some message → run.InListener below ∧
        run.step = { run with stack := [], failure := some message }) ∧
      (run.stack = [] → run.failure.isSome = true ∧ gone ≠ [] ∧ run.state.cache.entries = left) ∧
      (run.stack = below → left = [] ∧ run.state.cache.entries = [])) ∧
    ((∀ fuel, let run := first.steps fuel
        run.InListener below → run.step.state.cache = run.state.cache) →
      ∃ fuel told, Clearing first below (first.steps fuel) told ∧
        ((first.steps fuel).stack = below ∨ (first.steps fuel).stack = [])) := by
  intro below
  refine ⟨fun {run told} h => ?_, ends hs hsound hquiet rfl⟩
  obtain ⟨gone, left, he, ht, hstage⟩ := h.stage hsound hquiet
  have hb : below ≠ [] := List.cons_ne_nil _ _
  exact ⟨gone, left, he, ht, hstage.of_inListener, fun message hm => hstage.of_throws hm rfl,
    fun hthrown => hstage.of_thrown hthrown hb, fun hreturned => hstage.of_returned hreturned hb⟩

/-- A listener that throws when it is told of a removal. -/
def stopper : Callback Call :=
  ⟨ascii "stopper", some (ascii "remove"), 1, [.fail (ascii "stop")]⟩

/-- Two references to one item and one to another. -/
def stock : List (Entry Item) :=
  [⟨ascii "a", ⟨ascii "a", ascii "1"⟩, 2⟩, ⟨ascii "b", ⟨ascii "b", ascii "2"⟩, 1⟩]

theorem tells_once_of_stopper :
    let first := State.start ⟨⟨stock⟩, Subscribers.empty.add stopper⟩ .clear
    let below := [Frame.answer .nothing, .script []]
    (∃ fuel told, Clearing first below (first.steps fuel) told ∧
      ((first.steps fuel).stack = below ∨ (first.steps fuel).stack = [])) ∧
    ∃ run, Clearing first below run [⟨.remove, ⟨ascii "a", ascii "1"⟩, 0⟩] ∧
      run.step.stack = [] ∧ run.step.failure = some (ascii "stop") ∧
      run.step.state.cache.entries = stock.drop 1 := by
  intro first below
  have hsound : first.state.cache.Sound := ⟨by decide, by decide, by decide⟩
  have hquiet : Quiet first.stack := fun _ hm => absurd hm List.not_mem_nil
  have hown {run : Run} {key : Bytes} {times : Nat} {keys : List Bytes}
      (hs : run.stack = .release key times :: [.clearing keys] ++ below) :
      ¬ run.InListener below := by
    rintro ⟨change, item, next, hwaits⟩
    simp [Run.waits_iff [.clearing keys] hs] at hwaits
  obtain ⟨hmoments, hends⟩ := tells_once (rfl : first.stack = _) hsound hquiet
  refine ⟨hends fun fuel => ?_, ?_⟩
  · match fuel with
    | 0 | 1 | 4 | 5 => exact fun _ => rfl
    | 2 | 3 => exact fun hl => absurd hl (hown rfl)
    | fuel + 6 =>
      have hlast : first.steps (fuel + 6) = first.steps 6 := by
        rw [Nat.add_comm, Run.steps_add, Run.steps_of_isDone rfl]
      rintro run ⟨change, item, next, top, above, hs, -⟩
      rw [show run.stack = [] from congrArg Run.stack hlast] at hs
      cases hs
  · have hturn : Clearing first below first.step [] := .start rfl rfl
    have hgiving := hturn.step [] rfl fun _ => rfl
    have hagain := hgiving.step [.clearing _] rfl fun hl => absurd hl (hown rfl)
    have hgone := hagain.step [.clearing _] rfl fun hl => absurd hl (hown rfl)
    have hcalled := hgone.step [.release _ 0, .clearing _] rfl fun _ => rfl
    obtain ⟨gone, left, he, ht, hlistening, hthrows, -⟩ := hmoments hcalled
    obtain ⟨hin, hstep⟩ := hthrows (ascii "stop") rfl
    have hone : gone.length = 1 := by rw [← List.length_map removal, ← ht]; rfl
    have hleft : left = stock.drop gone.length := by
      rw [show stock = gone ++ left from he.symm, List.drop_left]
    refine ⟨_, hcalled, congrArg Run.stack hstep, congrArg Run.failure hstep, ?_⟩
    rw [hstep, (hlistening hin).1, hleft, hone]

end Clearing
end StyleRegistry.CacheSession
