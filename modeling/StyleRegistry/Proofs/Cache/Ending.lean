import StyleRegistry.Cache.Session
import StyleRegistry.Proofs.Mass

/-! # Every run ends

A run has a bound, and every step lowers it. Calls and firings use up mass:
what they bring, references and listeners and the calls of a script, weighs
less than they do. -/
namespace StyleRegistry.CacheSession

/-- What a listener still weighs when it has fired, and what its script does. -/
theorem callbackMass_spend {callback : Callback Call} {event : Bytes}
    (h : callback.fires event = true) : Run.callbackMass callback =
      Run.callbackMass callback.spend + (Run.scriptMass callback.script + 1) := by
  obtain ⟨name, on, firings, script⟩ := callback
  simp only [Callback.spend, Run.callbackMass]
  exact Callback.firings_spend h _

namespace Run

variable {run after : Run} {frame : Frame} {rest : List Frame}

/-! ## Masses and costs -/

def stackMass (frames : List Frame) : Nat := total (frames.map Frame.mass)

@[simp] theorem stackMass_nil : stackMass [] = 0 := rfl

@[simp] theorem stackMass_cons (frame : Frame) (frames : List Frame) :
    stackMass (frame :: frames) = Frame.mass frame + stackMass frames := rfl

@[simp] theorem stackMass_append (frames rest : List Frame) :
    stackMass (frames ++ rest) = stackMass frames + stackMass rest := by
  simp [stackMass]

theorem totalMass_eq (run : Run) : run.totalMass = run.state.cache.mass +
    run.state.listeners.mass (callbackMass · + 1) + stackMass run.stack := rfl

theorem le_reserve {m : Nat} (h : 0 < m) : 6 * m + 4 ≤ reserve m := by
  have hturn : 6 ≤ m * (m + 3) + 2 := by
    have hle : 1 * (1 + 3) ≤ m * (m + 3) := by gcongr <;> omega
    omega
  have hmul := Nat.mul_le_mul_left m hturn
  rw [reserve, Nat.mul_comm 6]
  omega

def tariff : Tariff Frame where
  reserve := reserve
  cost := Frame.cost
  reserve_mono n m h := by
    unfold reserve
    gcongr
  cost_mono frame n m h := by
    cases frame with
    | script _ | answer _ => exact Nat.le_refl _
    | emission change item next =>
      simp only [Frame.cost]
      omega
    | release key times =>
      simp only [Frame.cost]
      gcongr
    | clearing keys =>
      simp only [Frame.cost]
      gcongr
  cost_pos m frame := by cases frame <;> exact Nat.succ_pos _

theorem bound_eq (run : Run) : run.bound = tariff.bound run.totalMass run.stack := rfl

theorem bound_lt_of_lighter (frames : List Frame) (hs : run.stack = frame :: rest)
    (ha : after.stack = frames ++ rest) (hm : after.totalMass < run.totalMass)
    (hc : tariff.costs run.totalMass frames <
      reserve run.totalMass + Frame.cost run.totalMass frame) : after.bound < run.bound := by
  rw [bound_eq, bound_eq, hs, ha]
  exact tariff.bound_lt_of_lighter hm hc rest

theorem bound_lt_of_level (frames : List Frame) (hs : run.stack = frame :: rest)
    (ha : after.stack = frames ++ rest) (hm : after.totalMass ≤ run.totalMass)
    (hc : tariff.costs run.totalMass frames < Frame.cost run.totalMass frame) :
    after.bound < run.bound := by
  rw [bound_eq, bound_eq, hs, ha]
  exact tariff.bound_lt_of_level hm hc rest

/-- A finished frame is dropped. -/
theorem bound_lt_of_popped (hs : run.stack = frame :: rest) (hstate : after.state = run.state)
    (ha : after.stack = rest) : after.bound < run.bound := by
  refine bound_lt_of_level [] hs ha ?_ (tariff.cost_pos _ frame)
  rw [totalMass_eq, totalMass_eq, hstate, ha, hs, stackMass_cons]
  omega

/-! ## One step -/

/-- What a call brings weighs less than the call. -/
theorem mass_call_lt {state after : State} {call : Call} {frames : List Frame}
    (h : state.call call = .ok (after, frames)) :
    after.cache.mass + after.listeners.mass (callbackMass · + 1) + stackMass frames <
      state.cache.mass + state.listeners.mass (callbackMass · + 1) + callMass call := by
  cases call with
  | add item =>
    obtain ⟨rfl, rfl⟩ := Prod.mk.inj (Except.ok.inj h)
    have hmass := Cache.mass_acquire_le state.cache item
    have htell (told : Option Item) : stackMass (State.tell .add told) = 0 := by
      cases told <;> rfl
    simp only [stackMass_append, htell, stackMass_cons, stackMass_nil, Frame.mass, callMass]
    omega
  | listen callback =>
    obtain ⟨rfl, rfl⟩ := Prod.mk.inj (Except.ok.inj h)
    simp only [Subscribers.mass_add, stackMass_cons, stackMass_nil, Frame.mass, callMass]
    omega
  | unlisten id =>
    obtain ⟨rfl, rfl⟩ := Prod.mk.inj (Except.ok.inj h)
    have hmass := Subscribers.mass_remove_le (callbackMass · + 1) state.listeners id
    simp only [stackMass_cons, stackMass_nil, Frame.mass, callMass]
    omega
  | remove key | count key | find key | clear =>
    obtain ⟨rfl, rfl⟩ := Prod.mk.inj (Except.ok.inj h)
    exact Nat.lt_succ_self _
  | fail message => cases h

theorem costs_tell_le (m : Nat) (change : Change) (item : Option Item) :
    tariff.costs m (State.tell change item) ≤ m + 1 := by
  cases item with
  | none => exact Nat.zero_le _
  | some item => exact Nat.le_refl _

/-- What is put on the stack for a call costs less than a unit of mass is worth. -/
theorem costs_call_lt {state after : State} {call : Call} {frames : List Frame} {m : Nat}
    (h : state.call call = .ok (after, frames)) (hm : 0 < m) (hsize : after.cache.mass ≤ m) :
    tariff.costs m frames + 1 < reserve m := by
  have hreserve := le_reserve hm
  cases call with
  | add item =>
    obtain ⟨rfl, rfl⟩ := Prod.mk.inj (Except.ok.inj h)
    have htell := costs_tell_le m .add
      (if state.cache.contains item.key then none else some item)
    simp only [Tariff.costs_append, Tariff.costs_cons, Tariff.costs_nil, tariff, Frame.cost]
      at htell ⊢
    omega
  | clear =>
    obtain ⟨rfl, rfl⟩ := Prod.mk.inj (Except.ok.inj h)
    have hkeys : state.cache.keys.length ≤ m := by
      have hle := state.cache.size_le_mass
      rw [Cache.keys, List.length_map]
      exact hle.trans hsize
    have hturns := Nat.mul_le_mul_right (m * (m + 3) + 2) hkeys
    simp only [Tariff.costs_cons, Tariff.costs_nil, tariff, Frame.cost, reserve]
    omega
  | remove key | count key | find key | listen callback | unlisten id =>
    obtain ⟨rfl, rfl⟩ := Prod.mk.inj (Except.ok.inj h)
    simp only [Tariff.costs_cons, Tariff.costs_nil, tariff, Frame.cost]
    omega
  | fail message => cases h

theorem bound_script {call : Call} {calls : List Call}
    (hs : run.stack = .script (call :: calls) :: rest) : run.step.bound < run.bound := by
  cases hc : run.state.call call with
  | error message =>
    have hstep : run.step = { run with stack := [], failure := some message } := by
      rw [step, hs]
      dsimp only
      rw [advance, hc]
    rw [bound_eq, bound_eq, hs, hstep]
    have hle : ({ run with stack := [], failure := some message } : Run).totalMass ≤
        run.totalMass := by
      rw [totalMass_eq, totalMass_eq, stackMass_nil]
      dsimp only
      omega
    exact tariff.bound_nil_lt hle _ rest
  | ok result =>
    obtain ⟨after, frames⟩ := result
    have hstep : run.step =
        { run with state := after, stack := frames ++ .script calls :: rest } := by
      rw [step, hs]
      dsimp only
      rw [advance, hc]
    have hlighter : run.step.totalMass < run.totalMass := by
      have hmass := mass_call_lt hc
      rw [hstep, totalMass_eq, totalMass_eq, hs]
      simp only [stackMass_append, stackMass_cons, Frame.mass, scriptMass]
      omega
    have hsize : after.cache.mass ≤ run.totalMass := by
      rw [hstep, totalMass_eq] at hlighter
      dsimp only at hlighter
      omega
    have hcosts := costs_call_lt hc (Nat.zero_lt_of_lt hlighter) hsize
    refine bound_lt_of_lighter (frames ++ [.script calls]) hs ?_ hlighter ?_
    · rw [hstep, List.append_assoc]
      rfl
    · simp only [Tariff.costs_append, Tariff.costs_cons, Tariff.costs_nil]
      exact Nat.lt_of_lt_of_le hcosts (Nat.le_add_right _ _)

theorem bound_emission {change : Change} {item : Item} {next : Nat}
    (hs : run.stack = .emission change item next :: rest) : run.step.bound < run.bound := by
  have hturn : run.step = { run with stack := rest }.visit change item next := by
    rw [step, hs]
    rfl
  cases hl : run.state.listeners.get? next with
  | none =>
    refine bound_lt_of_popped hs ?_ ?_
    · simp only [hturn, visit, hl]
    · simp only [hturn, visit, hl]
  | some callback =>
    cases hf : callback.fires change.name with
    | true =>
      have hset := Subscribers.mass_set (callbackMass · + 1) hl callback.spend
      have hspend := callbackMass_spend hf
      have hlighter : run.step.totalMass < run.totalMass := by
        rw [totalMass_eq, totalMass_eq, hturn]
        simp only [visit, hl, hf, if_true, hs, stackMass_cons, Frame.mass]
        omega
      refine bound_lt_of_lighter [.script callback.script, .emission change item (next + 1)] hs ?_
        hlighter ?_
      · simp only [hturn, visit, hl, hf, if_true]
        rfl
      · have hreserve := le_reserve (Nat.zero_lt_of_lt hlighter)
        simp only [Tariff.costs_cons, Tariff.costs_nil, tariff, Frame.cost]
        omega
    | false =>
      have hnext : next < run.totalMass := by
        have hlt := Subscribers.lt_mass (callbackMass · + 1) (fun _ => Nat.succ_pos _) hl
        rw [totalMass_eq]
        omega
      have hsame : run.step.totalMass = run.totalMass := by
        rw [totalMass_eq, totalMass_eq, hturn]
        simp only [visit, hl, hf, hs, stackMass_cons, Frame.mass]
        rfl
      refine bound_lt_of_level [.emission change item (next + 1)] hs ?_ hsame.le ?_
      · simp only [hturn, visit, hl, hf]
        rfl
      · simp only [Tariff.costs_cons, Tariff.costs_nil, tariff, Frame.cost]
        omega

theorem bound_release {key : Bytes} {times : Nat}
    (hs : run.stack = .release key (times + 1) :: rest) : run.step.bound < run.bound := by
  have hstep : run.step = { run with stack := .release key times :: rest }.release key := by
    rw [step, hs]
    rfl
  cases hv : run.state.cache.evicted? key with
  | none =>
    have hmass := run.state.cache.mass_release_le key
    have hle : run.step.totalMass ≤ run.totalMass := by
      rw [totalMass_eq, totalMass_eq, hstep, hs]
      simp only [release, hv, State.tell, Option.map_none, Option.toList_none, List.nil_append,
        stackMass_cons, Frame.mass]
      omega
    refine bound_lt_of_level [.release key times] hs ?_ hle ?_
    · simp only [hstep, release, hv]
      rfl
    · simp only [Tariff.costs_cons, Tariff.costs_nil, tariff, Frame.cost, Nat.succ_mul]
      omega
  | some item =>
    have hmass := Cache.mass_release_lt hv
    have hlighter : run.step.totalMass < run.totalMass := by
      rw [totalMass_eq, totalMass_eq, hstep, hs]
      simp only [release, hv, State.tell, Option.map_some, Option.toList_some, List.cons_append,
        List.nil_append, stackMass_cons, Frame.mass]
      omega
    refine bound_lt_of_level [.emission .remove item 0, .release key times] hs ?_ hlighter.le ?_
    · simp only [hstep, release, hv]
      rfl
    · simp only [Tariff.costs_cons, Tariff.costs_nil, tariff, Frame.cost, Nat.succ_mul]
      omega

theorem bound_clearing {key : Bytes} {keys : List Bytes}
    (hs : run.stack = .clearing (key :: keys) :: rest) : run.step.bound < run.bound := by
  have hstep : run.step = { run with
      stack := .release key (run.state.cache.count key) :: .clearing keys :: rest } := by
    rw [step, hs]
    rfl
  have hsame : run.step.totalMass = run.totalMass := by
    rw [totalMass_eq, totalMass_eq, hstep, hs]
    simp only [stackMass_cons, Frame.mass, Nat.zero_add]
  have hturn : run.state.cache.count key * (run.totalMass + 3) ≤
      run.totalMass * (run.totalMass + 3) := by
    refine Nat.mul_le_mul_right _ ((run.state.cache.count_le_mass key).trans ?_)
    rw [totalMass_eq]
    omega
  refine bound_lt_of_level [.release key (run.state.cache.count key), .clearing keys] hs ?_
    hsame.le ?_
  · rw [hstep]
    rfl
  · simp only [Tariff.costs_cons, Tariff.costs_nil, tariff, Frame.cost, List.length_cons,
      Nat.succ_mul]
    omega

/-- **Every step lowers the bound.** -/
theorem bound_step (h : run.isDone = false) : run.step.bound < run.bound := by
  obtain ⟨state, stack, log, reply, failure⟩ := run
  match stack with
  | .script (call :: calls) :: rest => exact bound_script rfl
  | .emission change item next :: rest => exact bound_emission rfl
  | .release key (times + 1) :: rest => exact bound_release rfl
  | .clearing (key :: keys) :: rest => exact bound_clearing rfl
  | .script [] :: rest | .release _ 0 :: rest | .clearing [] :: rest | .answer _ :: rest =>
    exact bound_lt_of_popped rfl rfl rfl

/-! ## Whole runs -/

theorem step_of_isDone (h : run.isDone = true) : run.step = run := by
  rw [step, List.isEmpty_iff.mp h]

theorem steps_of_isDone (h : run.isDone = true) (fuel : Nat) : run.steps fuel = run := by
  cases fuel with
  | zero => rfl
  | succ fuel => rw [steps, if_pos h]

theorem steps_of_not_done (h : run.isDone = false) (fuel : Nat) :
    run.steps (fuel + 1) = run.step.steps fuel := by
  rw [steps, if_neg (by simp [h])]

theorem steps_succ (run : Run) (fuel : Nat) : run.steps (fuel + 1) = (run.steps fuel).step := by
  induction fuel generalizing run with
  | zero =>
    cases hdone : run.isDone with
    | true => rw [steps_of_isDone hdone, steps, step_of_isDone hdone]
    | false => exact steps_of_not_done hdone 0
  | succ fuel ih =>
    cases hdone : run.isDone with
    | true => rw [steps_of_isDone hdone, steps_of_isDone hdone, step_of_isDone hdone]
    | false =>
      rw [steps_of_not_done hdone, steps_of_not_done hdone, ih run.step]

theorem steps_add (run : Run) (fuel more : Nat) :
    run.steps (fuel + more) = (run.steps fuel).steps more := by
  induction more with
  | zero => rfl
  | succ more ih => rw [← Nat.add_assoc, steps_succ, steps_succ, ih]

/-- **Every run ends.** -/
theorem isDone_steps (run : Run) {fuel : Nat} (h : run.bound ≤ fuel) :
    (run.steps fuel).isDone = true := by
  induction fuel generalizing run with
  | zero =>
    cases hdone : run.isDone with
    | true => exact hdone
    | false => exact absurd (bound_step hdone) (by omega)
  | succ fuel ih =>
    rw [steps]
    split
    · assumption
    · rename_i hdone
      have hlt := bound_step (Bool.eq_false_iff.mpr hdone)
      exact ih run.step (by omega)

end Run
end CacheSession
end StyleRegistry
