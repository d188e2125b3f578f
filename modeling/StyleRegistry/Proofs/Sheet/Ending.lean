import StyleRegistry.Proofs.Sheet.Price

/-! # Every run on sheets ends

Whatever listeners and observers do, a run comes to its end within its bound. Calls,
firings and the references that a registration takes use up mass; to tell of a
change, to give back a reference and to go on to the next listener uses up the
frame. A clearing counts the references to a key when the key's turn comes: what it
counts is mass, because it still counts in the sheet's root container. -/
namespace StyleRegistry.SheetSession

open Bytes (ascii)

/-! ## Moves -/

/-- What a listener or an observer still weighs when it has fired, and what its
script does. -/
theorem callbackMass_spend {callback : Callback Call} {event : Bytes}
    (h : callback.fires event = true) :
    callbackMass callback = callbackMass callback.spend + (scriptMass callback.script + 1) := by
  obtain ⟨name, on, firings, script⟩ := callback
  simp only [Callback.spend, callbackMass]
  exact Callback.firings_spend h _

theorem Listener.mass_pos (listener : Listener) : 0 < listener.mass := by
  cases listener <;> exact Nat.succ_pos _

/-- A move leaves root containers in their seats, and lowers the price of any
stack that has the frame on top. -/
structure Frame.Lowers (frame : Frame) (world : World) (change : World × List Frame) : Prop where
  seated : change.1.Seated
  frames : ∀ other ∈ change.2, other.Seated
  price : ∀ below, price change.1 (change.2 ++ below) < price world (frame :: below)

namespace Frame

variable {world : World} {change : World × List Frame} {frame : Frame} {number next : Nat}
  {sheet : Sheet}

/-- A move may use mass up. -/
theorem Lowers.of_lighter (hs : change.1.Seated) (hf : ∀ other ∈ change.2, other.Seated)
    (hm : change.1.mass + stackMass change.2 < world.mass + frame.mass)
    (hc : ∀ m, world.mass + frame.mass ≤ m →
      tariff.costs m change.2 < Run.reserve m + frame.cost m) :
    frame.Lowers world change := by
  refine ⟨hs, hf, fun below => ?_⟩
  rw [SheetSession.price, SheetSession.price, stackMass_append, stackMass_cons]
  exact tariff.bound_lt_of_lighter (by omega) (hc _ (by omega)) below

/-- Or it goes on with the frame. -/
theorem Lowers.of_level (hs : change.1.Seated) (hf : ∀ other ∈ change.2, other.Seated)
    (hm : change.1.mass + stackMass change.2 ≤ world.mass + frame.mass)
    (hc : ∀ m, world.mass + frame.mass ≤ m → tariff.costs m change.2 < frame.cost m) :
    frame.Lowers world change := by
  refine ⟨hs, hf, fun below => ?_⟩
  rw [SheetSession.price, SheetSession.price, stackMass_append, stackMass_cons]
  exact tariff.bound_lt_of_level (by omega) (hc _ (by omega)) below

theorem lowers_drop (h : world.Seated) (frame : Frame) : frame.Lowers world (world, []) :=
  .of_level h (by simp) (Nat.le_add_right _ _) fun m _ => tariff.cost_pos m frame

theorem lowers_call (h : world.Seated) {call : Call} {calls : List Call}
    (hc : world.call call = .ok change) :
    (script (call :: calls)).Lowers world (change.1, change.2 ++ [.script calls]) := by
  have hspends := h.call hc
  have hmass := hspends.mass
  refine .of_lighter hspends.seated ?_ ?_ fun m hm => ?_
  · exact List.forall_mem_append.mpr ⟨hspends.frames, List.forall_mem_singleton.mpr trivial⟩
  · simp only [stackMass_append, stackMass_cons, stackMass_nil, mass, scriptMass]
    omega
  · have hcosts := hspends.costs m (by simp only [mass, scriptMass] at hm; omega)
    have hscript : tariff.costs m [.script calls] = 1 := rfl
    rw [Tariff.costs_append, hscript]
    exact Nat.add_lt_add_right hcosts 1

/-! ### Telling -/

theorem listener_lt (hs : world.sheet? number = some sheet) {listener : Listener}
    (hget : sheet.listeners.get? next = some listener) : next < world.mass := by
  have hlt := Subscribers.lt_mass Listener.mass Listener.mass_pos hget
  have hsheet := World.sheet_mass_le hs
  rw [Sheet.mass] at hsheet
  omega

theorem observer_lt {e : Emitter (Callback Call)} (he : world.emitter? number = some e)
    {callback : Callback Call} (hget : e.observers[next]? = some callback) : next < world.mass := by
  have hlt := (List.getElem?_eq_some_iff.mp hget).1
  have hlength := length_le_total (callbackMass · + 1) e.observers fun _ => Nat.succ_pos _
  have hemitter := le_total observersMass (List.mem_of_getElem? he)
  rw [World.mass]
  unfold observersMass at hemitter ⊢
  omega

theorem lowers_monitor (h : world.Seated) (hs : world.sheet? number = some sheet)
    {listener : Listener} (hget : sheet.listeners.get? next = some listener) (event : Event)
    {reported : World × List Frame} (hr : world.Reports reported) :
    (Frame.change number event next).Lowers world
      (reported.1, reported.2 ++ [.change number event (next + 1)]) := by
  refine .of_level (hr.seated h) ?_ ?_ fun m hm => ?_
  · exact List.forall_mem_append.mpr ⟨hr.frames, List.forall_mem_singleton.mpr trivial⟩
  · have hmass := hr.mass
    simp only [stackMass_append, stackMass_cons, stackMass_nil, mass]
    omega
  · have hnext := listener_lt hs hget
    have hcosts := hr.costs m
    have hturn := cost_change (Nat.lt_of_lt_of_le hnext (Nat.le_of_add_right_le hm)) number event
    have hlater : tariff.costs m [.change number event (next + 1)] =
      cost m (.change number event (next + 1)) := rfl
    rw [Tariff.costs_append, hlater, hturn]
    omega

theorem lowers_listenerFires (h : world.Seated) (hs : world.sheet? number = some sheet)
    {callback : Callback Call} (hget : sheet.listeners.get? next = some (.scripted callback))
    {event : Event} (hfires : callback.fires event.change.name = true) :
    (Frame.change number event next).Lowers world
      (world.updateSheet number
          ({ · with listeners := sheet.listeners.set next (.scripted callback.spend) }),
        [.script callback.script, .change number event (next + 1)]) := by
  refine .of_lighter (h.updateSheet hs (h number sheet hs)) ?_ ?_ fun m hm => ?_
  · simp [Frame.Seated]
  · have hmass := World.mass_updateSheet hs fun sheet' =>
      { sheet' with listeners := sheet.listeners.set next (.scripted callback.spend) }
    have hset := Subscribers.mass_set Listener.mass hget (.scripted callback.spend)
    have hspend := callbackMass_spend hfires
    simp only [Sheet.mass, Sheet.container, Listener.mass] at hmass hset
    simp only [stackMass_cons, stackMass_nil, mass]
    omega
  · have hnext := listener_lt hs hget
    have hturn := cost_change (Nat.lt_of_lt_of_le hnext (Nat.le_of_add_right_le hm)) number event
    simp only [Tariff.costs_cons, Tariff.costs_nil, tariff, hturn]
    simp only [cost]
    omega

theorem lowers_listen (h : world.Seated) (hs : world.sheet? number = some sheet)
    {listener : Listener} (hget : sheet.listeners.get? next = some listener) (event : Event) :
    (Frame.change number event next).Lowers world (world, [.change number event (next + 1)]) :=
  lowers_monitor h hs hget event world.reports_nothing

theorem lowers_observe (h : world.Seated) {e : Emitter (Callback Call)}
    (he : world.emitter? number = some e) {callback : Callback Call}
    (hget : e.observers[next]? = some callback) (report : Diagnostic) :
    (Frame.report number report next).Lowers world (world, [.report number report (next + 1)]) := by
  refine .of_level h (by simp [Frame.Seated]) (Nat.le_refl _) fun m hm => ?_
  have hnext := observer_lt he hget
  simp only [Tariff.costs_cons, Tariff.costs_nil, tariff, cost]
  omega

theorem lowers_observerFires (h : world.Seated) {e : Emitter (Callback Call)}
    (he : world.emitter? number = some e) {callback : Callback Call}
    (hget : e.observers[next]? = some callback) {report : Diagnostic}
    (hfires : callback.fires report.severity.name = true) :
    (Frame.report number report next).Lowers world
      (world.updateEmitter number
          ({ · with observers := e.observers.set next callback.spend }),
        [.script callback.script, .report number report (next + 1)]) := by
  have hseated : (world.updateEmitter number
    ({ · with observers := e.observers.set next callback.spend })).Seated := h
  refine .of_lighter hseated (by simp [Frame.Seated]) ?_ fun m hm => ?_
  · have hmass := World.mass_updateEmitter he fun e' =>
      { e' with observers := e.observers.set next callback.spend }
    have hset := total_modify (callbackMass · + 1) hget fun _ => callback.spend
    have hspend := callbackMass_spend hfires
    rw [← List.set_eq_modify] at hset
    simp only [observersMass] at hmass
    simp only [stackMass_cons, stackMass_nil, mass]
    omega
  · have hreserve := lt_reserve (Nat.zero_le m)
    simp only [Tariff.costs_cons, Tariff.costs_nil, tariff, cost]
    omega

theorem lowers_done (h : world.Seated) (number : Nat) (stage message : Bytes)
    {reported : World × List Frame} (hr : world.Reports reported) :
    (Frame.done number stage message).Lowers world reported := by
  refine .of_level (hr.seated h) hr.frames ?_ fun m _ => ?_
  · have hmass := hr.mass
    omega
  · have hcosts := hr.costs m
    simp only [cost]
    omega

/-! ### Taking and giving back -/

theorem seated_tell (number : Nat) (event : Option Event) :
    ∀ frame ∈ World.tell number event, frame.Seated := by
  unfold World.tell
  cases event.filter Event.isTopLevel <;> simp [Frame.Seated]

theorem Task.mass_ofChild_le (place : Place) (selector : Bytes) (child : Bytes × Block) :
    Task.mass (Task.ofChild place selector child) ≤ 6 * child.2.size := by
  unfold Task.ofChild
  split
  · exact Nat.le_refl _
  · exact Nat.sub_le _ _

theorem total_children_le (place : Place) (selector : Bytes) (children : List (Bytes × Block)) :
    total ((children.map (Task.ofChild place selector)).map Task.mass) ≤
      6 * Block.sizeAll children := by
  induction children with
  | nil => exact Nat.zero_le _
  | cons child rest ih =>
    have hchild := Task.mass_ofChild_le place selector child
    simp only [List.map_cons, total_cons, Block.sizeAll]
    omega

/-- A task weighs more than the reference that it takes and the tasks that follow. -/
theorem mass_walk_step {walk : Walk} (ht : walk.tasks ≠ []) (forest : Forest) :
    total ((walk.step forest).2.1.tasks.map Task.mass) + 3 ≤ total (walk.tasks.map Task.mass) := by
  obtain ⟨tasks, styled, hash⟩ := walk
  cases tasks with
  | nil => exact absurd rfl ht
  | cons task rest =>
    cases task with
    | block place selector block =>
      obtain ⟨declarations, children⟩ := block
      have hchildren := total_children_le place selector children
      simp only [Walk.step, Block.children, List.map_append, total_append, List.map_cons,
        total_cons, Task.mass, Block.size]
      omega
    | atRule place selector rule body =>
      have hsize : 0 < body.size := by cases body; exact Nat.succ_pos _
      simp only [Walk.step, List.map_cons, total_cons, Task.mass]
      omega

theorem lowers_walk (h : world.Seated) (hs : world.sheet? number = some sheet) {walk : Walk}
    (ht : walk.tasks ≠ []) :
    (Frame.walk number walk).Lowers world
      (world.setForest number (walk.step sheet.forest).1,
        World.tell number (walk.step sheet.forest).2.2 ++
          [.walk number (walk.step sheet.forest).2.1]) := by
  have hadds := sheet.forest.adds_step walk
  refine .of_lighter (h.updateSheet hs (hadds.seated (h number sheet hs))) ?_ ?_ fun m _ => ?_
  · exact List.forall_mem_append.mpr ⟨seated_tell _ _, List.forall_mem_singleton.mpr trivial⟩
  · have hmass := World.mass_setForest_le hs hadds
    have htasks := mass_walk_step ht sheet.forest
    simp only [stackMass_append, stackMass_tell, stackMass_cons, stackMass_nil, mass]
    omega
  · have htell := costs_tell_le m number (walk.step sheet.forest).2.2
    have hreserve := changeCost_lt_reserve m
    have hwalk : tariff.costs m [.walk number (walk.step sheet.forest).2.1] = m + 6 := rfl
    rw [Tariff.costs_append, hwalk, cost]
    omega

theorem lowers_walked (h : world.Seated) (hs : world.sheet? number = some sheet) (walk : Walk) :
    (Frame.walk number walk).Lowers world
      (world.setForest number (sheet.forest.addSelectors walk.className walk.styled),
        [.done number (ascii "register") walk.className, .answer (.text walk.className)]) := by
  have hadds : sheet.forest.Adds
      (sheet.forest.addSelectors walk.className walk.styled) 0 := Forest.adds_selectors ..
  refine .of_level (h.updateSheet hs (hadds.seated (h number sheet hs))) (by simp [Frame.Seated])
    ?_ fun m _ => ?_
  · exact (World.mass_setForest_le hs hadds).trans (Nat.le_add_right _ _)
  · simp only [Tariff.costs_cons, Tariff.costs_nil, tariff, cost]
    omega

theorem lowers_removal (h : world.Seated) {slot : Slot} {left : List Removal}
    (hf : (Frame.removals number (.one slot :: left)).Seated)
    (hs : world.sheet? number = some sheet) :
    (Frame.removals number (.one slot :: left)).Lowers world
      (world.setForest number (sheet.forest.release slot.container slot.key).1,
        World.tell number (sheet.forest.release slot.container slot.key).2 ++
          [.removals number left]) := by
  have hadds := sheet.forest.adds_release slot.container slot.key
  refine .of_level (h.updateSheet hs (hadds.seated (h number sheet hs))) ?_ ?_ fun m _ => ?_
  · refine List.forall_mem_append.mpr ⟨seated_tell _ _, List.forall_mem_singleton.mpr ?_⟩
    exact fun slot hm => hf slot (List.mem_cons_of_mem _ hm)
  · have hmass := World.mass_setForest_le hs hadds
    simp only [stackMass_append, stackMass_tell, stackMass_cons, stackMass_nil, mass]
    omega
  · have htell := costs_tell_le m number (sheet.forest.release slot.container slot.key).2
    simp only [Tariff.costs_append, Tariff.costs_cons, Tariff.costs_nil, tariff, cost,
      List.map_cons, total_cons, removalCost] at htell ⊢
    omega

/-- The references that are counted are part of the mass. -/
theorem lowers_count (h : world.Seated) {slot : Slot} {left : List Removal}
    (hf : (Frame.removals number (.all slot :: left)).Seated) {times : Nat}
    (ht : times = ((world.sheet? number).map (·.forest.slotCount slot)).getD 0) :
    (Frame.removals number (.all slot :: left)).Lowers world
      (world, [.removals number (List.replicate times (.one slot) ++ left)]) := by
  have htimes : times ≤ world.mass := by
    cases hs : world.sheet? number with
    | none => simp [ht, hs]
    | some sheet =>
      have hle := (h number sheet hs).slotCount_le (hf slot List.mem_cons_self)
      rw [ht, hs]
      exact hle.trans (World.root_mass_le hs)
  refine .of_level h ?_ (Nat.le_refl _) fun m hm => ?_
  · refine List.forall_mem_singleton.mpr fun counted hm => ?_
    rcases List.mem_append.mp hm with hm | hm
    · cases List.eq_of_mem_replicate hm
    · exact hf counted (List.mem_cons_of_mem _ hm)
  · have hones := removalCost_ones_le m (List.replicate times slot)
    rw [List.map_replicate, List.length_replicate] at hones
    have hmul := Nat.mul_le_mul_right (changeCost m + 1) (htimes.trans (Nat.le_of_add_right_le hm))
    simp only [Tariff.costs_cons, Tariff.costs_nil, tariff, cost, List.map_append, total_append,
      List.map_cons, total_cons, removalCost] at hones ⊢
    omega

theorem Move.lowers (hm : frame.Move world change) (h : world.Seated) (hf : frame.Seated) :
    frame.Lowers world change := by
  cases hm with
  | drop => exact lowers_drop h frame
  | call hc => exact lowers_call h hc
  | monitor hs hget => exact lowers_monitor h hs hget _ (world.reports_emitFrom ..)
  | listen hs hget => exact lowers_listen h hs hget _
  | listenerFires hs hget hfires => exact lowers_listenerFires h hs hget hfires
  | observe he hget => exact lowers_observe h he hget _
  | observerFires he hget hfires => exact lowers_observerFires h he hget hfires
  | walk hs ht => exact lowers_walk h hs ht
  | walked hs => exact lowers_walked h hs _
  | removal hs => exact lowers_removal h hf hs
  | count times ht => exact lowers_count h hf ht
  | done => exact lowers_done h _ _ _ (world.reports_emitFrom ..)

end Frame

/-! ## Whole runs -/

namespace Run

variable {run : Run}

/-- Every step lowers the bound and keeps root containers in their seats. -/
theorem Seated.lowers (h : run.Seated) (hd : run.isDone = false) :
    run.step.Seated ∧ run.step.bound < run.bound := by
  cases hs : run.stack with
  | nil => simp [isDone, hs] at hd
  | cons frame below =>
    have hframe := h.stack frame (hs ▸ List.mem_cons_self)
    have hbelow : ∀ other ∈ below, other.Seated := fun other ho =>
      h.stack other (hs ▸ List.mem_cons_of_mem _ ho)
    cases ht : run.throws? with
    | some message =>
      rw [step_of_throws ht]
      refine ⟨⟨h.world, by simp⟩, ?_⟩
      rw [bound_eq, bound_eq, hs]
      refine tariff.bound_nil_lt ?_ frame below
      exact Nat.add_le_add_left (Nat.zero_le _) _
    | none =>
      obtain ⟨change, hmove, hworld, hstack, -⟩ := step_move hs ht
      have hlowers := hmove.lowers h.world hframe
      refine ⟨⟨hworld ▸ hlowers.seated, fun other ho => ?_⟩, ?_⟩
      · rw [hstack] at ho
        exact (List.mem_append.mp ho).elim (hlowers.frames other) (hbelow other)
      · rw [bound_eq, bound_eq, hworld, hstack, hs]
        exact hlowers.price below

theorem step_of_isDone (h : run.isDone = true) : run.step = run := by
  rw [Run.step, List.isEmpty_iff.mp h]

theorem Seated.step (h : run.Seated) : run.step.Seated := by
  cases hd : run.isDone with
  | true => rwa [step_of_isDone hd]
  | false => exact (h.lowers hd).1

theorem steps_of_isDone (h : run.isDone = true) (fuel : Nat) : run.steps fuel = run := by
  cases fuel with
  | zero => rfl
  | succ fuel => rw [steps, if_pos h]

theorem steps_of_not_done (h : run.isDone = false) (fuel : Nat) :
    run.steps (fuel + 1) = run.step.steps fuel := by
  rw [steps, if_neg (by simp [h])]

/-- A run ends within its bound. -/
theorem Seated.ends (h : run.Seated) {fuel : Nat} (hf : run.bound ≤ fuel) :
    (run.steps fuel).isDone = true := by
  induction fuel generalizing run with
  | zero =>
    cases hd : run.isDone with
    | true => exact hd
    | false => exact absurd (h.lowers hd).2 (by omega)
  | succ fuel ih =>
    cases hd : run.isDone with
    | true =>
      rw [steps_of_isDone hd]
      exact hd
    | false =>
      obtain ⟨hstep, hlt⟩ := h.lowers hd
      rw [steps_of_not_done hd]
      exact ih hstep (by omega)

end Run

namespace World

variable {world : World}

theorem Seated.start (h : world.Seated) (call : Call) : (world.start call).Seated :=
  ⟨h, by simp [World.start, Frame.Seated]⟩

/-- A call comes to its end, by returning or by a failure, whatever those who are
told of it call in turn, and leaves a world in which the next one does. -/
theorem Seated.call_ends (h : world.Seated) (call : Call) :
    ((world.start call).steps (world.start call).bound).isDone = true ∧
      (world.run call).1.Seated :=
  ⟨(h.start call).ends (Nat.le_refl _), seated_settle _⟩

theorem Seated.calls (h : world.Seated) (calls : List Call) :
    (calls.foldl (fun world call => (world.run call).1) world).Seated := by
  induction calls generalizing world with
  | nil => exact h
  | cons call calls ih => exact ih (h.call_ends call).2

/-- **Every call of every session comes to its end.** -/
theorem session_ends (calls : List Call) (call : Call) :
    let world := calls.foldl (fun world call => (world.run call).1) World.initial
    ((world.start call).steps (world.start call).bound).isDone = true :=
  ((seated_initial.calls calls).call_ends call).1

end World
end StyleRegistry.SheetSession
