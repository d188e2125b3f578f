import StyleRegistry.Proofs.Sheet.Exception
import StyleRegistry.Proofs.Sheet.Journal

/-! # Who is told of a report

A report that an emitter accepts gets a frame of its own, which stays on the
stack, at the same place, until every observer was told. What happens above it,
other emissions and clearings of the same emitter included, is what the observer
that was told last does before it returns. The frame holds the report itself and
a place in the list of observers, so nothing that becomes of the kept reports
meanwhile changes what it tells and whom. -/
namespace StyleRegistry.SheetSession

open Bytes (ascii)

theorem Call.eq_emit {emitter : Nat} {report : Diagnostic} {call : Call}
    (h : call.deed? emitter = some (.emit report)) : call = .emit emitter report := by
  cases call with
  | emit number told =>
    obtain ⟨rfl, hdeed⟩ := Option.ite_none_right_eq_some.mp h
    rw [Deed.emit.inj (Option.some.inj hdeed)]
  | setMinimum | clearReports =>
    obtain ⟨-, hdeed⟩ := Option.ite_none_right_eq_some.mp h
    cases hdeed
  | _ => cases h

namespace Run

/-- The observer that the next step calls, with what it is told. -/
def called? (run : Run) : Option (Callback Call × Diagnostic) :=
  match run.stack with
  | .report emitter report next :: _ =>
    (run.world.emitter? emitter).bind fun e => e.observers[next]?.map fun o => (o.bare, report)
  | _ => none

variable {run : Run} {emitter next : Nat} {report : Diagnostic} {below : List Frame}
  {e : Emitter (Callback Call)}

/-! ## One step -/

theorem step_observer (hs : run.stack = .report emitter report next :: below)
    (he : run.world.emitter? emitter = some e) {callback : Callback Call}
    (hget : e.observers[next]? = some callback) :
    (∃ frames, run.step.stack = frames ++ .report emitter report (next + 1) :: below) ∧
      run.step.log = run.log ++ [.report callback.name report.text e.size] := by
  rw [step_of_cons hs]
  simp only [advance, visitObserver, he, hget]
  split
  · exact ⟨⟨[.script callback.script], rfl⟩, rfl⟩
  · exact ⟨⟨[], rfl⟩, rfl⟩

/-- When everybody was told the run goes on below. -/
theorem step_all_told (hs : run.stack = .report emitter report next :: below)
    (he : run.world.emitter? emitter = some e) (hget : e.observers[next]? = none) :
    run.step = { run with stack := below } := by
  rw [step_of_cons hs]
  simp only [advance, visitObserver, he, hget]

/-- Where an emission comes from, a call or a sheet, makes no difference to it. -/
theorem step_emit (he : run.world.emitter? emitter = some e)
    (h : run.deed? emitter = some (.emit report)) :
    ∃ rest, run.step = { run with
        world := (run.world.emit emitter report).1
        stack := (run.world.emit emitter report).2 ++ rest } ∧
      rest.filter Frame.isReport = run.tellings := by
  rw [deed?_of_some he] at h
  split at h
  · rename_i call calls below hs
    obtain rfl := Call.eq_emit h
    have hc : run.world.call (.emit emitter report) = .ok ((run.world.emit emitter report).1,
        (run.world.emit emitter report).2 ++ [.answerCount emitter]) := by
      rw [World.call, World.onEmitter, he]
      rfl
    rw [step_call hs hc]
    refine ⟨.answerCount emitter :: .script calls :: below, by simp, ?_⟩
    simp [tellings, hs, Frame.isReport]
  · obtain ⟨told, htold, hreport⟩ := Option.map_eq_some_iff.mp h
    obtain rfl : told = report := Deed.emit.inj hreport
    obtain ⟨notice, hf, hsent⟩ := Option.bind_eq_some_iff.mp htold
    have hfile : run.world.file notice = run.world.emit emitter told := by
      rcases run.world.file_cases notice with ⟨number, sent, hfile, hs⟩ | ⟨-, hs⟩
      · rw [hs] at hsent
        split at hsent
        · rename_i hn
          rw [hfile, hn, Option.some.inj hsent]
        · cases hsent
      · rw [hs] at hsent
        cases hsent
    rw [← hfile]
    exact step_files hf

end Run

/-! ## A round -/

/-- What the observers of an emitter are told of one report, from the moment on
that it has its frame, which lies on the given others. They add no observer. -/
inductive Telling (emitter : Nat) (below : List Frame) (first : Run) :
    Run → List (Callback Call × Diagnostic) → Prop
  | start {frame : Frame} : first.stack = frame :: below → Telling emitter below first first []
  | call {run : Run} {calls : List (Callback Call × Diagnostic)} {frame : Frame}
    {call : Callback Call × Diagnostic} : Telling emitter below first run calls →
      run.stack = frame :: below → run.called? = some call →
      Telling emitter below first run.step (calls ++ [call])
  /-- The observer that was called last has not returned. -/
  | inside {run : Run} {calls : List (Callback Call × Diagnostic)} {inner frame : Frame}
    {above : List Frame} : Telling emitter below first run calls →
      run.stack = inner :: above ++ frame :: below → run.observes emitter = false →
      run.throws? = none → Telling emitter below first run.step calls
  /-- It makes a call, or one does that was told of something meanwhile. -/
  | nested {run : Run} {calls : List (Callback Call × Diagnostic)} (call : Call) :
    Telling emitter below first run calls → run.listening = true →
      Telling emitter below first { run with stack := .script [call] :: run.stack } calls
  /-- It, or one that was told of something meanwhile, catches what was thrown. -/
  | caught {run : Run} {calls : List (Callback Call × Diagnostic)} {frame : Frame}
    {kept : List Frame} : Telling emitter below first run calls → kept <:+ run.stack →
      frame :: below <:+ kept → Run.listening { run with stack := kept } = true →
      Telling emitter below first { run with stack := kept } calls

/-- A report has been passed on to the observers that were called, in their
order, and its frame waits for the last of them to return. -/
structure Waits (emitter : Nat) (report : Diagnostic) (observers : List (Callback Call))
    (run : Run) (calls : List (Callback Call × Diagnostic)) (above below : List Frame) :
    Prop where
  stack : run.stack = above ++ .report emitter report calls.length :: below
  returns : above ≠ [] → calls ≠ []
  observed : ∃ e, run.world.emitter? emitter = some e ∧ e.observers.map Callback.bare = observers
  calls : calls = (observers.take calls.length).map (·, report)

namespace Waits

variable {emitter : Nat} {report : Diagnostic} {observers : List (Callback Call)} {run : Run}
  {calls : List (Callback Call × Diagnostic)} {above below : List Frame}

/-- The frame lies where it lay. -/
theorem split (h : Waits emitter report observers run calls above below) {frame : Frame}
    {others : List Frame} (hs : run.stack = others ++ frame :: below) :
    above = others ∧ frame = .report emitter report calls.length := by
  have hsplit := h.stack.symm.trans hs
  obtain ⟨habove, hframe⟩ := List.append_inj' hsplit rfl
  exact ⟨habove, (List.cons.inj hframe).1.symm⟩

theorem observed_step (h : Waits emitter report observers run calls above below)
    (ho : run.observes emitter = false) : ∃ e, run.step.world.emitter? emitter = some e ∧
      e.observers.map Callback.bare = observers := by
  obtain ⟨e, he, hobservers⟩ := h.observed
  obtain ⟨after, hafter, hbare⟩ := run.does_step emitter e he
  exact ⟨_, hafter, (hbare ho).trans hobservers⟩

/-- Whoever is called next is the next of the observers. -/
theorem call (h : Waits emitter report observers run calls above below) {frame : Frame}
    {call : Callback Call × Diagnostic} (hs : run.stack = frame :: below)
    (hc : run.called? = some call) : ∃ frames,
      Waits emitter report observers run.step (calls ++ [call]) frames below := by
  obtain ⟨-, rfl⟩ := h.split (show run.stack = [] ++ frame :: below from hs)
  obtain ⟨e, he, hobservers⟩ := h.observed
  rw [Run.called?, hs] at hc
  simp only [he, Option.bind_some] at hc
  obtain ⟨callback, hget, rfl⟩ := Option.map_eq_some_iff.mp hc
  obtain ⟨⟨frames, hframes⟩, -⟩ := Run.step_observer hs he hget
  have hnext : observers[calls.length]? = some callback.bare := by
    rw [← hobservers, List.getElem?_map, hget]
    rfl
  have hquiet : run.observes emitter = false := by
    rw [Run.observes, hs]
  refine ⟨frames, ?_, fun _ => by simp, h.observed_step hquiet, ?_⟩
  · rw [List.length_append]
    exact hframes
  · rw [List.length_append, List.length_singleton, List.take_add_one, hnext, List.map_append,
      ← h.calls]
    rfl

theorem inside (h : Waits emitter report observers run calls above below) {inner frame : Frame}
    {others : List Frame} (hs : run.stack = inner :: others ++ frame :: below)
    (ho : run.observes emitter = false) (ht : run.throws? = none) : ∃ frames,
      Waits emitter report observers run.step calls frames below := by
  obtain ⟨rfl, rfl⟩ := h.split hs
  obtain ⟨change, -, -, hstack, -⟩ := Run.step_move hs ht
  refine ⟨change.2 ++ others, ?_, fun _ => h.returns (by simp), h.observed_step ho, h.calls⟩
  rw [hstack]
  simp

theorem nested (h : Waits emitter report observers run calls above below)
    (hl : run.listening = true) (call : Call) :
    Waits emitter report observers { run with stack := .script [call] :: run.stack } calls
      (.script [call] :: above) below where
  stack := by rw [h.stack, List.cons_append]
  returns := by
    rintro - rfl
    have habove : above = [] := by
      by_contra hne
      exact h.returns hne rfl
    rw [Run.listening, h.stack, habove] at hl
    simp at hl
  observed := h.observed
  calls := h.calls

theorem caught (h : Waits emitter report observers run calls above below) {frame : Frame}
    {kept : List Frame} (hk : kept <:+ run.stack) (hf : frame :: below <:+ kept) : ∃ frames,
      Waits emitter report observers { run with stack := kept } calls frames below := by
  obtain ⟨frames, rfl⟩ := hf
  obtain ⟨dropped, hs⟩ := hk
  rw [← List.append_assoc] at hs
  obtain ⟨rfl, rfl⟩ := h.split hs.symm
  refine ⟨frames, rfl, fun hne => h.returns ?_, h.observed, h.calls⟩
  simp [hne]

end Waits

namespace Telling

variable {emitter : Nat} {report : Diagnostic} {below : List Frame} {first run : Run}
  {calls : List (Callback Call × Diagnostic)}

theorem waits (h : Telling emitter below first run calls)
    (hs : first.stack = .report emitter report 0 :: below) {e : Emitter (Callback Call)}
    (he : first.world.emitter? emitter = some e) : ∃ above,
      Waits emitter report (e.observers.map Callback.bare) run calls above below := by
  induction h with
  | start _ => exact ⟨[], hs, fun hne => absurd rfl hne, ⟨e, he, rfl⟩, rfl⟩
  | call _ hstack hcalled ih =>
    obtain ⟨above, hw⟩ := ih
    exact hw.call hstack hcalled
  | inside _ hstack hquiet hthrows ih =>
    obtain ⟨above, hw⟩ := ih
    exact hw.inside hstack hquiet hthrows
  | nested call _ hl ih =>
    obtain ⟨above, hw⟩ := ih
    exact ⟨_, hw.nested hl call⟩
  | caught _ hkept hframe _ ih =>
    obtain ⟨above, hw⟩ := ih
    exact hw.caught hkept hframe

/-- The journal is kept on while observers are told. -/
theorem journal (h : Telling emitter below first run calls) {deeds : List Deed}
    (hj : Journal emitter first deeds) : ∃ more, Journal emitter run (deeds ++ more) := by
  have step {run : Run} (ih : ∃ more, Journal emitter run (deeds ++ more)) :
      ∃ more, Journal emitter run.step (deeds ++ more) := by
    obtain ⟨more, hrun⟩ := ih
    have hnext := hrun.step
    rw [List.append_assoc] at hnext
    exact ⟨_, hnext⟩
  induction h with
  | start _ => exact ⟨[], by rwa [List.append_nil]⟩
  | call _ _ _ ih => exact step ih
  | inside _ _ _ _ ih => exact step ih
  | nested call _ hl ih =>
    obtain ⟨more, hrun⟩ := ih
    exact ⟨more, hrun.nested call hl⟩
  | caught _ hkept _ hl ih =>
    obtain ⟨more, hrun⟩ := ih
    exact ⟨more, hrun.unwind hkept (.inr hl)⟩

end Telling

/-! ## Every moment of a round -/

/-- What a report that was accepted is sure of, at each moment of its round. -/
structure Delivers (emitter : Nat) (report : Diagnostic) (observers : List (Callback Call))
    (below : List Frame) (first : Run) (deeds : List Deed) (last : Run)
    (calls : List (Callback Call × Diagnostic)) : Prop where
  journal : Journal emitter last deeds
  waits : ∃ above, Waits emitter report observers last calls above below
  /-- When the observer that was called last returns, the next one is called, if there is one. -/
  next : last.stack = .report emitter report calls.length :: below →
    match observers[calls.length]? with
    | some observer => last.called? = some (observer, report) ∧
        last.step.log = last.log ++ [.report observer.name report.text (kept deeds).length]
    | none => last.step = { last with stack := below }
  /-- Whatever is thrown comes from the observer that was called last. -/
  threw : last.throws?.isSome → ∃ thrower, calls.getLast? = some (thrower, report)
  /-- If that is caught inside the round it goes on, and else nothing is left of it. -/
  ends : ∀ rest, rest <:+ last.stack → Run.listening { last with stack := rest } = true →
    Telling emitter below first { last with stack := rest } calls ∨ rest <:+ below

theorem Waits.delivers {emitter : Nat} {report : Diagnostic} {observers : List (Callback Call)}
    {first last : Run} {calls : List (Callback Call × Diagnostic)} {above below : List Frame}
    {deeds : List Deed} (h : Waits emitter report observers last calls above below)
    (ht : Telling emitter below first last calls) (hj : Journal emitter last deeds) :
    Delivers emitter report observers below first deeds last calls where
  journal := hj
  waits := ⟨above, h⟩
  next := by
    intro hs
    obtain ⟨present, he⟩ := hj.exists_emitter
    obtain ⟨e, he', hobservers⟩ := h.observed
    obtain rfl := Option.some.inj (he.symm.trans he')
    subst hobservers
    rw [List.getElem?_map]
    cases hget : present[calls.length]? with
    | none => exact Run.step_all_told hs he hget
    | some callback =>
      refine ⟨?_, (Run.step_observer hs he hget).2⟩
      simp only [Run.called?, hs, he, hget, Option.bind_some, Option.map_some]
  threw := by
    intro hthrows
    obtain ⟨message, ht⟩ := Option.isSome_iff_exists.mp hthrows
    obtain ⟨rest, others, hs⟩ := Run.throws?_eq_some ht
    have habove : above ≠ [] := by
      rintro rfl
      have hframe := h.stack.symm.trans hs
      cases hframe
    obtain ⟨told, hlast⟩ :=
      Option.isSome_iff_exists.mp (List.getLast?_isSome.mpr (h.returns habove))
    have hm := List.mem_of_getLast? hlast
    rw [h.calls] at hm
    obtain ⟨thrower, -, rfl⟩ := List.mem_map.mp hm
    exact ⟨thrower, hlast⟩
  ends := by
    intro rest hrest hl
    have hframe : .report emitter report calls.length :: below <:+ last.stack :=
      ⟨above, h.stack.symm⟩
    rcases List.suffix_or_suffix_of_suffix hrest hframe with hless | hmore
    · rcases List.suffix_cons_iff.mp hless with rfl | hbelow
      · exact .inl (ht.caught hrest (List.suffix_refl _) hl)
      · exact .inr hbelow
    · exact .inl (ht.caught hrest hmore hl)

namespace World

variable {world : World} {emitter : Nat} {report : Diagnostic} {e : Emitter (Callback Call)}

theorem emit_of_lt (he : world.emitter? emitter = some e)
    (h : report.severity.rank < e.minimum.rank) : world.emit emitter report = (world, []) := by
  simp only [emit, he, Option.any_some, Emitter.accepts, Nat.not_le.mpr h, decide_false]
  rfl

theorem emit_of_le (he : world.emitter? emitter = some e)
    (h : e.minimum.rank ≤ report.severity.rank) : world.emit emitter report =
      (world.updateEmitter emitter (·.record report), [.report emitter report 0]) := by
  simp only [emit, he, Option.any_some, Emitter.accepts, h, decide_true, if_true]

end World

/-- **An emitter is true to its journal, whoever interferes.** At every moment
it keeps the reports that were severe enough for the minimum in force when they
were emitted, in this order, from the last clearing on. A report that is not
severe enough changes nothing and is told to nobody. One that is gets told, as
it was, to one observer after the other, each when the one before has returned,
whatever they do to the emitter meanwhile, until all were told or one throws. -/
theorem Journal.kept_and_told {emitter : Nat} {run : Run} {deeds : List Deed}
    (h : Journal emitter run deeds) : ∃ observers,
      run.world.emitter? emitter = some ⟨inForce deeds, kept deeds, observers⟩ ∧
      ∀ report, run.deed? emitter = some (.emit report) →
        (report.severity.rank < (inForce deeds).rank →
          run.step.world = run.world ∧ run.step.log = run.log ∧
            run.step.tellings = run.tellings) ∧
        ((inForce deeds).rank ≤ report.severity.rank → ∃ below,
          run.step.stack = .report emitter report 0 :: below ∧
          below.filter Frame.isReport = run.tellings ∧
          ∀ last calls, Telling emitter below run.step last calls → ∃ more,
            Delivers emitter report (observers.map Callback.bare) below run.step
              (deeds ++ .emit report :: more) last calls) := by
  obtain ⟨observers, he⟩ := h.exists_emitter
  refine ⟨observers, he, fun report hdeed => ?_⟩
  obtain ⟨rest, hstep, htellings⟩ := Run.step_emit he hdeed
  refine ⟨fun hlow => ?_, fun hsevere => ?_⟩
  · rw [hstep, World.emit_of_lt he hlow]
    exact ⟨rfl, rfl, htellings⟩
  · have hemit := World.emit_of_le he hsevere
    have hstack : run.step.stack = .report emitter report 0 :: rest := by
      rw [hstep, hemit]
      rfl
    have hafter : run.step.world.emitter? emitter =
        some ((⟨inForce deeds, kept deeds, observers⟩ : Emitter _).record report) := by
      rw [hstep, hemit, World.emitter?_updateEmitter, if_pos rfl, he]
      rfl
    have hj := h.step
    rw [hdeed, Option.toList_some] at hj
    refine ⟨rest, hstack, htellings, fun last calls htelling => ?_⟩
    obtain ⟨above, hwaits⟩ := htelling.waits hstack hafter
    obtain ⟨more, hlast⟩ := htelling.journal hj
    rw [List.append_assoc] at hlast
    exact ⟨more, hwaits.delivers htelling hlast⟩

/-! ## An observer that clears and one that throws -/

def eraser : Callback Call := ⟨ascii "eraser", none, 1, [.clearReports 0]⟩

def breaker : Callback Call := ⟨ascii "breaker", none, 1, [.fail (ascii "broken")]⟩

/-- One that is never called, as the one before it throws. -/
def bystander : Callback Call := ⟨ascii "bystander", none, 0, []⟩

def alarm : Diagnostic := ⟨.error, ascii "engine", ascii "start", ascii "smoke", 7⟩

/-- A session with an emitter that these observe. -/
def observed (observers : List (Callback Call)) : World := ⟨0, [], [⟨.info, [], observers⟩]⟩

theorem journal_observed (observers : List (Callback Call)) :
    Journal 0 ⟨observed observers, [], [], .nothing, none⟩ [] := by
  induction observers using List.reverseRecOn with
  | nil => exact .start rfl
  | append_singleton observers callback ih =>
    exact (ih.call (.observe 0 callback) rfl).steps 3

/-- The moment at which the alarm is emitted. -/
def alarming : Run := (observed [eraser, breaker, bystander]).start (.emit 0 alarm)

/-- The second of three observers is told of the alarm as it was, although the
first has cleared the emitter, and the third is not, as the second throws. -/
theorem delivers_of_alarming :
    let last := alarming.step.step.step.step.step.step
    Journal 0 alarming [] ∧ alarming.deed? 0 = some (.emit alarm) ∧
    last.world.recorded? 0 = some [] ∧ last.throws? = some (ascii "broken") ∧
    ∃ below more, Delivers 0 alarm [eraser.bare, breaker.bare, bystander.bare] below
      alarming.step (.emit alarm :: more) last [(eraser.bare, alarm), (breaker.bare, alarm)] := by
  intro last
  have hj : Journal 0 alarming [] := (journal_observed _).call (.emit 0 alarm) rfl
  obtain ⟨observers, he, hemit⟩ := Journal.kept_and_told hj
  obtain rfl : [eraser, breaker, bystander] = observers := by
    cases he
    rfl
  obtain ⟨below, hs, -, htold⟩ := (hemit alarm rfl).2 (by decide)
  obtain rfl : [.answerCount 0, .script []] = below := by
    cases hs
    rfl
  have hstart : Telling 0 _ alarming.step alarming.step [] := .start hs
  have hcalled := hstart.call hs (rfl : Run.called? _ = some (eraser.bare, alarm))
  have hcleared := hcalled.inside (rfl : Run.stack _ = .script [.clearReports 0] :: [] ++ _) rfl rfl
  have hanswered :=
    hcleared.inside (rfl : Run.stack _ = .answerCount 0 :: [.script []] ++ _) rfl rfl
  have hreturned := hanswered.inside (rfl : Run.stack _ = .script [] :: [] ++ _) rfl rfl
  have hlast := hreturned.call rfl (rfl : Run.called? _ = some (breaker.bare, alarm))
  obtain ⟨more, hdelivers⟩ := htold last _ hlast
  exact ⟨hj, rfl, rfl, rfl, _, more, hdelivers⟩

end StyleRegistry.SheetSession
