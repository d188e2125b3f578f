import StyleRegistry.Proofs.Rule.Share

/-! # Calls that wait for one another

A call that registers or undoes a tree may have to wait in the middle of its
work while others run. What it has still to do refers to the forest by places
that were taken earlier. Other calls may evict nodes meanwhile, but none that
the share of a waiting call refers to, and every place that a waiting call has
kept lies on the way of its own share. So its places stay anchored, and it goes
on as if nobody had been there. -/
namespace StyleRegistry

open Forest (bodyIn?)

/-! ## Waiting calls -/

inductive StyleCall where
  | register (styles : Layer)
  | unregister (styles : Layer)

/-- What a call has still to do. -/
inductive Rest where
  | walk (walk : Walk)
  | removals (left : List Removal)

/-- A call that is under way, and the stops whose references it has at present. -/
structure Work where
  call : StyleCall
  rest : Rest
  share : List Stop

/-- A walk with the stops it has made, each with the forest that it was made in,
and the duties that are left. -/
structure Walk.Midway (forest : Forest) (styles : Layer) (walk : Walk)
    (visits : List (Forest × Stop)) (duties : List Walk.Duty) : Prop where
  stops : styles.stops = visits.map Prod.snd ++ duties.flatMap Walk.Duty.stops
  tasks : walk.tasks = duties.map Prod.snd
  styled : walk.styled = visits.filterMap fun visit => visit.1.styled? visit.2
  hash : walk.hash = Hash.chain 0 ((visits.map Prod.snd).flatMap Stop.texts)
  standing : ∀ duty ∈ duties,
    Covers ((visits.map Prod.snd).map Stop.slot) (duty.1.map Key.atRule) ∧
      forest.Anchored duty.2.place (duty.1.map Key.atRule)
  visited : ∀ visit ∈ visits,
    forest.Anchored (visit.1.placeOf visit.2) (visit.2.path ++ [visit.2.key])

/-- The work of a call agrees with its tree and with the forest as it is. -/
inductive Work.Stands (forest : Forest) : Work → Prop
  | register {styles : Layer} {walk : Walk} {visits : List (Forest × Stop)}
    {duties : List Walk.Duty} : walk.Midway forest styles visits duties →
      Stands forest ⟨.register styles, .walk walk, visits.map Prod.snd⟩
  | unregister {styles : Layer} {left : List Removal} {share : List Stop} {met : Forest} :
    share <+: styles.stops → left = met.removalsOf share.reverse →
    (∀ stop ∈ share, forest.Anchored (met.place ⟨none, stop.path⟩) stop.path) →
      Stands forest ⟨.unregister styles, .removals left, share⟩

/-- The root container has what the live registrations and the waiting calls
refer to, and all these calls can go on. -/
structure Underway (forest : Forest) (works : List Work) (live : Multiset Layer) : Prop where
  holding : Holding forest.root live (works.map Work.share)
  stands : ∀ work ∈ works, work.Stands forest

/-! ## Places that are kept -/

/-- Places whose ways the slots cover are anchored as before. -/
def Forest.Keeps (forest after : Forest) (slots : List (List Bytes × Bytes)) : Prop :=
  ∀ place way, Covers slots way → forest.Anchored place way → after.Anchored place way

theorem Forest.keeps_root (forest : Forest) (root : Container)
    (slots : List (List Bytes × Bytes)) : forest.Keeps ⟨root, forest.evictions⟩ slots :=
  fun _ _ _ ha => ha.of_same rfl

theorem Walk.Midway.mono {forest after : Forest} {styles : Layer} {walk : Walk}
    {visits : List (Forest × Stop)} {duties : List Walk.Duty}
    (h : walk.Midway forest styles visits duties)
    (hk : forest.Keeps after ((visits.map Prod.snd).map Stop.slot)) :
    walk.Midway after styles visits duties where
  stops := h.stops
  tasks := h.tasks
  styled := h.styled
  hash := h.hash
  standing duty hd := by
    obtain ⟨hc, ha⟩ := h.standing duty hd
    exact ⟨hc, hk _ _ hc ha⟩
  visited visit hv := by
    have hm : visit.2 ∈ visits.map Prod.snd := List.mem_map_of_mem hv
    have hp : visits.map Prod.snd <+: styles.stops := h.stops ▸ List.prefix_append _ _
    have hc := (Layer.covers_of_mem hp hm).child (List.mem_map_of_mem hm)
    exact hk _ _ hc (h.visited visit hv)

theorem Work.Stands.mono {forest after : Forest} {work : Work} (h : work.Stands forest)
    (hk : forest.Keeps after (work.share.map Stop.slot)) : work.Stands after := by
  cases h with
  | register hm => exact .register (hm.mono hk)
  | unregister hp hl ha =>
    exact .unregister hp hl fun stop hs => hk _ _ (Layer.covers_of_mem hp hs) (ha stop hs)

/-! ## Going on -/

/-- A stop that is made moves no place. -/
theorem Forest.Anchored.visit {forest : Forest} {place : Place} {way : List Bytes}
    (h : forest.Anchored place way) (stop : Stop) : (forest.visit stop).1.Anchored place way := by
  rw [Forest.visit_fst]
  exact h.of_same rfl

/-- The way to the node of a stop is covered once the stop is made. -/
theorem Covers.visit {share : List Stop} {stop : Stop}
    (h : Covers (share.map Stop.slot) stop.path) :
    Covers ((share ++ [stop]).map Stop.slot) (stop.path ++ [stop.key]) := by
  refine (h.append [stop]).child ?_
  exact List.mem_map_of_mem (List.mem_append_right _ List.mem_cons_self)

/-- A walk that goes on makes the next stop of its tree. -/
theorem Walk.Midway.step {forest : Forest} {styles : Layer} {walk : Walk}
    {visits : List (Forest × Stop)} {duty : Walk.Duty} {duties : List Walk.Duty}
    (h : walk.Midway forest styles visits (duty :: duties)) :
    ∃ (stop : Stop) (added : List Walk.Duty),
      visits.map Prod.snd ++ [stop] <+: styles.stops ∧
      (Walk.step forest walk).1 = (forest.visit stop).1 ∧
      (Walk.step forest walk).2.1.Midway (forest.visit stop).1 styles
        (visits ++ [(forest, stop)]) (added ++ duties) := by
  obtain ⟨hcover, hanchor⟩ := h.standing duty List.mem_cons_self
  obtain ⟨stop, added, hrules, hs, hadded, hstep⟩ := Walk.step_anchored h.tasks hanchor
  have hpath : stop.path = duty.1.map Key.atRule := congrArg (List.map Key.atRule) hrules
  have hshare : (visits ++ [(forest, stop)]).map Prod.snd = visits.map Prod.snd ++ [stop] := by
    rw [List.map_append]
    rfl
  have hstops : styles.stops =
      (visits.map Prod.snd ++ [stop]) ++ (added ++ duties).flatMap Walk.Duty.stops := by
    rw [h.stops, List.flatMap_cons, hs, List.flatMap_append, List.append_assoc]
    rfl
  refine ⟨stop, added, hstops ▸ List.prefix_append _ _, by rw [hstep], ?_⟩
  rw [hstep]
  refine ⟨hshare ▸ hstops, rfl, ?_, ?_, ?_, ?_⟩
  · rw [List.filterMap_append, ← h.styled, Walk.after, List.filterMap_cons]
    cases stop <;> rfl
  · rw [hshare, List.flatMap_append, List.flatMap_singleton, Walk.after, h.hash, Hash.chain,
      Hash.chain, Hash.chain, List.foldl_append]
  · intro next hd
    rw [hshare]
    rcases List.mem_append.mp hd with hd | hd
    · rcases hadded next hd with ⟨hr, hp⟩ | ⟨hway, hat⟩
      · rw [hr, hp]
        exact ⟨hcover.append [stop], hanchor.visit stop⟩
      · have ha : forest.Anchored next.2.place (stop.path ++ [stop.key]) := by
          rw [← hway, show next.2.place = _ from hat]
          exact Forest.anchored_place _ _
        rw [hway]
        exact ⟨Covers.visit (hpath ▸ hcover), ha.visit stop⟩
    · obtain ⟨hc, ha⟩ := h.standing next (List.mem_cons_of_mem _ hd)
      exact ⟨hc.append [stop], ha.visit stop⟩
  · intro visit hv
    rcases List.mem_append.mp hv with hv | hv
    · exact (h.visited visit hv).visit stop
    · obtain rfl := List.mem_singleton.mp hv
      exact (Forest.anchored_place _ _).visit stop

namespace Underway

variable {forest : Forest} {works : List Work} {live : Multiset Layer} {styles : Layer}
  {call : StyleCall} {walk : Walk} {share : List Stop}

theorem ofBalanced (h : Balanced forest.root live) : Underway forest [] live where
  holding := .ofBalanced h
  stands := by simp

/-! ## Registering -/

theorem beginRegister (h : Underway forest works live) (styles : Layer) :
    Underway forest
      (⟨.register styles, .walk (.start (forest.place .root) styles.compile), []⟩ :: works)
      live where
  holding := h.holding.begin
  stands work hw := by
    let duty : Walk.Duty := ([], .block (forest.place .root) Selector.root styles.compile)
    rcases List.mem_cons.mp hw with rfl | hw
    · refine .register (show Walk.Midway forest styles _ [] [duty] from
        ⟨?_, rfl, rfl, rfl, ?_, by simp⟩)
      · rw [List.flatMap_singleton]
        rfl
      · intro d hd
        obtain rfl := List.mem_singleton.mp hd
        exact ⟨.nil _, Forest.anchored_place _ _⟩
    · exact h.stands work hw

theorem take (h : Underway forest (⟨call, .walk walk, share⟩ :: works) live)
    (ht : walk.tasks ≠ []) :
    ∃ styles stop, call = .register styles ∧ stop ∈ styles.stops ∧
      (bodyIn? forest.root stop.path).isSome ∧
      (Walk.step forest walk).1 = (forest.visit stop).1 ∧
      Underway (Walk.step forest walk).1
        (⟨call, .walk (Walk.step forest walk).2.1, share ++ [stop]⟩ :: works) live := by
  obtain ⟨hholding, hstands⟩ := h
  cases hstands _ List.mem_cons_self with
  | @register styles _ visits duties hm =>
    cases duties with
    | nil => exact absurd hm.tasks ht
    | cons duty duties =>
      obtain ⟨stop, added, hp, hafter, hnext⟩ := hm.step
      have hmem : stop ∈ styles.stops := hp.subset (by simp)
      refine ⟨styles, stop, rfl, hmem, hholding.reaches hp, hafter, ?_, ?_⟩
      · rw [hafter, Forest.visit_fst]
        exact hholding.take hp
      · intro work hw
        rw [hafter]
        rcases List.mem_cons.mp hw with rfl | hw
        · have hstand := Work.Stands.register hnext
          rw [List.map_append] at hstand
          exact hstand
        · rw [Forest.visit_fst]
          exact (hstands work (List.mem_cons_of_mem _ hw)).mono (forest.keeps_root _ _)

/-- A walk with nothing left gives each block its selector. -/
theorem finishRegister (h : Underway forest (⟨call, .walk walk, share⟩ :: works) live)
    (ht : walk.tasks = []) :
    ∃ styles, call = .register styles ∧
      let root := forest.root.selectEach Container.grant styles.className styles.stops
      (∀ stop ∈ styles.stops, forest.root.holds stop.path stop.key = true) ∧
      forest.addSelectors walk.className walk.styled = ⟨root, forest.evictions⟩ ∧
      Underway ⟨root, forest.evictions⟩ works (styles ::ₘ live) := by
  obtain ⟨hholding, hstands⟩ := h
  cases hstands _ List.mem_cons_self with
  | @register styles _ visits duties hm =>
    have hd : duties = [] := List.map_eq_nil_iff.mp (hm.tasks.symm.trans ht)
    have hs : visits.map Prod.snd = styles.stops := by
      rw [hm.stops, hd, List.flatMap_nil, List.append_nil]
    have hn : walk.className = styles.className := by
      rw [Walk.className, hm.hash, hs]
      rfl
    refine ⟨styles, rfl, ?_, ?_, ?_, ?_⟩
    · intro stop hstop
      exact hholding.holds List.mem_cons_self _ (List.mem_map_of_mem (hs ▸ hstop))
    · rw [hn, hm.styled, ← hs]
      exact Forest.foldl_selectStyled_visits hm.visited Container.grant styles.className forest.root
    · exact Holding.registered (hs ▸ hholding)
    · intro work hw
      exact (hstands work (List.mem_cons_of_mem _ hw)).mono (forest.keeps_root _ _)

/-! ## Undoing -/

/-- The walk that undoes a live registration finds all of it. -/
theorem beginUnregister (h : Underway forest works (styles ::ₘ live)) :
    let root := forest.root.selectEach Container.revoke styles.className styles.stops
    let found := forest.replay (some (forest.place .root)) Selector.root .nothing styles.compile
    forest.removeSelectors found.className found.styled = ⟨root, forest.evictions⟩ ∧
      Underway ⟨root, forest.evictions⟩
        (⟨.unregister styles, .removals found.removals, styles.stops⟩ :: works) live := by
  have hn : Hash.text (Hash.chain 0 styles.texts) = styles.className := rfl
  have hremovals : (styles.stops.map forest.slotOf).reverse.map Removal.one =
      forest.removalsOf styles.stops.reverse := by
    rw [← List.map_reverse, List.map_map]
    rfl
  simp only [Forest.replay_top, h.holding.held_stops, Found.className, Found.removals, hn,
    hremovals]
  refine ⟨Forest.removeSelectors_styled _ _, h.holding.undoing, ?_⟩
  intro work hw
  rcases List.mem_cons.mp hw with rfl | hw
  · refine .unregister List.prefix_rfl rfl ?_
    intro stop _
    exact (forest.anchored_place stop.path).of_same rfl
  · exact (h.stands work hw).mono (forest.keeps_root _ _)

/-- An undoing that goes on gives back what its tree refers to last. No place of
a waiting call is lost: all that its share refers to is still held. -/
theorem give {removal : Removal} {left : List Removal}
    (h : Underway forest (⟨call, .removals (removal :: left), share⟩ :: works) live) :
    ∃ (slot : Slot) (path : List Bytes) (rest : List Stop), removal = .one slot ∧
      (forest.release slot.container slot.key).1.root = forest.root.releaseAt path slot.key ∧
      Underway (forest.release slot.container slot.key).1
        (⟨call, .removals left, rest⟩ :: works) live := by
  obtain ⟨hholding, hstands⟩ := h
  cases hstands _ List.mem_cons_self with
  | @unregister _ _ _ met hp hl ha =>
    cases share using List.reverseRecOn with
    | nil => cases hl
    | append_singleton share stop =>
      rw [List.reverse_concat] at hl
      obtain ⟨rfl, rfl⟩ := List.cons.inj hl
      have hanchor := ha stop (List.mem_append_right _ List.mem_cons_self)
      have hroot := Forest.root_release hanchor.tracks stop.key
      have hheld := hholding.give
      have hkeeps : ∀ other ∈ share :: works.map Work.share,
          forest.Keeps (forest.release (met.place ⟨none, stop.path⟩) stop.key).1
            (other.map Stop.slot) := by
        intro other ho place way hc hplace
        refine hanchor.release hholding.wellFormed stop.key hplace ?_
        intro hway
        exact hheld.holds ho _ (hc _ _ hway)
      refine ⟨_, stop.path, share, rfl, hroot, hroot ▸ hheld, ?_⟩
      intro work hw
      rcases List.mem_cons.mp hw with rfl | hw
      · refine .unregister ((List.prefix_append _ _).trans hp) rfl ?_
        intro other ho
        have hc := Layer.covers_of_mem ((List.prefix_append _ _).trans hp) ho
        exact hkeeps share List.mem_cons_self _ _ hc (ha other (List.mem_append_left _ ho))
      · refine (hstands work (List.mem_cons_of_mem _ hw)).mono (hkeeps _ ?_)
        exact List.mem_cons_of_mem _ (List.mem_map_of_mem hw)

theorem finishUnregister (h : Underway forest (⟨call, .removals [], share⟩ :: works) live) :
    ∃ styles, call = .unregister styles ∧ Underway forest works live := by
  obtain ⟨hholding, hstands⟩ := h
  cases hstands _ List.mem_cons_self with
  | unregister hp hl ha =>
    have hs : share = [] := by simpa [Forest.removalsOf] using hl.symm
    refine ⟨_, rfl, ?_, fun work hw => hstands work (List.mem_cons_of_mem _ hw)⟩
    rw [hs] at hholding
    exact hholding.finish

end Underway
end StyleRegistry
