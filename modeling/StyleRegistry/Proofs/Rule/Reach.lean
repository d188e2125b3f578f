import StyleRegistry.Rule.Session
import StyleRegistry.Proofs.Rule.Access

/-! # Sessions on trees keep kinds apart

Whatever calls are made in a tree of containers, at whatever depth, every
container keeps its nodes under keys of their kinds. -/
namespace StyleRegistry.RuleSession

/-- The sessions that calls lead to, from an empty root container. -/
inductive Reachable : Session → Prop
  | initial : Reachable .initial
  | call {session : Session} (rules : List Bytes) (call : Call) : Reachable session →
      Reachable (session.call rules call).1

variable {session : Session}

theorem sound_onSelectors (h : session.forest.Sound) (place : Place) (declarations : Bytes)
    {change : Cache Selector → Cache Selector}
    (hc : ∀ selectors : Cache Selector, selectors.Sound → (change selectors).Sound)
    (reply : Cache Selector → Reply) :
    (session.onSelectors place declarations change reply).1.forest.Sound := by
  simp only [Session.onSelectors]
  split
  · exact h
  · exact (h.select _ hc).sound.settle

theorem sound_callIn (h : session.forest.Sound) (place : Place) (container : Container)
    (call : Call) : (session.callIn place container call).1.forest.Sound := by
  cases call with
  | add probe =>
    have hf : probe.node.Fresh := by
      cases probe with
      | style declarations => exact (Stop.block [] [] declarations).fresh_node
      | atRule rule => exact (Stop.atRule [] rule).fresh_node
    exact (h.acquire place hf).sound.settle
  | remove probe => exact (h.release place probe.key).sound.settle
  | clear => exact (h.clear place).sound.settle
  | register styles => exact (h.register place styles).sound.settle
  | unregister styles => exact (h.unregister place styles).sound.settle
  | addSelector declarations text =>
    exact sound_onSelectors h place declarations (fun _ hs => hs.acquire _) _
  | removeSelector declarations text =>
    exact sound_onSelectors h place declarations (fun _ hs => hs.release _) _
  | clearSelectors declarations =>
    exact sound_onSelectors h place declarations (fun _ _ => Cache.sound_empty) _
  | _ => exact h

theorem Reachable.sound (h : Reachable session) : session.forest.Sound := by
  induction h with
  | initial => exact .empty
  | call rules call _ ih =>
    simp only [Session.call]
    split
    · exact ih
    · exact sound_callIn ih _ _ call

end StyleRegistry.RuleSession
