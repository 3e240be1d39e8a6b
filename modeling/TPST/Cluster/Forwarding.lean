import TPST.Cluster.Holders
import TPST.Server.Triggers

/-!
# The matching rule on the way

`publishMultiServer` and `publishMultiGroup` take the events and the metadata of a publish, but no
match type: what they send is to be matched by `"NAME"`. So the servers a client's publish reaches
match it as the first one does exactly if it is published by name, or nothing is sent
(`matchedAlike_iff`).

Where the rule and the metadata are the same, two subscriptions that agree but for the client are
triggered by the same events, on whatever server they are (`Message.triggers_congr`).
-/

namespace TPST

open Std

/-! ## Subscriptions that agree -/

/-- Two wrappers hold the same subscription in the same state, for clients that may differ. -/
structure PubsubWrapper.Twin (w w' : PubsubWrapper) : Prop where
  subMetadata : w.subMetadata = w'.subMetadata
  matchType : w.matchType = w'.matchType
  iftrigure : w.iftrigure = w'.iftrigure
  publishedEvent : w.publishedEvent = w'.publishedEvent
  requiredeventMap : w.requiredeventMap = w'.requiredeventMap

section Twins

variable {w w' : PubsubWrapper}

theorem checkIfTriggure_twin (h : w.Twin w') : checkIfTriggure w = checkIfTriggure w' := by
  rw [checkIfTriggure, checkIfTriggure, h.requiredeventMap, h.publishedEvent]

theorem checkIfTriggureMetaGrid_twin (h : w.Twin w') (md : String) :
    checkIfTriggureMetaGrid w md = checkIfTriggureMetaGrid w' md := by
  rw [checkIfTriggureMetaGrid, checkIfTriggureMetaGrid, h.subMetadata]

theorem twin_countPublish (h : w.Twin w') (e : String) :
    (countPublish e w).Twin (countPublish e w') where
  subMetadata := h.subMetadata
  matchType := h.matchType
  iftrigure := h.iftrigure
  publishedEvent := by
    simp only [countPublish, PubsubWrapper.published, h.publishedEvent]
  requiredeventMap := h.requiredeventMap

theorem twin_markTriggered (h : w.Twin w') (md : String) :
    (markTriggered md w).Twin (markTriggered md w') where
  subMetadata := h.subMetadata
  matchType := h.matchType
  iftrigure := rfl
  publishedEvent := h.publishedEvent
  requiredeventMap := h.requiredeventMap

/-- A visit does the same to both. -/
theorem twin_visited (h : w.Twin w') (mt md e : String) :
    (visited mt md e w).Twin (visited mt md e w') := by
  by_cases hn : mt = "NAME"
  · subst hn
    rw [visited_NAME, visited_NAME, checkIfTriggure_twin (twin_countPublish h e)]
    by_cases hmatch : checkIfTriggure (countPublish e w') = true
    · rw [if_pos hmatch, if_pos hmatch]
      exact twin_markTriggered (twin_countPublish h e) md
    · rw [if_neg hmatch, if_neg hmatch]
      exact twin_countPublish h e
  · by_cases hg : mt = "META_GRID"
    · rw [visited, visited, visitWrapper, visitWrapper, if_neg hn, if_neg hn, if_pos hg, if_pos hg,
        checkIfTriggureMetaGrid_twin h md]
      cases checkIfTriggureMetaGrid w' md with
      | error x => exact h
      | ok b =>
        cases b with
        | false => exact h
        | true => exact twin_markTriggered h md
    · rwa [visited_other hn hg, visited_other hn hg]

theorem twin_visits (h : w.Twin w') (mt md : String) (es : List String) :
    (es.foldl (fun w e => visited mt md e w) w).Twin
      (es.foldl (fun w e => visited mt md e w) w') := by
  induction es generalizing w w' with
  | nil => exact h
  | cons e es ih => exact ih (twin_visited h mt md e)

end Twins

/-! ## What a message does to a subscription -/

namespace Message

/-- The events that the walk for a message brings to the wrapper at `p`, up to the first visit
that faults. -/
def eventsTo (m : Message) (s : Store) (p : Place) : List String :=
  ((s.completed (requestMatchType m.matchType) m.metadata (s.visits m.eventList)).filter
    fun v => v.index = p.1 ∧ v.client = p.2).map Visit.event

/-- The walk for a message leaves the wrapper at `p` triggered. -/
def Triggers (m : Message) (s : Store) (p : Place) : Prop :=
  Triggered m.eventList m.matchType m.metadata s p

variable {m m' : Message} {s s' : Store} {p p' : Place} {w w' : PubsubWrapper}

theorem triggers_iff (hw : s.wrapper? p.1 p.2 = some w) :
    m.Triggers s p ↔ ((m.eventsTo s p).foldl
      (fun w e => visited (requestMatchType m.matchType) m.metadata e w) w).iftrigure = true := by
  rw [Triggers, Triggered, wrapper?_pubsubPublish, hw, eventsTo, List.foldl_map]
  simp only [Option.map_some, Option.some.injEq, exists_eq_left']

/-- **Messages to be matched alike trigger alike**: of two subscriptions that agree and that the
same events come to, both are triggered or neither. -/
theorem triggers_congr (hrule : requestMatchType m.matchType = requestMatchType m'.matchType)
    (hmeta : m.metadata = m'.metadata) (hw : s.wrapper? p.1 p.2 = some w)
    (hw' : s'.wrapper? p'.1 p'.2 = some w') (htwin : w.Twin w')
    (hevents : m.eventsTo s p = m'.eventsTo s' p') : m.Triggers s p ↔ m'.Triggers s' p' := by
  rw [triggers_iff hw, triggers_iff hw', hrule, hmeta, hevents]
  rw [(twin_visits htwin _ _ _).iftrigure]

end Message

/-- Wherever a client's publish at `s₀` is delivered, it is matched by the rule and the metadata of
the client's request, so that subscriptions that agree are triggered alike. -/
structure MatchedAlike (T : Topology) (store : String → Store) (s₀ : String)
    (eventList : List String) (matchType metadata : String) : Prop where
  same_rule : ∀ net, Net.Run T (.start store s₀ eventList matchType metadata) net →
    ∀ m ∈ net.delivered,
      requestMatchType m.matchType = requestMatchType matchType ∧ m.metadata = metadata
  same_triggers : ∀ net, Net.Run T (.start store s₀ eventList matchType metadata) net →
    ∀ m ∈ net.delivered, ∀ m' ∈ net.delivered, ∀ (s s' : Store) (p p' : Place)
      (w w' : PubsubWrapper), s.wrapper? p.1 p.2 = some w → s'.wrapper? p'.1 p'.2 = some w' →
      w.Twin w' → m.eventsTo s p = m'.eventsTo s' p' → (m.Triggers s p ↔ m'.Triggers s' p')

/-- The server at an address knows no other to send a client's publish to. -/
def Topology.Alone (T : Topology) (addr : String) : Prop :=
  ∀ member, T.member? addr = some member →
    (∀ w ∈ T.workers member.clusterDir, w = addr) ∧
      (member.status = .coordinator → ∀ c ∈ member.coordinatorAddrSet, c = addr)

/-! ## Runs -/

section Runs

variable {T : Topology} {store : String → Store} {s₀ matchType metadata : String}
  {eventList : List String} {net : Net} {m m' : Message}

theorem metadata_of_mem_react (h : m' ∈ react T m) : m'.metadata = m.metadata := by
  obtain ⟨_, -, ⟨-, _, -, rfl⟩ | ⟨-, -, _, -, rfl⟩⟩ := mem_react_cases h <;> rfl

/-- What a message sends on inherits holds of every message of a run. -/
theorem forall_messages {P : Message → Prop} {net₀ : Net}
    (hreact : ∀ m m', P m → m' ∈ react T m → P m')
    (hstart : ∀ m ∈ net₀.delivered + net₀.inFlight, P m) (hrun : Net.Run T net₀ net) :
    ∀ m ∈ net.delivered + net.inFlight, P m := by
  induction hrun with
  | refl => exact hstart
  | @tail net _ _ hstep ih =>
    cases hstep with
    | @deliver m hm =>
      intro m' hm'
      have hPm : P m := ih m (Multiset.mem_add.2 (.inr hm))
      rw [Net.deliver, Multiset.mem_add, Multiset.mem_cons, Multiset.mem_add] at hm'
      rcases hm' with (rfl | hm') | hm' | hm'
      · exact hPm
      · exact ih m' (Multiset.mem_add.2 (.inl hm'))
      · exact ih m' (Multiset.mem_add.2 (.inr (Multiset.mem_of_mem_erase hm')))
      · split at hm'
        · exact absurd hm' (Multiset.notMem_zero m')
        · exact hreact m m' hPm hm'

/-- A client's publish is sent to nobody just when the server is alone. -/
theorem react_client_eq_nil (hsource : m.source = .client) : react T m = [] ↔ T.Alone m.dest := by
  cases hmember : T.member? m.dest with
  | none => simp [react, Topology.Alone, hmember]
  | some member =>
    rw [react_client hmember hsource, List.append_eq_nil_iff, publishMultiServer,
      List.map_eq_nil_iff, List.filter_eq_nil_iff]
    unfold Topology.Alone
    simp only [hmember, Option.some.injEq, forall_eq', decide_eq_true_eq, not_not]
    apply and_congr Iff.rfl
    by_cases hcoordinator : member.status = .coordinator
    · simp [hcoordinator, publishMultiGroup]
    · simp [hcoordinator]

/-- A client's publish that faults, or that the server has nobody to send to, goes no further. -/
theorem delivered_of_stays (hstays : ¬ (store s₀).FaultFree (requestMatchType matchType) metadata
      eventList ∨ T.Alone s₀)
    (hrun : Net.Run T (.start store s₀ eventList matchType metadata) net) :
    net = .start store s₀ eventList matchType metadata ∨
      net.inFlight = 0 ∧ net.delivered = {⟨s₀, eventList, .client, metadata, matchType⟩} := by
  have hsent : (if (⟨s₀, eventList, .client, metadata, matchType⟩ : Message).Faults (store s₀)
      then 0 else (react T ⟨s₀, eventList, .client, metadata, matchType⟩ : Multiset Message)) =
        0 := by
    by_cases hfaults : (⟨s₀, eventList, .client, metadata, matchType⟩ : Message).Faults (store s₀)
    · rw [if_pos hfaults]
    · rw [Message.Faults, Bool.not_eq_true, isFault_pubsubPublish_eq_false] at hfaults
      rcases hstays with hfault | halone
      · exact absurd hfaults hfault
      · rw [(react_client_eq_nil rfl).2 halone]
        simp
  induction hrun with
  | refl => exact .inl rfl
  | @tail net _ _ hstep ih =>
    cases hstep with
    | @deliver m hm =>
      right
      rcases ih with rfl | ⟨hdone, -⟩
      · obtain rfl := Multiset.mem_singleton.1 hm
        constructor
        · rw [Net.deliver, Net.start, Multiset.erase_singleton, zero_add]
          exact hsent
        · rfl
      · exact absurd hm (hdone ▸ Multiset.notMem_zero m)

/-- A publish that is sent on at all is matched alike only if it is published by name. -/
theorem matchType_eq_of_matchedAlike
    (halike : MatchedAlike T store s₀ eventList matchType metadata)
    (hfault : (store s₀).FaultFree (requestMatchType matchType) metadata eventList)
    (halone : ¬ T.Alone s₀) : requestMatchType matchType = "NAME" := by
  set m₀ : Message := ⟨s₀, eventList, .client, metadata, matchType⟩ with hm₀
  obtain ⟨m, hm⟩ := List.exists_mem_of_ne_nil _
    (mt (react_client_eq_nil (T := T) (m := m₀) rfl).1 halone)
  -- the client's message arrives, then one of those it was sent on as
  have hfirst : Net.Step T (.start store s₀ eventList matchType metadata)
      ((Net.start store s₀ eventList matchType metadata).deliver T m₀) :=
    .deliver (Multiset.mem_singleton_self m₀)
  have hsent : m ∈ ((Net.start store s₀ eventList matchType metadata).deliver T m₀).inFlight := by
    have hfaults : ¬ m₀.Faults (store m₀.dest) := by
      rw [Message.Faults, Bool.not_eq_true, isFault_pubsubPublish_eq_false]
      exact hfault
    rw [Net.deliver, Net.start, if_neg hfaults, Multiset.mem_add]
    exact .inr (Multiset.mem_coe.2 hm)
  have hrun := (Relation.ReflTransGen.single hfirst).tail (Net.Step.deliver hsent)
  have hrule := (halike.same_rule _ hrun m (by simp [Net.deliver])).1
  rw [← hrule, matchType_of_mem_react hm]
  rfl

/-- **When a publish is matched alike everywhere.** The publish is by name, or it faults where the
client sent it, or that server has nobody to send it to. -/
theorem matchedAlike_iff :
    MatchedAlike T store s₀ eventList matchType metadata ↔
      requestMatchType matchType = "NAME" ∨
        ¬ (store s₀).FaultFree (requestMatchType matchType) metadata eventList ∨ T.Alone s₀ := by
  constructor
  · intro halike
    by_contra h
    rw [not_or, not_or, not_not] at h
    exact h.1 (matchType_eq_of_matchedAlike halike h.2.1 h.2.2)
  · intro h
    have hrule : ∀ net, Net.Run T (.start store s₀ eventList matchType metadata) net →
        ∀ m ∈ net.delivered,
          requestMatchType m.matchType = requestMatchType matchType ∧ m.metadata = metadata := by
      intro net hrun m hm
      rcases h with hname | hstays
      · apply forall_messages (P := fun m =>
          requestMatchType m.matchType = requestMatchType matchType ∧ m.metadata = metadata)
          _ _ hrun m (Multiset.mem_add.2 (.inl hm))
        · rintro m m' ⟨-, hmeta⟩ hm'
          rw [matchType_of_mem_react hm', hname, metadata_of_mem_react hm']
          exact ⟨rfl, hmeta⟩
        · intro m hm
          rw [Net.start, zero_add, Multiset.mem_singleton] at hm
          rw [hm]
          exact ⟨rfl, rfl⟩
      · rcases delivered_of_stays hstays hrun with rfl | ⟨-, hdelivered⟩
        · exact absurd hm (Multiset.notMem_zero m)
        · rw [hdelivered, Multiset.mem_singleton] at hm
          rw [hm]
          exact ⟨rfl, rfl⟩
    refine ⟨hrule, fun net hrun m hm m' hm' s s' p p' w w' hw hw' htwin hevents => ?_⟩
    obtain ⟨hrule₁, hmeta₁⟩ := hrule net hrun m hm
    obtain ⟨hrule₂, hmeta₂⟩ := hrule net hrun m' hm'
    exact Message.triggers_congr (hrule₁.trans hrule₂.symm) (hmeta₁.trans hmeta₂.symm) hw hw'
      htwin hevents

/-- A publish by box at a coordinator is matched by name at its worker. -/
theorem matchedAlike_fails :
    ¬ ∀ (T : Topology) (store : String → Store) (s₀ : String) (member : Member)
      (eventList : List String) (matchType metadata : String), T.WellPlaced →
        T.member? s₀ = some member → MatchedAlike T store s₀ eventList matchType metadata := by
  intro h
  have hmember : (twoGroups.topology fun _ => ∅).member? "n0:50051" =
      some (twoGroups.member ∅ 0) := member?_of_mem (D := twoGroups) (r := 0) (by decide)
  have halike := h (twoGroups.topology fun _ => ∅) (fun _ => .empty) "n0:50051" _ ["e"]
    "META_GRID" "GRID[<0,0>:<1,1>]%TS[1]" (twoGroups.wellPlaced_topology _) hmember
  have hfault : Store.empty.FaultFree (requestMatchType "META_GRID") "GRID[<0,0>:<1,1>]%TS[1]"
      ["e"] := by
    rw [← isFault_pubsubPublish_eq_false]
    decide +kernel
  have halone : ¬ (twoGroups.topology fun _ => ∅).Alone "n0:50051" := by
    intro halone
    have hworker := (halone _ hmember).1 "n2:50051" (by decide +kernel)
    revert hworker
    decide
  have hname := matchType_eq_of_matchedAlike halike hfault halone
  revert hname
  decide

end Runs

end TPST
