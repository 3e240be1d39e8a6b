import TPST.Cluster.Delivery
import TPST.Server.Reach

/-!
# Which subscribers hear of a publish

A server holds an event when one of its subscriptions requires it. In a deployment whose
coordinators have recorded the events held in their groups, a client's publish reaches all holders
just when it need not pass from a worker to its coordinator (`reachesHolders_iff`).
`publishMultiServer` lists the worker directory only, so the coordinator does not hear of a publish
at a worker, and neither do the other groups.
-/

namespace TPST

open Std

/-- A subscription of the store requires the event. -/
def Store.Holds (s : Store) (event : String) : Prop :=
  ∃ ix c w n, s.wrapper? ix c = some w ∧ w.Requires event n

/-- Every coordinator has the event recorded if a server of its group holds it. -/
def Recorded (T : Topology) (store : String → Store) (event : String) : Prop :=
  ∀ {c coordinator}, T.member? c = some coordinator → coordinator.status = .coordinator →
    ∀ a, a = c ∨ a ∈ T.workers coordinator.clusterDir → (store a).Holds event →
      event ∈ coordinator.eventRecordMap

/-- Once a client's publish of an event at `s₀` has come to rest, every server that holds the event
has run `pubsubPublish` for it. -/
def ReachesHolders (T : Topology) (store : String → Store) (s₀ event metadata : String) : Prop :=
  ∀ net, Net.Run T (.start store s₀ [event] "NAME" metadata) net → net.inFlight = 0 →
    ∀ h member, T.member? h = some member → (store h).Holds event →
      ∃ m ∈ net.delivered, m.dest = h ∧ m.eventList = [event]

/-! ## Complete runs -/

section Complete

variable {T : Topology} (hT : T.WellPlaced) {store : String → Store} {s₀ metadata : String}
  {eventList : List String} {net : Net}

theorem matchType_of_mem_react {m m' : Message} (h : m' ∈ react T m) : m'.matchType = "NAME" := by
  obtain ⟨_, -, ⟨-, _, -, rfl⟩ | ⟨-, -, _, -, rfl⟩⟩ := mem_react_cases h <;> rfl

theorem eventList_of_mem_react {m m' : Message} (h : m' ∈ react T m) :
    m'.eventList = m.eventList := by
  obtain ⟨_, -, ⟨-, _, -, rfl⟩ | ⟨-, -, _, -, rfl⟩⟩ := mem_react_cases h <;> rfl

theorem not_faults_of_matchType {m : Message} (h : m.matchType = "NAME") (s : Store) :
    ¬ m.Faults s := by
  have hname : requestMatchType m.matchType = "NAME" := by rw [h]; rfl
  rw [Message.Faults, hname, isFault_pubsubPublish_NAME]
  decide

/-- A publish by name does not fault, so nothing is lost of what it causes. -/
theorem reliableRun (hrun : Net.Run T (.start store s₀ eventList "NAME" metadata) net) :
    (∀ m ∈ net.inFlight, m.matchType = "NAME") ∧
      (cascade hT).ReliableRun (Net.start store s₀ eventList "NAME" metadata).messages
        net.messages := by
  induction hrun with
  | refl => exact ⟨fun m hm => by rw [Multiset.mem_singleton.1 hm], .refl⟩
  | @tail net _ _ hstep ih =>
    cases hstep with
    | @deliver m hm =>
      have hsent : (net.deliver T m).inFlight = net.inFlight.erase m + ↑(react T m) := by
        rw [Net.deliver, if_neg (not_faults_of_matchType (ih.1 m hm) _)]
      constructor
      · intro m' hm'
        rw [hsent, Multiset.mem_add] at hm'
        exact hm'.elim (fun h => ih.1 m' (Multiset.mem_of_mem_erase h)) matchType_of_mem_react
      · apply ih.2.tail
        have hreliable : (cascade hT).ReliableStep _ _ :=
          .deliver m (net.inFlight.erase m) net.delivered
        rw [Multiset.cons_erase hm] at hreliable
        rwa [Net.messages, Net.messages, hsent]

/-- **At rest a publish by name has been delivered** wherever its cascade goes. -/
theorem delivered_eq_total (hrun : Net.Run T (.start store s₀ eventList "NAME" metadata) net)
    (hdone : net.inFlight = 0) :
    net.delivered = (cascade hT).total ⟨s₀, eventList, .client, metadata, "NAME"⟩ := by
  have hdelivered := (reliableRun hT hrun).2.delivered_eq hdone
  rw [pending_start hT] at hdelivered
  exact hdelivered.trans (Multiset.zero_add _)

/-- A publish reaches its holders when its cascade does. -/
theorem reachesHolders_iff_dests {event : String} :
    ReachesHolders T store s₀ event metadata ↔
      ∀ h member, T.member? h = some member → (store h).Holds event →
        h ∈ dests hT ⟨s₀, [event], .client, metadata, "NAME"⟩ := by
  constructor
  · intro hreaches h member hmember hholds
    obtain ⟨net, hrun, hdone⟩ :=
      (simulates hT).exists_complete (.start store s₀ [event] "NAME" metadata)
    obtain ⟨m, hm, rfl, -⟩ := hreaches net hrun hdone h member hmember hholds
    rw [delivered_eq_total hT hrun hdone] at hm
    exact Multiset.mem_map_of_mem _ hm
  · intro hdests net hrun hdone h member hmember hholds
    obtain ⟨m, hm, hdest⟩ := Multiset.mem_map.1 (hdests h member hmember hholds)
    refine ⟨m, delivered_eq_total hT hrun hdone ▸ hm, hdest, ?_⟩
    exact (cascade hT).of_mem_total (P := fun m => m.eventList = [event])
      (fun m h m' hm' => (eventList_of_mem_react (Multiset.mem_coe.1 hm')).trans h) rfl hm

end Complete

/-! ## Deployments -/

section Deployments

variable {D : Deployment} {record : String → EventRecordMap} {store : String → Store}
  {s₀ h event metadata : String} {r r₀ : ℕ}

theorem member?_of_mem (hserver : (r, h) ∈ D.servers) :
    (D.topology record).member? h = some (D.member (record h) r) :=
  Deployment.member?_topology.2 ⟨r, hserver, rfl⟩

/-- **Which servers a client's publish reaches**: the server itself, the workers of its group, and
from a coordinator the other coordinators, and the workers of those that have the event recorded. -/
theorem mem_dests_iff (h₀ : (r₀, s₀) ∈ D.servers) (hserver : (r, h) ∈ D.servers) :
    h ∈ dests (D.wellPlaced_topology record) ⟨s₀, [event], .client, metadata, "NAME"⟩ ↔
      h = s₀ ∨ (D.serverStatus r = .worker ∧ r % D.gmGroupNumber = r₀ % D.gmGroupNumber) ∨
        (D.serverStatus r₀ = .coordinator ∧ (D.serverStatus r = .coordinator ∨
          (D.serverStatus r = .worker ∧
            ∃ c, (r % D.gmGroupNumber, c) ∈ D.servers ∧ event ∈ record c))) := by
  have hT := D.wellPlaced_topology record
  have hknown {c : String} {k : ℕ} (hc : (k, c) ∈ D.servers) (hk : k < D.gmGroupNumber) :
      c ∈ (D.member (record s₀) r₀).coordinatorAddrSet :=
    Deployment.mem_coordinatorAddrSet.2 ⟨k, hc, hk⟩
  rw [mem_dests_client hT (member?_of_mem h₀) rfl, Deployment.mem_workers_iff hserver]
  constructor
  · refine Or.imp_right (Or.imp_right fun ⟨hcoordinator, hgroup⟩ => ⟨hcoordinator, ?_⟩)
    obtain ⟨c, hc, -, hdest⟩ := (mem_groupDests hT).1 hgroup
    obtain ⟨k, hk, hlt⟩ := Deployment.mem_coordinatorAddrSet.1 hc
    rcases (mem_dests_betweengroup hT (member?_of_mem hk) rfl).1 hdest with
      rfl | ⟨⟨-, hrecorded⟩, hworker⟩
    · rw [D.rank_unique hserver hk]
      exact .inl (GroupConfig.serverStatus_eq_coordinator.2 hlt)
    · obtain ⟨hstatus, hmod⟩ := (Deployment.mem_workers_iff hserver).1 hworker
      rw [Nat.mod_eq_of_lt hlt] at hmod
      exact .inr ⟨hstatus, c, hmod ▸ hk, hrecorded⟩
  · rintro (rfl | hworker | ⟨hcoordinator, hholder⟩)
    · exact .inl rfl
    · exact .inr (.inl hworker)
    by_cases hself : h = s₀
    · exact .inl hself
    refine .inr ?_
    rcases hholder with hstatus | ⟨hstatus, c, hc, hrecorded⟩
    · refine .inr ⟨hcoordinator, (mem_groupDests hT).2 ⟨h, ?_, hself, ?_⟩⟩
      · exact hknown hserver (GroupConfig.serverStatus_eq_coordinator.1 hstatus)
      · exact (mem_dests_betweengroup hT (member?_of_mem hserver) rfl).2 (.inl rfl)
    · -- the coordinator of the holder's group
      have hmod : r % D.gmGroupNumber < D.gmGroupNumber := Nat.mod_lt _ D.groupNumber_pos
      by_cases hown : c = s₀
      · subst hown
        rw [← D.rank_unique hc h₀, Nat.mod_mod]
        exact .inl ⟨hstatus, rfl⟩
      · have hworker : h ∈ (D.topology record).workers
            (D.member (record c) (r % D.gmGroupNumber)).clusterDir :=
          (Deployment.mem_workers_iff hserver).2 ⟨hstatus, (Nat.mod_mod _ _).symm⟩
        refine .inr ⟨hcoordinator, (mem_groupDests hT).2 ⟨c, hknown hc hmod, hown, ?_⟩⟩
        exact (mem_dests_betweengroup hT (member?_of_mem hc) rfl).2
          (.inr ⟨⟨GroupConfig.serverStatus_eq_coordinator.2 hmod, hrecorded⟩, hworker⟩)

/-- A holder is reached by a worker's publish in its group, and by a coordinator's also in the
other groups, since its coordinator has the event recorded. -/
theorem mem_dests_topology (hrecord : Recorded (D.topology record) store event)
    (h₀ : (r₀, s₀) ∈ D.servers) (hserver : (r, h) ∈ D.servers) (hholds : (store h).Holds event) :
    h ∈ dests (D.wellPlaced_topology record) ⟨s₀, [event], .client, metadata, "NAME"⟩ ↔
      h = s₀ ∨ (D.serverStatus r = .worker ∧ r % D.gmGroupNumber = r₀ % D.gmGroupNumber) ∨
        (D.serverStatus r₀ = .coordinator ∧ D.serverStatus r ≠ .freepool) := by
  rw [mem_dests_iff h₀ hserver]
  refine or_congr_right (or_congr_right (and_congr_right fun _ => ?_))
  cases hstatus : D.serverStatus r with
  | freepool => simp
  | coordinator => simp
  | worker =>
    obtain ⟨c, hc⟩ := Deployment.exists_addr hserver (Nat.mod_le r D.gmGroupNumber)
    have hmod : r % D.gmGroupNumber < D.gmGroupNumber := Nat.mod_lt _ D.groupNumber_pos
    have hworker : h ∈ (D.topology record).workers
        (D.member (record c) (r % D.gmGroupNumber)).clusterDir :=
      (Deployment.mem_workers_iff hserver).2 ⟨hstatus, (Nat.mod_mod _ _).symm⟩
    have hrecorded : event ∈ (D.member (record c) (r % D.gmGroupNumber)).eventRecordMap :=
      hrecord (member?_of_mem hc) (GroupConfig.serverStatus_eq_coordinator.2 hmod) h
        (.inr hworker) hholds
    exact iff_of_true (.inr ⟨rfl, c, hc, hrecorded⟩) (by decide)

/-- **When a publish reaches its holders.** A publish at a worker or in the free pool reaches the
workers of the directory; a publish at a coordinator reaches all groups. -/
theorem reachesHolders_iff (D : Deployment) (record : String → EventRecordMap)
    (store : String → Store) {s₀ : String} {r₀ : ℕ} (h₀ : (r₀, s₀) ∈ D.servers)
    {event : String} (hrecord : Recorded (D.topology record) store event) (metadata : String) :
    ReachesHolders (D.topology record) store s₀ event metadata ↔
      ∀ r h, (r, h) ∈ D.servers → (store h).Holds event →
        h = s₀ ∨ (D.serverStatus r = .worker ∧ r % D.gmGroupNumber = r₀ % D.gmGroupNumber) ∨
          (D.serverStatus r₀ = .coordinator ∧ D.serverStatus r ≠ .freepool) := by
  rw [reachesHolders_iff_dests (D.wellPlaced_topology record)]
  constructor
  · intro hdests r h hserver hholds
    exact (mem_dests_topology hrecord h₀ hserver hholds).1
      (hdests h _ (member?_of_mem hserver) hholds)
  · intro hcondition h member hmember hholds
    obtain ⟨r, hserver, -⟩ := Deployment.member?_topology.1 hmember
    exact (mem_dests_topology hrecord h₀ hserver hholds).2 (hcondition r h hserver hholds)

/-- In the two groups, the first coordinator and the worker of the second group hold `e`. -/
def twoHolders (addr : String) : Store :=
  if addr = "n0:50051" ∨ addr = "n3:50051" then
    Store.empty.subscribed "c" "addr" "NAME" "" ("e", 1) []
  else .empty

/-- The coordinators of the two groups have `e` recorded. -/
def twoRecords (addr : String) : EventRecordMap :=
  if addr = "n0:50051" then (∅ : EventRecordMap).insert "e" ((∅ : OMap String Int).insert addr 1)
  else if addr = "n1:50051" then
    (∅ : EventRecordMap).insert "e" ((∅ : OMap String Int).insert "n3:50051" 1)
  else ∅

theorem holds_twoHolders (hholder : h = "n0:50051" ∨ h = "n3:50051") :
    (twoHolders h).Holds "e" := by
  rw [twoHolders, if_pos hholder]
  exact ⟨"e", "c", _, 1, (wrapper?_subscribed "e" "c").trans (if_pos ⟨rfl, rfl⟩),
    requires_newWrapper.2 (by simp)⟩

theorem recorded_twoHolders : Recorded (twoGroups.topology twoRecords) twoHolders "e" := by
  intro c coordinator hmember hstatus _ _ _
  obtain ⟨r, hserver, rfl⟩ := Deployment.member?_topology.1 hmember
  have hr : r < 2 := GroupConfig.serverStatus_eq_coordinator.1 hstatus
  have hc : c = "n0:50051" ∨ c = "n1:50051" := by
    simp only [twoGroups, List.mem_cons, Prod.mk.injEq, List.not_mem_nil, or_false] at hserver
    obtain ⟨-, rfl⟩ | ⟨-, rfl⟩ | ⟨rfl, -⟩ | ⟨rfl, -⟩ := hserver
    · exact .inl rfl
    · exact .inr rfl
    all_goals simp at hr
  rcases hc with rfl | rfl
  · change "e" ∈ twoRecords "n0:50051"
    decide +kernel
  · change "e" ∈ twoRecords "n1:50051"
    decide +kernel

theorem reachesHolders_twoHolders :
    ReachesHolders (twoGroups.topology twoRecords) twoHolders "n0:50051" "e" "" := by
  have h₀ : (0, "n0:50051") ∈ twoGroups.servers := by decide
  refine (reachesHolders_iff twoGroups twoRecords twoHolders h₀ recorded_twoHolders "").2
    fun r h hserver _ => .inr (.inr ⟨by decide, ?_⟩)
  simp only [twoGroups, List.mem_cons, Prod.mk.injEq, List.not_mem_nil, or_false] at hserver
  obtain ⟨rfl, -⟩ | ⟨rfl, -⟩ | ⟨rfl, -⟩ | ⟨rfl, -⟩ := hserver <;> decide

/-- **A publish at a worker does not reach its coordinator**, which holds the event. -/
theorem not_reachesHolders_worker :
    Recorded (twoGroups.topology twoRecords) twoHolders "e" ∧
      ¬ ReachesHolders (twoGroups.topology twoRecords) twoHolders "n2:50051" "e" "" := by
  refine ⟨recorded_twoHolders, fun hreaches => ?_⟩
  let m : Message := ⟨"n2:50051", ["e"], .client, "", "NAME"⟩
  have hreact : react (twoGroups.topology twoRecords) m = [] := by decide +kernel
  have hstep : Net.Step (twoGroups.topology twoRecords)
      (.start twoHolders "n2:50051" ["e"] "NAME" "")
      ((Net.start twoHolders "n2:50051" ["e"] "NAME" "").deliver _ m) :=
    .deliver (Multiset.mem_singleton_self m)
  have hdone : ((Net.start twoHolders "n2:50051" ["e"] "NAME" "").deliver
      (twoGroups.topology twoRecords) m).inFlight = 0 := by
    simp [Net.deliver, Net.start, hreact, m]
  obtain ⟨m', hm', hdest, -⟩ := hreaches _ (.single hstep) hdone "n0:50051" _
    (member?_of_mem (D := twoGroups) (r := 0) (by decide)) (holds_twoHolders (.inl rfl))
  obtain rfl : m' = m := by simpa [Net.deliver, Net.start] using hm'
  simp [m] at hdest

end Deployments

end TPST
