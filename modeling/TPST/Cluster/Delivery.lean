import TPST.Cluster.Deployment

/-!
# Where a client's publish arrives

The deliveries caused by a client's publish at the server `s₀` are that one, one to each other
worker of its directory, and if it is a coordinator, one to each other coordinator it knows and to
the workers of those that have the event recorded (`total_client`, `total_betweengroup`).

Among well-placed servers no server is reached twice (`nodup_dests_client`), so the cascade is
finite and each server publishes at most once (`publish_spreadsOnce`).
-/

namespace TPST

open Std

section Totals

variable {T : Topology} (hT : T.WellPlaced) {member : Member} {addr metadata : String}
  {eventList : List String} {m : Message}

include hT in
theorem total_worker {w : String} (hmember : T.member? addr = some member)
    (hw : w ∈ T.workers member.clusterDir) :
    (cascade hT).total ⟨w, eventList, .ingroup, metadata, "NAME"⟩ =
      {⟨w, eventList, .ingroup, metadata, "NAME"⟩} := by
  obtain ⟨worker, hworker, hstatus⟩ := hT.workers hmember w hw
  have hreact : react T ⟨w, eventList, .ingroup, metadata, "NAME"⟩ = [] := by
    rw [react_ingroup hworker rfl, if_neg hstatus]
  rw [Cascade.total_eq, cascade_react, hreact]
  rfl

/-- The workers of a group do not send a publish on. -/
theorem bind_publishMultiServer (hmember : T.member? addr = some member) {serverAddr : String} :
    (publishMultiServer T serverAddr member eventList metadata : Multiset Message).bind
        (cascade hT).total =
      publishMultiServer T serverAddr member eventList metadata := by
  have hworkers : ∀ m ∈ (publishMultiServer T serverAddr member eventList metadata :
      Multiset Message), (cascade hT).total m = {m} := by
    intro m hm
    obtain ⟨w, hw, -, rfl⟩ := mem_publishMultiServer.1 (Multiset.mem_coe.1 hm)
    exact total_worker hT hmember hw
  rw [Multiset.bind_congr hworkers, Multiset.bind_singleton, Multiset.map_id']

/-- **A coordinator hands a publish from another group to its workers** if it has the event
recorded. -/
theorem total_betweengroup (hmember : T.member? m.dest = some member)
    (hsource : m.source = .betweengroup) :
    (cascade hT).total m = m ::ₘ
      if member.status = .coordinator ∧ m.eventList.getLast?.getD "" ∈ member.eventRecordMap then
        ↑(publishMultiServer T m.dest member m.eventList m.metadata)
      else 0 := by
  rw [Cascade.total_eq, cascade_react, react_betweengroup hmember hsource]
  split
  · rw [bind_publishMultiServer hT hmember]
  · rfl

/-- **A client's publish** goes to the workers of the directory, and from a coordinator to the
other groups. -/
theorem total_client (hmember : T.member? m.dest = some member) (hsource : m.source = .client) :
    (cascade hT).total m = m ::ₘ
      (↑(publishMultiServer T m.dest member m.eventList m.metadata) +
        if member.status = .coordinator then
          (publishMultiGroup m.dest member m.eventList m.metadata : Multiset Message).bind
            (cascade hT).total
        else 0) := by
  rw [Cascade.total_eq, cascade_react, react_client hmember hsource, ← Multiset.coe_add,
    Multiset.add_bind, bind_publishMultiServer hT hmember]
  split <;> rfl

end Totals

/-! ## Where a message is delivered -/

section Destinations

variable {T : Topology} (hT : T.WellPlaced) {member : Member} {m : Message} {a : String}

/-- The servers a message reaches, as often as it does. -/
def dests (m : Message) : Multiset String := ((cascade hT).total m).map Message.dest

theorem map_dest_publishMultiServer (addr metadata : String) (eventList : List String) :
    (publishMultiServer T addr member eventList metadata : Multiset Message).map Message.dest =
      ↑((T.workers member.clusterDir).filter (· ≠ addr)) := by
  rw [publishMultiServer, Multiset.map_coe, List.map_map]
  exact congrArg _ (List.map_id _)

theorem dests_betweengroup (hmember : T.member? m.dest = some member)
    (hsource : m.source = .betweengroup) :
    dests hT m = m.dest ::ₘ
      if member.status = .coordinator ∧ m.eventList.getLast?.getD "" ∈ member.eventRecordMap then
        ↑((T.workers member.clusterDir).filter (· ≠ m.dest))
      else 0 := by
  rw [dests, total_betweengroup hT hmember hsource, Multiset.map_cons]
  split
  · rw [map_dest_publishMultiServer]
  · rfl

theorem dests_client (hmember : T.member? m.dest = some member) (hsource : m.source = .client) :
    dests hT m = m.dest ::ₘ
      (↑((T.workers member.clusterDir).filter (· ≠ m.dest)) +
        if member.status = .coordinator then
          (member.coordinatorAddrSet.toList.filter (· ≠ m.dest) : Multiset String).bind fun c =>
            dests hT ⟨c, m.eventList, .betweengroup, m.metadata, "NAME"⟩
        else 0) := by
  rw [dests, total_client hT hmember hsource, Multiset.map_cons, Multiset.map_add,
    map_dest_publishMultiServer]
  split
  · rw [Multiset.map_bind, publishMultiGroup, ← Multiset.map_coe, Multiset.bind_map]
    rfl
  · rfl

include hT in
theorem nodup_workers (d : Path) : (T.workers d).Nodup := nodup_loadAddrInDir hT.files_nodup _

/-- A publish from another group stays in the group of the coordinator. -/
theorem mem_dests_betweengroup (hmember : T.member? m.dest = some member)
    (hsource : m.source = .betweengroup) :
    a ∈ dests hT m ↔ a = m.dest ∨
      (member.status = .coordinator ∧ m.eventList.getLast?.getD "" ∈ member.eventRecordMap) ∧
        a ∈ T.workers member.clusterDir := by
  rw [dests_betweengroup hT hmember hsource, Multiset.mem_cons]
  by_cases ha : a = m.dest
  · simp [ha]
  · split <;> simp [*]

theorem nodup_dests_betweengroup (hmember : T.member? m.dest = some member)
    (hsource : m.source = .betweengroup) : (dests hT m).Nodup := by
  rw [dests_betweengroup hT hmember hsource, Multiset.nodup_cons]
  split
  · exact ⟨by simp, Multiset.coe_nodup.2 ((nodup_workers hT _).filter _)⟩
  · simp

/-- The publishes a coordinator sends to other groups reach different servers. -/
theorem disjoint_dests_betweengroup {m m' : Message} (hm : T.IsCoordinator m.dest)
    (hm' : T.IsCoordinator m'.dest) (hne : m.dest ≠ m'.dest) (hsource : m.source = .betweengroup)
    (hsource' : m'.source = .betweengroup) : Disjoint (dests hT m) (dests hT m') := by
  obtain ⟨c, hc, hstatus⟩ := id hm
  obtain ⟨c', hc', hstatus'⟩ := id hm'
  rw [Multiset.disjoint_left]
  intro a ha ha'
  rcases (mem_dests_betweengroup hT hc hsource).1 ha with rfl | ⟨-, ha⟩
  · rcases (mem_dests_betweengroup hT hc' hsource').1 ha' with hdest | ⟨-, ha'⟩
    · exact hne hdest
    · exact hT.not_coordinator hc' ha' hm
  · rcases (mem_dests_betweengroup hT hc' hsource').1 ha' with rfl | ⟨-, ha'⟩
    · exact hT.not_coordinator hc ha hm'
    · have hdir : c.clusterDir ≠ c'.clusterDir :=
        fun hdir => hne (hT.one_coordinator hc hc' hstatus hstatus' hdir)
      exact hT.disjoint_workers hc hc' hdir ha ha'

/-- What a coordinator sends to the other groups. -/
def groupDests (m : Message) (member : Member) : Multiset String :=
  (member.coordinatorAddrSet.toList.filter (· ≠ m.dest) : Multiset String).bind fun c =>
    dests hT ⟨c, m.eventList, .betweengroup, m.metadata, "NAME"⟩

theorem mem_groupDests : a ∈ groupDests hT m member ↔
    ∃ c ∈ member.coordinatorAddrSet, c ≠ m.dest ∧
      a ∈ dests hT ⟨c, m.eventList, .betweengroup, m.metadata, "NAME"⟩ := by
  simp only [groupDests, Multiset.mem_bind, Multiset.mem_coe, List.mem_filter,
    ExtTreeSet.mem_toList, decide_eq_true_eq, and_assoc]

theorem nodup_groupDests (hmember : T.member? m.dest = some member) :
    (groupDests hT m member).Nodup := by
  have hset : (member.coordinatorAddrSet.toList.filter (· ≠ m.dest)).Nodup :=
    (OSet.nodup_toList _).filter _
  have hcoordinator : ∀ c ∈ member.coordinatorAddrSet.toList.filter (· ≠ m.dest),
      T.IsCoordinator c := fun c hc =>
    hT.coordinators hmember c (ExtTreeSet.mem_toList.1 (List.mem_filter.1 hc).1)
  refine Multiset.nodup_bind.2 ⟨fun c hc => ?_, _, rfl, ?_⟩
  · obtain ⟨coordinator, hc, -⟩ := hcoordinator c (Multiset.mem_coe.1 hc)
    exact nodup_dests_betweengroup hT hc rfl
  · exact hset.imp_of_mem fun hc hc' hne =>
      disjoint_dests_betweengroup hT (hcoordinator _ hc) (hcoordinator _ hc') hne rfl rfl

/-- A client's publish reaches the server, the workers of its directory and, from a coordinator,
the other groups. -/
theorem mem_dests_client (hmember : T.member? m.dest = some member) (hsource : m.source = .client) :
    a ∈ dests hT m ↔ a = m.dest ∨ a ∈ T.workers member.clusterDir ∨
      member.status = .coordinator ∧ a ∈ groupDests hT m member := by
  rw [dests_client hT hmember hsource, Multiset.mem_cons, Multiset.mem_add, ← groupDests]
  by_cases ha : a = m.dest
  · simp [ha]
  · split <;> simp [*]

/-- **A client's publish reaches no server twice.** -/
theorem nodup_dests_client (hmember : T.member? m.dest = some member)
    (hsource : m.source = .client) : (dests hT m).Nodup := by
  have hworkers : ((T.workers member.clusterDir).filter (· ≠ m.dest)).Nodup :=
    (nodup_workers hT member.clusterDir).filter _
  rw [dests_client hT hmember hsource, Multiset.nodup_cons, ← groupDests]
  by_cases hstatus : member.status = .coordinator
  · have hself : T.IsCoordinator m.dest := ⟨member, hmember, hstatus⟩
    -- what another coordinator reaches is neither the server itself nor one of its workers
    have hother : ∀ a ∈ groupDests hT m member, a ≠ m.dest ∧ a ∉ T.workers member.clusterDir := by
      intro a ha
      obtain ⟨c, hc, hne, ha⟩ := (mem_groupDests hT).1 ha
      obtain ⟨other, hother, hstatus'⟩ := hT.coordinators hmember c hc
      rcases (mem_dests_betweengroup hT hother rfl).1 ha with rfl | ⟨-, ha⟩
      · exact ⟨hne, fun hw => hT.not_coordinator hmember hw ⟨other, hother, hstatus'⟩⟩
      · have hdir : other.clusterDir ≠ member.clusterDir :=
          fun hdir => hne (hT.one_coordinator hother hmember hstatus' hstatus hdir)
        exact ⟨fun h => hT.not_coordinator hother ha (h ▸ hself),
          fun hw => hT.disjoint_workers hother hmember hdir ha hw⟩
    rw [if_pos hstatus]
    refine ⟨?_, Multiset.nodup_add.2
      ⟨Multiset.coe_nodup.2 hworkers, nodup_groupDests hT hmember, ?_⟩⟩
    · rw [Multiset.mem_add, not_or]
      exact ⟨by simp, fun h => (hother _ h).1 rfl⟩
    · rw [Multiset.disjoint_left]
      exact fun ha hw => (hother _ hw).2 (List.mem_filter.1 (Multiset.mem_coe.1 ha)).1
  · rw [if_neg hstatus, add_zero]
    exact ⟨by simp, Multiset.coe_nodup.2 hworkers⟩

end Destinations

/-! ## Runs -/

section Runs

variable {T : Topology} (hT : T.WellPlaced) {store : String → Store}
  {s₀ matchType metadata : String} {eventList : List String} {net : Net}

theorem pending_start :
    (cascade hT).pending (Net.start store s₀ eventList matchType metadata).messages =
      (cascade hT).total ⟨s₀, eventList, .client, metadata, matchType⟩ :=
  Multiset.singleton_bind _ _

/-- What has been sent in a run is among what the client's publish causes. -/
theorem sent_le_total (hrun : Net.Run T (.start store s₀ eventList matchType metadata) net) :
    net.delivered + net.inFlight ≤
      (cascade hT).total ⟨s₀, eventList, .client, metadata, matchType⟩ := by
  have hsent := ((simulates hT).run_proj hrun).sent_le
  rw [pending_start hT] at hsent
  exact hsent.trans_eq (Multiset.zero_add _)

/-- From `net₀` only finitely many messages are sent, every run ends, and no server runs
`pubsubPublish` twice. -/
structure SpreadsOnce (T : Topology) (net₀ : Net) : Prop where
  finite : ∃ n, ∀ net, Net.Run T net₀ net → (net.delivered + net.inFlight).card ≤ n
  ends : ¬ ∃ run : ℕ → Net, run 0 = net₀ ∧ ∀ k, Net.Step T (run k) (run (k + 1))
  once : ∀ net, Net.Run T net₀ net → ∀ addr, net.runsAt addr ≤ 1

/-- **A client's publish spreads once**, whatever the stores, the records and the order in which
the messages arrive. -/
theorem publish_spreadsOnce {T : Topology} (hT : T.WellPlaced) {s₀ : String} {member : Member}
    (hmember : T.member? s₀ = some member) (store : String → Store) (eventList : List String)
    (matchType metadata : String) :
    SpreadsOnce T (.start store s₀ eventList matchType metadata) where
  finite := ⟨_, fun _ hrun => Multiset.card_le_card (sent_le_total hT hrun)⟩
  ends := fun ⟨run, _, hstep⟩ => (simulates hT).not_infinite ⟨run, hstep⟩
  once net hrun addr := by
    have hle : net.delivered.map Message.dest ≤
        dests hT ⟨s₀, eventList, .client, metadata, matchType⟩ :=
      Multiset.map_le_map ((Multiset.le_add_right _ _).trans (sent_le_total hT hrun))
    have hnodup := nodup_dests_client hT (m := ⟨s₀, eventList, .client, metadata, matchType⟩)
      hmember rfl
    exact (Multiset.count_le_of_le addr hle).trans (Multiset.nodup_iff_count_le_one.1 hnodup addr)

/-- Two groups of two servers. -/
def twoGroups : Deployment where
  gmGroupNumber := 2
  gmRequiredGroupSize := 2
  servers := [(0, "n0:50051"), (1, "n1:50051"), (2, "n2:50051"), (3, "n3:50051")]
  groupNumber_pos := by decide
  groupSize_pos := by decide
  ranks := by decide
  nodup_addrs := by decide

theorem publish_spreadsOnce_twoGroups :
    SpreadsOnce (twoGroups.topology fun _ => ∅)
      (.start (fun _ => .empty) "n0:50051" ["e"] "NAME" "") := by
  have hmember : (twoGroups.topology fun _ => ∅).member? "n0:50051" =
      some (twoGroups.member ∅ 0) :=
    Deployment.member?_topology.2 ⟨0, by decide, rfl⟩
  exact publish_spreadsOnce (twoGroups.wellPlaced_topology _) hmember _ _ _ _

end Runs

end TPST
