import TPST.Cluster.GroupManager
import TPST.Coordinator.Planner
import TPST.Foundations.Cascade
import TPST.Server.Notify

/-!
# Publishing across the servers

A publish that comes from a client is passed on. The server that receives it sends it to the
workers of its directory (`publishMultiServer`), and if it is a coordinator, also to the other
coordinators (`publishMultiGroup`); a coordinator that receives it from another group sends it to
its own workers if the event is recorded there. The source of a message says where it comes from.

`Net.Step` delivers one of the messages in flight. What a delivery sends depends on the message
and the topology only, except that a publish that faults sends nothing. So when the servers are
well placed the deliveries form a cascade (`cascade`, `simulates`), whatever happens in the stores
meanwhile.
-/

namespace TPST

open Std

/-- The source of a publish: a client, a server of the group, or another coordinator. -/
inductive Source
  | client
  | ingroup
  | betweengroup
  deriving DecidableEq, Repr

/-- What a server knows of the others. -/
structure Member where
  status : ServerStatus
  /-- `GM_CLUSTERDIR`. -/
  clusterDir : Path
  coordinatorAddrSet : OSet String
  eventRecordMap : EventRecordMap

/-- The servers by their addresses, and the directories they share. -/
structure Topology where
  member? : String → Option Member
  files : FileTree

/-- A `Publish` request on its way to a server. -/
structure Message where
  dest : String
  eventList : List String
  source : Source
  metadata : String
  matchType : String
  deriving DecidableEq, Repr

/-- The addresses in the worker directory of a group. -/
def Topology.workers (T : Topology) (clusterDir : Path) : List String :=
  loadAddrInDir T.files (clusterDir ++ [gmWorkerDir])

/-- `publishMultiGroup`. -/
def publishMultiGroup (serverAddr : String) (member : Member) (eventList : List String)
    (metadata : String) : List Message :=
  (member.coordinatorAddrSet.toList.filter (· ≠ serverAddr)).map fun coordNator =>
    ⟨coordNator, eventList, .betweengroup, metadata, "NAME"⟩

/-- `publishMultiServer`. -/
def publishMultiServer (T : Topology) (serverAddr : String) (member : Member)
    (eventList : List String) (metadata : String) : List Message :=
  ((T.workers member.clusterDir).filter (· ≠ serverAddr)).map fun tempaddr =>
    ⟨tempaddr, eventList, .ingroup, metadata, "NAME"⟩

/-- `propagatePub`, which `main` sets before the server runs. -/
def propagatePub : Bool := true

/-- What `Publish` sends on. The variable `eventStr` holds the last event of the request. -/
def forward (T : Topology) (member : Member) (m : Message) : List Message :=
  let eventStr := m.eventList.getLast?.getD ""
  (if propagatePub = true ∧ m.source = .client then
      publishMultiServer T m.dest member m.eventList m.metadata else []) ++
    if member.status = .coordinator then
      (if m.source = .ingroup ∨ m.source = .client then
          publishMultiGroup m.dest member m.eventList m.metadata else []) ++
        if m.source = .betweengroup ∧ eventStr ∈ member.eventRecordMap then
          publishMultiServer T m.dest member m.eventList m.metadata
        else []
    else []

/-- What is sent because of a message; at an address without a server, nothing. -/
def react (T : Topology) (m : Message) : List Message :=
  match T.member? m.dest with
  | none => []
  | some member => forward T member m

/-- The publish of a message faults in the store of its server. -/
def Message.Faults (m : Message) (s : Store) : Prop :=
  (pubsubPublish m.eventList (requestMatchType m.matchType) m.metadata s).isFault = true

instance (m : Message) (s : Store) : Decidable (m.Faults s) := inferInstanceAs (Decidable (_ = _))

/-- The servers' stores, the messages in flight, the messages delivered so far, and what was
pushed to the notify queues. -/
structure Net where
  store : String → Store
  inFlight : Multiset Message
  delivered : Multiset Message
  pushed : List (String × NotifyInfo)

namespace Net

/-- A message arrives: its server publishes in its store, sends the message on unless that faulted,
and notifies. All this is one step, with the tasks that `notify` puts into the pool: a server takes
up a message when it is done with those before it. -/
def deliver (T : Topology) (net : Net) (m : Message) : Net :=
  let served := serve (net.store m.dest) (.publish m.eventList m.matchType m.metadata)
  { store := Function.update net.store m.dest served.1
    inFlight := net.inFlight.erase m + if m.Faults (net.store m.dest) then 0 else ↑(react T m)
    delivered := m ::ₘ net.delivered
    pushed := net.pushed ++ served.2.map fun ninfo => (m.dest, ninfo) }

/-- The network delivers one of the messages in flight. -/
inductive Step (T : Topology) : Net → Net → Prop
  | deliver {net : Net} {m : Message} (hm : m ∈ net.inFlight) : Step T net (net.deliver T m)

/-- Any number of deliveries. -/
abbrev Run (T : Topology) : Net → Net → Prop := Relation.ReflTransGen (Step T)

/-- The net when a client's publish arrives at the server `s₀`. -/
def start (store : String → Store) (s₀ : String) (eventList : List String)
    (matchType metadata : String) : Net :=
  ⟨store, {⟨s₀, eventList, .client, metadata, matchType⟩}, 0, []⟩

/-- How often a server has run `pubsubPublish`. -/
def runsAt (net : Net) (addr : String) : ℕ := (net.delivered.map Message.dest).count addr

/-- The messages of a net. -/
def messages (net : Net) : Cascade.Cfg Message := ⟨net.inFlight, net.delivered⟩

end Net

/-! ## Well-placed servers -/

namespace Topology

/-- There is a coordinator at an address. -/
def IsCoordinator (T : Topology) (addr : String) : Prop :=
  ∃ member, T.member? addr = some member ∧ member.status = .coordinator

instance (T : Topology) (addr : String) : Decidable (T.IsCoordinator addr) :=
  match h : T.member? addr with
  | none => .isFalse fun ⟨_, hm, _⟩ => by simp [h] at hm
  | some member => decidable_of_iff (member.status = .coordinator) <| by
      simp [IsCoordinator, h]

/-- The worker directories of the groups are disjoint and hold servers other than coordinators,
and each group has one coordinator among those a server knows. -/
structure WellPlaced (T : Topology) : Prop where
  files_nodup : T.files.Nodup
  disjoint_workers : ∀ {a a' member member'}, T.member? a = some member →
    T.member? a' = some member' → member.clusterDir ≠ member'.clusterDir →
    (T.workers member.clusterDir).Disjoint (T.workers member'.clusterDir)
  workers : ∀ {a member}, T.member? a = some member → ∀ w ∈ T.workers member.clusterDir,
    ∃ worker, T.member? w = some worker ∧ worker.status ≠ .coordinator
  coordinators : ∀ {a member}, T.member? a = some member →
    ∀ c ∈ member.coordinatorAddrSet, T.IsCoordinator c
  one_coordinator : ∀ {c c' member member'}, T.member? c = some member →
    T.member? c' = some member' → member.status = .coordinator →
    member'.status = .coordinator → member.clusterDir = member'.clusterDir → c = c'

theorem WellPlaced.not_coordinator {T : Topology} (hT : T.WellPlaced) {a w : String}
    {member : Member} (hmember : T.member? a = some member)
    (hw : w ∈ T.workers member.clusterDir) : ¬ T.IsCoordinator w := by
  rintro ⟨coordinator, hcoordinator, hstatus⟩
  obtain ⟨worker, hworker, hne⟩ := hT.workers hmember w hw
  exact hne (Option.some.inj (hworker.symm.trans hcoordinator) ▸ hstatus)

end Topology

/-! ## The cascade of a publish -/

/-- How far a message still is from the last ones it causes. -/
def rank (T : Topology) (m : Message) : ℕ :=
  match m.source with
  | .client => 3
  | .ingroup => if T.IsCoordinator m.dest then 2 else 0
  | .betweengroup => 1

section Cascade

variable {T : Topology} {m m' : Message} {member : Member}

theorem mem_publishMultiServer {addr metadata : String} {eventList : List String} :
    m ∈ publishMultiServer T addr member eventList metadata ↔
      ∃ w ∈ T.workers member.clusterDir, w ≠ addr ∧
        m = ⟨w, eventList, .ingroup, metadata, "NAME"⟩ := by
  rw [publishMultiServer, List.mem_map]
  constructor
  · rintro ⟨w, hw, rfl⟩
    obtain ⟨hw, hne⟩ := List.mem_filter.1 hw
    exact ⟨w, hw, of_decide_eq_true hne, rfl⟩
  · rintro ⟨w, hw, hne, rfl⟩
    exact ⟨w, List.mem_filter.2 ⟨hw, decide_eq_true hne⟩, rfl⟩

theorem mem_publishMultiGroup {addr metadata : String} {eventList : List String} :
    m ∈ publishMultiGroup addr member eventList metadata ↔
      ∃ c ∈ member.coordinatorAddrSet, c ≠ addr ∧
        m = ⟨c, eventList, .betweengroup, metadata, "NAME"⟩ := by
  rw [publishMultiGroup, List.mem_map]
  constructor
  · rintro ⟨c, hc, rfl⟩
    obtain ⟨hc, hne⟩ := List.mem_filter.1 hc
    exact ⟨c, ExtTreeSet.mem_toList.1 hc, of_decide_eq_true hne, rfl⟩
  · rintro ⟨c, hc, hne, rfl⟩
    exact ⟨c, List.mem_filter.2 ⟨ExtTreeSet.mem_toList.2 hc, decide_eq_true hne⟩, rfl⟩

theorem react_of_member (h : T.member? m.dest = some member) : react T m = forward T member m := by
  simp only [react, h]

/-- What a client's publish sends on. -/
theorem react_client (h : T.member? m.dest = some member) (hsource : m.source = .client) :
    react T m = publishMultiServer T m.dest member m.eventList m.metadata ++
      if member.status = .coordinator then
        publishMultiGroup m.dest member m.eventList m.metadata
      else [] := by
  rw [react_of_member h, forward]
  simp [hsource, propagatePub]

/-- What a publish from another group sends on. -/
theorem react_betweengroup (h : T.member? m.dest = some member)
    (hsource : m.source = .betweengroup) :
    react T m =
      if member.status = .coordinator ∧ m.eventList.getLast?.getD "" ∈ member.eventRecordMap then
        publishMultiServer T m.dest member m.eventList m.metadata
      else [] := by
  rw [react_of_member h, forward]
  by_cases hcoordinator : member.status = .coordinator
  · simp [hsource, hcoordinator]
  · simp [hsource, hcoordinator]

/-- What a publish from the group sends on. -/
theorem react_ingroup (h : T.member? m.dest = some member) (hsource : m.source = .ingroup) :
    react T m =
      if member.status = .coordinator then
        publishMultiGroup m.dest member m.eventList m.metadata
      else [] := by
  rw [react_of_member h, forward]
  simp [hsource]

/-- A message sent on goes to a worker of the directory, or from a coordinator to a coordinator. -/
theorem mem_react_cases (h : m' ∈ react T m) : ∃ member, T.member? m.dest = some member ∧
    ((m.source ≠ .ingroup ∧ ∃ w ∈ T.workers member.clusterDir,
        m' = ⟨w, m.eventList, .ingroup, m.metadata, "NAME"⟩) ∨
      (m.source ≠ .betweengroup ∧ member.status = .coordinator ∧
        ∃ c ∈ member.coordinatorAddrSet,
          m' = ⟨c, m.eventList, .betweengroup, m.metadata, "NAME"⟩)) := by
  cases hmember : T.member? m.dest with
  | none => simp [react, hmember] at h
  | some member =>
    refine ⟨member, rfl, ?_⟩
    cases hsource : m.source with
    | client =>
      rw [react_client hmember hsource, List.mem_append, mem_publishMultiServer] at h
      rcases h with ⟨w, hw, -, rfl⟩ | h
      · exact .inl ⟨by simp, w, hw, rfl⟩
      · split at h
        · obtain ⟨c, hc, -, rfl⟩ := mem_publishMultiGroup.1 h
          exact .inr ⟨by simp, ‹_›, c, hc, rfl⟩
        · simp at h
    | ingroup =>
      rw [react_ingroup hmember hsource] at h
      split at h
      · obtain ⟨c, hc, -, rfl⟩ := mem_publishMultiGroup.1 h
        exact .inr ⟨by simp, ‹_›, c, hc, rfl⟩
      · simp at h
    | betweengroup =>
      rw [react_betweengroup hmember hsource] at h
      split at h
      · obtain ⟨w, hw, -, rfl⟩ := mem_publishMultiServer.1 h
        exact .inl ⟨by simp, w, hw, rfl⟩
      · simp at h

/-- **A message sent on has a smaller rank.** Messages within a group go to workers, which do not
send them on. -/
theorem rank_lt (hT : T.WellPlaced) (h : m' ∈ react T m) : rank T m' < rank T m := by
  obtain ⟨member, hmember, ⟨hsource, w, hw, rfl⟩ | ⟨hsource, hstatus, c, -, rfl⟩⟩ :=
    mem_react_cases h
  · have hzero : rank T ⟨w, m.eventList, .ingroup, m.metadata, "NAME"⟩ = 0 :=
      if_neg (hT.not_coordinator hmember hw)
    rw [hzero, rank]
    cases hm : m.source with
    | client => simp
    | ingroup => exact absurd hm hsource
    | betweengroup => simp
  · have hone : rank T ⟨c, m.eventList, .betweengroup, m.metadata, "NAME"⟩ = 1 := rfl
    have hcoordinator : T.IsCoordinator m.dest := ⟨member, hmember, hstatus⟩
    rw [hone, rank]
    cases hm : m.source with
    | client => simp
    | ingroup => simp [hcoordinator]
    | betweengroup => exact absurd hm hsource

/-- The deliveries of a publish are a cascade. -/
def cascade (hT : T.WellPlaced) : Cascade Message where
  react m := react T m
  rank := rank T
  rank_lt h := rank_lt hT (Multiset.mem_coe.1 h)

@[simp] theorem cascade_react (hT : T.WellPlaced) (m : Message) :
    (cascade hT).react m = ↑(react T m) := rfl

theorem simulates (hT : T.WellPlaced) :
    (cascade hT).Simulates (Net.Step T) Net.messages where
  step_proj {net net'} h := by
    cases h with
    | @deliver m hm =>
      have hsent : (if m.Faults (net.store m.dest) then 0 else ↑(react T m)) ≤
          (cascade hT).react m := by
        split
        · exact Multiset.zero_le _
        · exact le_rfl
      have hstep := Cascade.Step.deliver m (net.inFlight.erase m) net.delivered hsent
      rwa [Multiset.cons_erase hm] at hstep
  progress {net} h := by
    obtain ⟨m, hm⟩ := Multiset.exists_mem_of_ne_zero h
    exact ⟨net.deliver T m, .deliver hm⟩

end Cascade

end TPST
