import Mathlib.Data.List.Range
import TPST.Cluster.Network

/-!
# A deployment

The servers of a deployment have ranks `0 .. n - 1` and one address each. All of them record
themselves with `recordIPortIntoClusterDir`, in any order, before `updateCoordinatorAddr` reads the
coordinator directories. The resulting topology is well placed (`wellPlaced_topology`).
-/

namespace TPST

open Std

/-- The servers of a deployment, with their ranks, in the order in which they record themselves. -/
structure Deployment extends GroupConfig where
  servers : List (ℕ × String)
  groupNumber_pos : 0 < gmGroupNumber
  groupSize_pos : 0 < gmRequiredGroupSize
  ranks : (servers.map Prod.fst).Perm (List.range servers.length)
  nodup_addrs : (servers.map Prod.snd).Nodup

namespace Deployment

variable (D : Deployment)

/-- The directory tree once all servers have recorded themselves. -/
def files : FileTree := D.recordAll D.servers []

/-- The server with a rank. -/
def member (eventRecordMap : EventRecordMap) (gmRank : ℕ) : Member where
  status := D.serverStatus gmRank
  clusterDir := D.getClusterDir gmRank
  coordinatorAddrSet := updateCoordinatorAddr D.files ∅
  eventRecordMap := eventRecordMap

/-- The topology of the deployment, given the record of each server. -/
def topology (record : String → EventRecordMap) : Topology where
  member? addr := (D.servers.find? fun server => server.2 = addr).map fun server =>
    D.member (record addr) server.1
  files := D.files

variable {D} {record : String → EventRecordMap} {a a' : String} {r r' : ℕ}

theorem nodup_ranks : (D.servers.map Prod.fst).Nodup := D.ranks.nodup_iff.2 List.nodup_range

theorem rank_unique (h : (r, a) ∈ D.servers) (h' : (r', a) ∈ D.servers) : r = r' :=
  congrArg Prod.fst (List.inj_on_of_nodup_map D.nodup_addrs h h' rfl)

theorem addr_unique (h : (r, a) ∈ D.servers) (h' : (r, a') ∈ D.servers) : a = a' :=
  congrArg Prod.snd (List.inj_on_of_nodup_map D.nodup_ranks h h' rfl)

/-- There is a server for every rank below that of a server. -/
theorem exists_addr (h : (r, a) ∈ D.servers) (hle : r' ≤ r) : ∃ a', (r', a') ∈ D.servers := by
  have hr : r ∈ List.range D.servers.length :=
    D.ranks.mem_iff.1 (List.mem_map.2 ⟨(r, a), h, rfl⟩)
  have hr' : r' ∈ D.servers.map Prod.fst :=
    D.ranks.mem_iff.2 (List.mem_range.2 (hle.trans_lt (List.mem_range.1 hr)))
  obtain ⟨⟨_, a'⟩, hserver, rfl⟩ := List.mem_map.1 hr'
  exact ⟨a', hserver⟩

theorem member?_topology {m : Member} :
    (D.topology record).member? a = some m ↔
      ∃ r, (r, a) ∈ D.servers ∧ m = D.member (record a) r := by
  simp only [topology, Option.map_eq_some_iff]
  constructor
  · rintro ⟨⟨r, a'⟩, hfind, rfl⟩
    have ha : a' = a := by simpa using List.find?_some hfind
    exact ⟨r, ha ▸ List.mem_of_find?_eq_some hfind, rfl⟩
  · rintro ⟨r, hserver, rfl⟩
    cases hfind : D.servers.find? fun server => server.2 = a with
    | none =>
      have hne := List.find?_eq_none.1 hfind (r, a) hserver
      simp at hne
    | some server =>
      obtain ⟨r', a'⟩ := server
      have ha : a' = a := by simpa using List.find?_some hfind
      subst ha
      have hr := D.rank_unique (List.mem_of_find?_eq_some hfind) hserver
      exact ⟨(r', a'), rfl, by rw [hr]⟩

/-- The workers of a server's directory are those of its group. -/
theorem mem_workers {record₀ : EventRecordMap} :
    a ∈ (D.topology record).workers (D.member record₀ r).clusterDir ↔
      ∃ r', (r', a) ∈ D.servers ∧ D.serverStatus r' = .worker ∧
        r' % D.gmGroupNumber = r % D.gmGroupNumber :=
  GroupConfig.mem_workerDir D.groupSize_pos

theorem mem_workers_iff {record₀ : EventRecordMap} (h : (r', a) ∈ D.servers) :
    a ∈ (D.topology record).workers (D.member record₀ r).clusterDir ↔
      D.serverStatus r' = .worker ∧ r' % D.gmGroupNumber = r % D.gmGroupNumber := by
  rw [mem_workers]
  constructor
  · rintro ⟨k, hk, hworker⟩
    rwa [D.rank_unique h hk]
  · exact fun hworker => ⟨r', h, hworker⟩

theorem isCoordinator_topology :
    (D.topology record).IsCoordinator a ↔ ∃ r, (r, a) ∈ D.servers ∧ r < D.gmGroupNumber := by
  constructor
  · rintro ⟨m, hm, hstatus⟩
    obtain ⟨r, hserver, rfl⟩ := member?_topology.1 hm
    exact ⟨r, hserver, GroupConfig.serverStatus_eq_coordinator.1 hstatus⟩
  · rintro ⟨r, hserver, hr⟩
    exact ⟨_, member?_topology.2 ⟨r, hserver, rfl⟩, GroupConfig.serverStatus_eq_coordinator.2 hr⟩

/-- **Every server knows all coordinators.** -/
theorem mem_coordinatorAddrSet {record₀ : EventRecordMap} :
    a ∈ (D.member record₀ r).coordinatorAddrSet ↔
      ∃ r', (r', a) ∈ D.servers ∧ r' < D.gmGroupNumber :=
  GroupConfig.mem_updateCoordinatorAddr_recordAll D.groupSize_pos D.nodup_ranks

/-- **The servers of a deployment are well placed.** -/
theorem wellPlaced_topology (D : Deployment) (record : String → EventRecordMap) :
    (D.topology record).WellPlaced where
  files_nodup := GroupConfig.nodup_recordAll List.nodup_nil
  disjoint_workers {a a' m m'} hm hm' hne w hw hw' := by
    obtain ⟨r, -, rfl⟩ := member?_topology.1 hm
    obtain ⟨r', -, rfl⟩ := member?_topology.1 hm'
    obtain ⟨k, hk, -, hmod⟩ := mem_workers.1 hw
    obtain ⟨k', hk', -, hmod'⟩ := mem_workers.1 hw'
    obtain rfl := D.rank_unique hk hk'
    exact hne (GroupConfig.getClusterDir_inj.2 (hmod.symm.trans hmod'))
  workers {a m} hm w hw := by
    obtain ⟨r, -, rfl⟩ := member?_topology.1 hm
    obtain ⟨k, hk, hstatus, -⟩ := mem_workers.1 hw
    refine ⟨_, member?_topology.2 ⟨k, hk, rfl⟩, ?_⟩
    simp [member, hstatus]
  coordinators {a m} hm c hc := by
    obtain ⟨r, -, rfl⟩ := member?_topology.1 hm
    exact isCoordinator_topology.2 (mem_coordinatorAddrSet.1 hc)
  one_coordinator {c c' m m'} hm hm' hstatus hstatus' hdir := by
    obtain ⟨r, hserver, rfl⟩ := member?_topology.1 hm
    obtain ⟨r', hserver', rfl⟩ := member?_topology.1 hm'
    have hmod := GroupConfig.getClusterDir_inj.1 hdir
    rw [Nat.mod_eq_of_lt (GroupConfig.serverStatus_eq_coordinator.1 hstatus),
      Nat.mod_eq_of_lt (GroupConfig.serverStatus_eq_coordinator.1 hstatus')] at hmod
    exact D.addr_unique hserver (hmod ▸ hserver')

end Deployment

end TPST
