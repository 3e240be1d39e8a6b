import Mathlib.Data.Int.CardIntervalMod
import TPST.Cluster.Deployment

/-!
# The ranks and their groups

A server has its role from its rank, compared with the number of groups and with the number of
servers that they take, and its group from the remainder of the rank. The ranks of the workers are
as many for each group as there are rounds of dealing (`count_dealt`), so the groups are equal:
`rank_partition`.
-/

namespace TPST

/-- The directories in which servers are recorded. -/
inductive Directory
  | coordinators (clusterIndex : ℕ)
  | workers (clusterIndex : ℕ)
  | freePool
  deriving DecidableEq, Repr

namespace Directory

/-- Where the directory is in the tree. -/
def path : Directory → Path
  | coordinators k => gmMultinodeip ++ ["cluster" ++ k.repr] ++ [gmCoordinatorDir]
  | workers k => gmMultinodeip ++ ["cluster" ++ k.repr] ++ [gmWorkerDir]
  | freePool => gmFreePool

/-- The `SERVERSTATUS` of the servers in the directory. -/
def status : Directory → ServerStatus
  | coordinators _ => .coordinator
  | workers _ => .worker
  | freePool => .freepool

/-- The directory is one of the free pool and the first `groupNumber` clusters. -/
def Within (groupNumber : ℕ) : Directory → Prop
  | coordinators k => k < groupNumber
  | workers k => k < groupNumber
  | freePool => True

end Directory

namespace GroupConfig

/-- The server with rank `r` and the address `addr r` puts its file in the directory. -/
def RecordedIn (cfg : GroupConfig) (addr : ℕ → String) (d : Directory) (r : ℕ) : Prop :=
  d.path ++ [addr r] ∈
    (cfg.recordIPortIntoClusterDir r (addr r) (cfg.getClusterDir r) []).1

instance (cfg : GroupConfig) (addr : ℕ → String) (d : Directory) :
    DecidablePred (cfg.RecordedIn addr d) := fun _ => inferInstanceAs (Decidable (_ ∈ _))

/-- The directory of a rank. -/
def directory (cfg : GroupConfig) (r : ℕ) : Directory :=
  match cfg.serverStatus r with
  | .coordinator => .coordinators (r % cfg.gmGroupNumber)
  | .worker => .workers (r % cfg.gmGroupNumber)
  | .freepool => .freePool

end GroupConfig

/-! ## The directory of a rank -/

/-- No cluster is called as the free pool is. -/
theorem freePool_ne_cluster (k : ℕ) : "FreePool" ≠ "cluster" ++ k.repr := by
  intro h
  have hhead := congrArg (fun s => s.toList.head?) h
  rw [String.toList_append] at hhead
  simp at hhead

/-- No directory has a file that is a directory. -/
theorem Directory.path_append_ne (d d' : Directory) (a : String) : d.path ++ [a] ≠ d'.path := by
  intro h
  cases d <;> cases d'
  all_goals simp [path, gmFreePool, gmMultinodeip, freePool_ne_cluster] at h

namespace GroupConfig

variable {cfg : GroupConfig} {r k : ℕ} {d : Directory}

theorem directory_eq_coordinators :
    cfg.directory r = .coordinators k ↔
      cfg.serverStatus r = .coordinator ∧ r % cfg.gmGroupNumber = k := by
  unfold directory
  cases cfg.serverStatus r <;> simp

theorem directory_eq_workers :
    cfg.directory r = .workers k ↔
      cfg.serverStatus r = .worker ∧ r % cfg.gmGroupNumber = k := by
  unfold directory
  cases cfg.serverStatus r <;> simp

theorem directory_eq_freePool : cfg.directory r = .freePool ↔ cfg.serverStatus r = .freepool := by
  unfold directory
  cases cfg.serverStatus r <;> simp

theorem status_directory : (cfg.directory r).status = cfg.serverStatus r := by
  unfold directory
  cases cfg.serverStatus r <;> rfl

theorem within_directory (hg : 0 < cfg.gmGroupNumber) :
    (cfg.directory r).Within cfg.gmGroupNumber := by
  have hmod := Nat.mod_lt r hg
  unfold directory
  cases cfg.serverStatus r with
  | coordinator => exact hmod
  | worker => exact hmod
  | freepool => trivial

theorem getClusterDir_eq :
    cfg.getClusterDir r = gmMultinodeip ++ ["cluster" ++ k.repr] ↔ r % cfg.gmGroupNumber = k := by
  rw [getClusterDir, List.append_right_inj, List.singleton_inj, String.append_right_inj,
    Nat.repr_inj]

/-- **A server is filed in the directory of its rank.** -/
theorem finalDir_eq_path (hs : 0 < cfg.gmRequiredGroupSize) :
    cfg.finalDir r = d.path ↔ cfg.directory r = d := by
  cases d with
  | coordinators k =>
    rw [Directory.path, finalDir_eq_coordinatorDir hs, getClusterDir_eq, directory_eq_coordinators]
  | workers k =>
    rw [Directory.path, finalDir_eq_workerDir hs, getClusterDir_eq, directory_eq_workers]
  | freePool =>
    rw [directory_eq_freePool, finalDir, dirSecond_eq hs]
    cases cfg.serverStatus r <;> simp [Directory.path, gmFreePool, gmMultinodeip, getClusterDir]

/-- Once servers have recorded themselves, a directory lists those it is the directory of. -/
theorem path_mem_recordAll (hs : 0 < cfg.gmRequiredGroupSize) {servers : List (ℕ × String)}
    {a : String} :
    d.path ++ [a] ∈ cfg.recordAll servers [] ↔
      ∃ r, (r, a) ∈ servers ∧ cfg.directory r = d := by
  rw [mem_recordAll]
  constructor
  · rintro (h | ⟨⟨r, a'⟩, hserver, h | h | h | h⟩)
    · simp at h
    · obtain ⟨hdir, ha⟩ := List.append_inj' h rfl
      obtain rfl := List.singleton_inj.1 ha
      exact ⟨r, hserver, (finalDir_eq_path hs).1 hdir.symm⟩
    -- the other paths created are directories
    · rw [(finalDir_eq_path hs).2 rfl] at h
      exact absurd h (d.path_append_ne _ a)
    · have hlength := congrArg List.length h
      rw [length_dirSecond] at hlength
      cases d <;> simp [Directory.path, gmFreePool, gmMultinodeip] at hlength
    · cases d <;> simp [Directory.path, gmFreePool, gmMultinodeip] at h
  · rintro ⟨r, hserver, hdir⟩
    exact .inr ⟨(r, a), hserver, .inl (by rw [(finalDir_eq_path hs).2 hdir])⟩

theorem recordedIn_iff (hs : 0 < cfg.gmRequiredGroupSize) (addr : ℕ → String) :
    cfg.RecordedIn addr d r ↔ cfg.directory r = d := by
  have hfiled := @path_mem_recordAll cfg d hs [(r, addr r)] (addr r)
  rw [show cfg.RecordedIn addr d r ↔ d.path ++ [addr r] ∈ cfg.recordAll [(r, addr r)] [] from
    Iff.rfl, hfiled]
  simp

end GroupConfig

/-! ## Counting ranks -/

section Count

variable {a b N g k : ℕ} {p : ℕ → Prop} [DecidablePred p]

/-- The ranks of an interval that have a property are counted from its start. -/
theorem count_interval (hN : a + b ≤ N) {q : ℕ → Prop} [DecidablePred q]
    (hq : ∀ r, q r ↔ (a ≤ r ∧ r < a + b) ∧ p r) :
    Nat.count q N = Nat.count (fun i => p (a + i)) b := by
  obtain ⟨m, rfl⟩ := Nat.exists_eq_add_of_le hN
  have hbefore : Nat.count q a = 0 := Nat.count_of_forall_not fun r hr h => by
    have := ((hq r).1 h).1
    omega
  have hafter : Nat.count (fun i => q (a + b + i)) m = 0 := Nat.count_of_forall_not fun i _ h => by
    have := ((hq (a + b + i)).1 h).1
    omega
  rw [Nat.count_add, Nat.count_add, hbefore, hafter, Nat.zero_add, Nat.add_zero, Nat.count,
    Nat.count]
  apply List.countP_congr
  intro i hi
  have hlt := List.mem_range.1 hi
  rw [decide_eq_true_eq, decide_eq_true_eq, hq]
  exact and_iff_right ⟨by omega, by omega⟩

/-- **Dealt out in turn**, every one of `g` hands gets one of each round. -/
theorem count_dealt (hk : k < g) (m : ℕ) : Nat.count (fun i => i % g = k) (g * m) = m := by
  have hmod : Nat.count (fun i => i % g = k) (g * m) = Nat.count (· ≡ k [MOD g]) (g * m) := by
    simp only [Nat.ModEq, Nat.mod_eq_of_lt hk]
  have hg : 0 < g := by omega
  rw [hmod, Nat.count_modEq_card _ hg, Nat.mul_mod_right, Nat.mul_div_cancel_left m hg,
    if_neg (Nat.not_lt_zero _), Nat.add_zero]

end Count

/-! ## The groups are equal -/

namespace GroupConfig

variable {cfg : GroupConfig} {N k r : ℕ}

theorem le_mul_groupSize (hs : 0 < cfg.gmRequiredGroupSize) :
    cfg.gmGroupNumber ≤ cfg.gmGroupNumber * cfg.gmRequiredGroupSize :=
  Nat.le_mul_of_pos_right _ hs

/-- The ranks from the number of groups on, as many rounds as a group has workers. -/
theorem mul_groupSize (hs : 0 < cfg.gmRequiredGroupSize) :
    cfg.gmGroupNumber + cfg.gmGroupNumber * (cfg.gmRequiredGroupSize - 1) =
      cfg.gmGroupNumber * cfg.gmRequiredGroupSize := by
  rw [Nat.mul_sub_one]
  exact Nat.add_sub_cancel' (le_mul_groupSize hs)

theorem serverStatus_eq_worker :
    cfg.serverStatus r = .worker ↔
      cfg.gmGroupNumber ≤ r ∧ r < cfg.gmGroupNumber * cfg.gmRequiredGroupSize := by
  unfold serverStatus
  split
  · simp; omega
  · split <;> simp <;> omega

theorem serverStatus_eq_freepool (hs : 0 < cfg.gmRequiredGroupSize) :
    cfg.serverStatus r = .freepool ↔ cfg.gmGroupNumber * cfg.gmRequiredGroupSize ≤ r := by
  have hle := le_mul_groupSize hs
  unfold serverStatus
  split
  · simp; omega
  · split <;> simp <;> omega

theorem count_coordinators (hs : 0 < cfg.gmRequiredGroupSize)
    (hN : cfg.gmGroupNumber * cfg.gmRequiredGroupSize ≤ N) (hk : k < cfg.gmGroupNumber) :
    Nat.count (fun r => cfg.directory r = .coordinators k) N = 1 := by
  have hle := (le_mul_groupSize hs).trans hN
  calc Nat.count (fun r => cfg.directory r = .coordinators k) N
      = Nat.count (fun i => (0 + i) % cfg.gmGroupNumber = k) cfg.gmGroupNumber :=
        count_interval (p := fun r => r % cfg.gmGroupNumber = k) (by omega) fun r => by
          rw [directory_eq_coordinators, serverStatus_eq_coordinator, Nat.zero_add]
          exact and_congr_left' (and_iff_right (Nat.zero_le r)).symm
    _ = Nat.count (fun i => i % cfg.gmGroupNumber = k) (cfg.gmGroupNumber * 1) := by
        simp only [Nat.zero_add, Nat.mul_one]
    _ = 1 := count_dealt hk 1

theorem count_workers (hs : 0 < cfg.gmRequiredGroupSize)
    (hN : cfg.gmGroupNumber * cfg.gmRequiredGroupSize ≤ N) (hk : k < cfg.gmGroupNumber) :
    Nat.count (fun r => cfg.directory r = .workers k) N = cfg.gmRequiredGroupSize - 1 := by
  have hsize := mul_groupSize hs
  calc Nat.count (fun r => cfg.directory r = .workers k) N
      = Nat.count (fun i => (cfg.gmGroupNumber + i) % cfg.gmGroupNumber = k)
          (cfg.gmGroupNumber * (cfg.gmRequiredGroupSize - 1)) :=
        count_interval (p := fun r => r % cfg.gmGroupNumber = k) (by omega) fun r => by
          rw [directory_eq_workers, serverStatus_eq_worker, hsize]
    _ = Nat.count (fun i => i % cfg.gmGroupNumber = k)
          (cfg.gmGroupNumber * (cfg.gmRequiredGroupSize - 1)) := by
        simp only [Nat.add_mod_left]
    _ = cfg.gmRequiredGroupSize - 1 := count_dealt hk _

theorem count_freePool (hs : 0 < cfg.gmRequiredGroupSize)
    (hN : cfg.gmGroupNumber * cfg.gmRequiredGroupSize ≤ N) :
    Nat.count (fun r => cfg.directory r = .freePool) N =
      N - cfg.gmGroupNumber * cfg.gmRequiredGroupSize := by
  have hsplit := Nat.add_sub_cancel' hN
  have hcount : ∀ r, cfg.directory r = .freePool ↔
      cfg.gmGroupNumber * cfg.gmRequiredGroupSize ≤ r := fun r => by
    rw [directory_eq_freePool, serverStatus_eq_freepool hs]
  have hbefore : Nat.count (fun r => cfg.directory r = .freePool)
      (cfg.gmGroupNumber * cfg.gmRequiredGroupSize) = 0 :=
    Nat.count_of_forall_not fun r hr h => absurd ((hcount r).1 h) (by omega)
  rw [← hsplit, Nat.count_add, hbefore, Nat.zero_add, hsplit]
  exact Nat.count_of_forall fun i _ => (hcount _).2 (by omega)

end GroupConfig

namespace Deployment

/-- **A directory lists as many addresses** as it has ranks, in whatever order the servers record
themselves. -/
theorem length_listing (D : Deployment) (d : Directory) :
    (loadAddrInDir D.files d.path).length =
      Nat.count (fun r => D.directory r = d) D.servers.length := by
  have hlisted : (loadAddrInDir D.files d.path).Perm
      ((D.servers.filter fun server => D.directory server.1 = d).map Prod.snd) := by
    apply (List.perm_ext_iff_of_nodup
      (nodup_loadAddrInDir (GroupConfig.nodup_recordAll List.nodup_nil) _)
      (D.nodup_addrs.sublist (List.filter_sublist.map _))).2
    intro a
    rw [mem_loadAddrInDir]
    refine (GroupConfig.path_mem_recordAll D.groupSize_pos).trans ?_
    simp
  have hcount := (D.ranks.countP_eq fun r => decide (D.directory r = d))
  rw [List.countP_map] at hcount
  rw [hlisted.length_eq, List.length_map, ← List.countP_eq_length_filter]
  exact hcount

end Deployment

/-- **The ranks are dealt out into equal groups.** Of `N` servers, enough for the groups, every
cluster gets one coordinator and one worker fewer than it has servers, and the others wait in the
free pool. Every rank is recorded in one directory, with the `SERVERSTATUS` of that directory, and
the directory tree of a deployment lists them so. -/
theorem rank_partition (cfg : GroupConfig) (hg : 0 < cfg.gmGroupNumber)
    (hs : 0 < cfg.gmRequiredGroupSize) {N : ℕ}
    (hN : cfg.gmGroupNumber * cfg.gmRequiredGroupSize ≤ N) (addr : ℕ → String) :
    (∀ k < cfg.gmGroupNumber,
      Nat.count (cfg.RecordedIn addr (.coordinators k)) N = 1 ∧
        Nat.count (cfg.RecordedIn addr (.workers k)) N = cfg.gmRequiredGroupSize - 1) ∧
    Nat.count (cfg.RecordedIn addr .freePool) N =
      N - cfg.gmGroupNumber * cfg.gmRequiredGroupSize ∧
    (∀ r < N, ∃ d : Directory, d.Within cfg.gmGroupNumber ∧
      (∀ d', cfg.RecordedIn addr d' r ↔ d = d') ∧
      ∀ fs, (cfg.recordIPortIntoClusterDir r (addr r) (cfg.getClusterDir r) fs).2 = d.status) ∧
    ∀ D : Deployment, D.toGroupConfig = cfg → D.servers.length = N → ∀ d : Directory,
      (loadAddrInDir D.files d.path).length = Nat.count (cfg.RecordedIn addr d) N := by
  have hrecorded : ∀ d, Nat.count (cfg.RecordedIn addr d) N =
      Nat.count (fun r => cfg.directory r = d) N := fun d => by
    rw [Nat.count, Nat.count]
    apply List.countP_congr
    intro r _
    rw [decide_eq_true_eq, decide_eq_true_eq, GroupConfig.recordedIn_iff hs]
  refine ⟨fun k hk => ⟨?_, ?_⟩, ?_, fun r _ => ?_, ?_⟩
  · rw [hrecorded, GroupConfig.count_coordinators hs hN hk]
  · rw [hrecorded, GroupConfig.count_workers hs hN hk]
  · rw [hrecorded, GroupConfig.count_freePool hs hN]
  · refine ⟨cfg.directory r, GroupConfig.within_directory hg,
      fun _ => GroupConfig.recordedIn_iff hs addr, fun fs => ?_⟩
    rw [cfg.recordIPortIntoClusterDir_snd, GroupConfig.status_directory]
  · rintro D rfl rfl d
    rw [hrecorded, D.length_listing]

/-- Five servers for two groups of two. -/
theorem rank_partition_five :
    (∀ k < 2,
      Nat.count (GroupConfig.RecordedIn ⟨2, 2⟩ (fun r => "n" ++ r.repr) (.coordinators k)) 5 = 1 ∧
        Nat.count (GroupConfig.RecordedIn ⟨2, 2⟩ (fun r => "n" ++ r.repr) (.workers k)) 5 = 1) ∧
    Nat.count (GroupConfig.RecordedIn ⟨2, 2⟩ (fun r => "n" ++ r.repr) .freePool) 5 = 1 := by
  obtain ⟨hgroups, hpool, -⟩ := rank_partition ⟨2, 2⟩ (by simp) (by simp) (N := 5) (by simp)
    fun r => "n" ++ r.repr
  exact ⟨hgroups, hpool⟩

end TPST
