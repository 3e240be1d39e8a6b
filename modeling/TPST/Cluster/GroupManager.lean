import Mathlib.Data.List.Infix
import Mathlib.Tactic.Tauto
import Std.Data.String.ToNat
import TPST.Foundations.Maps

/-!
# The groups and their directories

`groupManager.cpp` keeps the addresses of the servers in a directory tree. A server with a rank
below the number of groups is the coordinator of a group; the next ones are workers, dealt out to
the groups in turn; the rest wait in the free pool. `recordIPortIntoClusterDir` files a server as
an empty file named by its address in the directory of its role, and `loadAddrInDir` lists a
directory.

The tree is the list of the paths created, in the order of creation, which is also the order in
which a directory is listed. `mem_recordAll` says which paths are there once a list of servers has
been filed.
-/

namespace TPST

open Std

/-- A path, by its components. -/
abbrev Path := List String

/-- The files and directories that are there. -/
abbrev FileTree := List Path

/-- `createDir`, and `fopen` for writing: make an entry unless it is there. -/
def createEntry (p : Path) (fs : FileTree) : FileTree := if p ∈ fs then fs else fs ++ [p]

/-- `loadAddrInDir`: the names of the entries of a directory. -/
def loadAddrInDir (fs : FileTree) (dir : Path) : List String :=
  fs.filterMap fun p => if p.dropLast = dir then p.getLast? else none

/-- `gm_multinodeip`. -/
def gmMultinodeip : Path := [".", "multinodeip"]

/-- `gm_FreePool`. -/
def gmFreePool : Path := gmMultinodeip ++ ["FreePool"]

/-- `gm_coordinatorDir`. -/
def gmCoordinatorDir : String := "coordinator"

/-- `gm_workerDir`. -/
def gmWorkerDir : String := "worker"

/-- `SERVERSTATUS`. -/
inductive ServerStatus
  | coordinator
  | worker
  | freepool
  deriving DecidableEq, Repr

/-- The number of groups and their size, as given on the command line. -/
structure GroupConfig where
  gmGroupNumber : ℕ
  gmRequiredGroupSize : ℕ

namespace GroupConfig

variable (cfg : GroupConfig)

/-- `getClusterDir`. -/
def getClusterDir (currentID : ℕ) : Path :=
  gmMultinodeip ++ ["cluster" ++ (currentID % cfg.gmGroupNumber).repr]

/-- `recordIPortIntoClusterDir` for the server with a rank and an address, and the `SERVERSTATUS`
it sets. -/
def recordIPortIntoClusterDir (gmRank : ℕ) (addr : String) (clusterDir : Path) (fs : FileTree) :
    FileTree × ServerStatus :=
  let dirSecond :=
    if cfg.gmGroupNumber * cfg.gmRequiredGroupSize ≤ gmRank then gmFreePool else clusterDir
  let fs := createEntry dirSecond (createEntry gmMultinodeip fs)
  if gmRank < cfg.gmGroupNumber then
    let dirThird := dirSecond ++ [gmCoordinatorDir]
    (createEntry (dirThird ++ [addr]) (createEntry dirThird fs), .coordinator)
  else if gmRank < cfg.gmGroupNumber * cfg.gmRequiredGroupSize then
    let dirThird := dirSecond ++ [gmWorkerDir]
    (createEntry (dirThird ++ [addr]) (createEntry dirThird fs), .worker)
  else (createEntry (dirSecond ++ [addr]) fs, .freepool)

/-- Every server, given by its rank and its address, records itself in the directory of its
rank. -/
def recordAll (servers : List (ℕ × String)) (fs : FileTree) : FileTree :=
  servers.foldl
    (fun fs server =>
      (cfg.recordIPortIntoClusterDir server.1 server.2 (cfg.getClusterDir server.1) fs).1) fs

end GroupConfig

/-- `updateCoordinatorAddr`, which takes the first address of each coordinator directory. -/
def updateCoordinatorAddr (fs : FileTree) (coordinatorAddrSet : OSet String) : OSet String :=
  (loadAddrInDir fs gmMultinodeip).foldl
    (fun set clusterName =>
      match loadAddrInDir fs (gmMultinodeip ++ [clusterName] ++ [gmCoordinatorDir]) with
      | [] => set
      | coor :: _ => set.insert coor) coordinatorAddrSet

/-! ## Directories -/

section FileTree

variable {fs : FileTree} {p q dir : Path} {a : String}

@[simp] theorem mem_createEntry : q ∈ createEntry p fs ↔ q = p ∨ q ∈ fs := by
  unfold createEntry
  split
  · rename_i hp
    exact ⟨.inr, fun h => h.elim (fun hq => hq ▸ hp) id⟩
  · rw [List.mem_append, List.mem_singleton, or_comm]

theorem nodup_createEntry (h : fs.Nodup) : (createEntry p fs).Nodup := by
  unfold createEntry
  split
  · exact h
  · rename_i hp
    exact List.nodup_append.2 ⟨h, List.nodup_singleton p, by
      rintro q hq q' hq' rfl
      exact hp (List.mem_singleton.1 hq' ▸ hq)⟩

theorem entry_eq_some :
    (if p.dropLast = dir then p.getLast? else none) = some a ↔ p = dir ++ [a] := by
  constructor
  · intro h
    split at h
    · rename_i hdir
      rw [← hdir, List.dropLast_append_getLast? a h]
    · cases h
  · rintro rfl
    simp

@[simp] theorem mem_loadAddrInDir : a ∈ loadAddrInDir fs dir ↔ dir ++ [a] ∈ fs := by
  simp only [loadAddrInDir, List.mem_filterMap, entry_eq_some, exists_eq_right]

theorem nodup_loadAddrInDir (h : fs.Nodup) (dir : Path) : (loadAddrInDir fs dir).Nodup := by
  apply h.filterMap
  intro p q a hp hq
  rw [entry_eq_some.1 (Option.mem_def.1 hp), entry_eq_some.1 (Option.mem_def.1 hq)]

/-- A directory lists its entries in their order. -/
theorem loadAddrInDir_cons (p : Path) (fs : FileTree) (dir : Path) :
    loadAddrInDir (p :: fs) dir =
      (if p.dropLast = dir then p.getLast? else none).toList ++ loadAddrInDir fs dir := by
  rw [loadAddrInDir, List.filterMap_cons]
  cases (if p.dropLast = dir then p.getLast? else none) <;> rfl

theorem loadAddrInDir_append (fs fs' : FileTree) (dir : Path) :
    loadAddrInDir (fs ++ fs') dir = loadAddrInDir fs dir ++ loadAddrInDir fs' dir :=
  List.filterMap_append

/-- A new entry is listed in its directory. -/
theorem loadAddrInDir_snoc (fs : FileTree) (dir : Path) (a : String) :
    loadAddrInDir (fs ++ [dir ++ [a]]) dir = loadAddrInDir fs dir ++ [a] := by
  rw [loadAddrInDir_append]
  congr 1
  simp [loadAddrInDir]

theorem loadAddrInDir_snoc_of_ne (fs : FileTree) (h : p.dropLast ≠ dir) :
    loadAddrInDir (fs ++ [p]) dir = loadAddrInDir fs dir := by
  rw [loadAddrInDir_append]
  simp [loadAddrInDir, h]

theorem loadAddrInDir_createEntry_of_ne (h : p.dropLast ≠ dir) :
    loadAddrInDir (createEntry p fs) dir = loadAddrInDir fs dir := by
  unfold createEntry
  split
  · rfl
  · exact loadAddrInDir_snoc_of_ne fs h

/-- Each coordinator directory contributes its first address. -/
theorem mem_updateCoordinatorAddr {set : OSet String} :
    a ∈ updateCoordinatorAddr fs set ↔
      a ∈ set ∨ ∃ clusterName ∈ loadAddrInDir fs gmMultinodeip,
        (loadAddrInDir fs (gmMultinodeip ++ [clusterName] ++ [gmCoordinatorDir])).head? =
          some a := by
  unfold updateCoordinatorAddr
  induction loadAddrInDir fs gmMultinodeip generalizing set with
  | nil => simp
  | cons clusterName names ih =>
    rw [List.foldl_cons, ih, List.exists_mem_cons_iff, ← or_assoc]
    refine or_congr ?_ Iff.rfl
    cases loadAddrInDir fs (gmMultinodeip ++ [clusterName] ++ [gmCoordinatorDir]) with
    | nil => simp
    | cons coor _ => simp [ExtTreeSet.mem_insert, or_comm]

end FileTree

/-! ## Where the servers are -/

namespace GroupConfig

variable (cfg : GroupConfig)

/-- The role of a rank. -/
def serverStatus (gmRank : ℕ) : ServerStatus :=
  if gmRank < cfg.gmGroupNumber then .coordinator
  else if gmRank < cfg.gmGroupNumber * cfg.gmRequiredGroupSize then .worker
  else .freepool

/-- `dirSecond` of `recordIPortIntoClusterDir`. -/
def dirSecond (gmRank : ℕ) : Path :=
  if cfg.gmGroupNumber * cfg.gmRequiredGroupSize ≤ gmRank then gmFreePool
  else cfg.getClusterDir gmRank

/-- `finalDir` of `recordIPortIntoClusterDir`. -/
def finalDir (gmRank : ℕ) : Path :=
  match cfg.serverStatus gmRank with
  | .coordinator => cfg.dirSecond gmRank ++ [gmCoordinatorDir]
  | .worker => cfg.dirSecond gmRank ++ [gmWorkerDir]
  | .freepool => cfg.dirSecond gmRank

theorem recordIPortIntoClusterDir_snd (gmRank : ℕ) (addr : String) (clusterDir : Path)
    (fs : FileTree) :
    (cfg.recordIPortIntoClusterDir gmRank addr clusterDir fs).2 = cfg.serverStatus gmRank := by
  simp only [recordIPortIntoClusterDir, serverStatus]
  by_cases hcoordinator : gmRank < cfg.gmGroupNumber
  · simp only [hcoordinator, ↓reduceIte]
  · by_cases hworker : gmRank < cfg.gmGroupNumber * cfg.gmRequiredGroupSize
    · simp only [hcoordinator, hworker, ↓reduceIte]
    · simp only [hcoordinator, hworker, ↓reduceIte]

/-- **A server is filed** in the directory of its role, which is created if need be. -/
theorem recordIPortIntoClusterDir_fst (gmRank : ℕ) (addr : String) (fs : FileTree) :
    (cfg.recordIPortIntoClusterDir gmRank addr (cfg.getClusterDir gmRank) fs).1 =
      createEntry (cfg.finalDir gmRank ++ [addr])
        (createEntry (cfg.finalDir gmRank)
          (createEntry (cfg.dirSecond gmRank) (createEntry gmMultinodeip fs))) := by
  simp only [recordIPortIntoClusterDir, finalDir, serverStatus, dirSecond]
  by_cases hcoordinator : gmRank < cfg.gmGroupNumber
  · simp only [hcoordinator, ↓reduceIte]
  · by_cases hworker : gmRank < cfg.gmGroupNumber * cfg.gmRequiredGroupSize
    · simp only [hcoordinator, hworker, ↓reduceIte]
    · -- here the final directory has been created already
      have hagain : ∀ (p : Path) (fs : FileTree),
          createEntry p (createEntry p fs) = createEntry p fs := fun p fs => by
        rw [createEntry, if_pos (mem_createEntry.2 (.inl rfl))]
      simp only [hcoordinator, hworker, ↓reduceIte, hagain]

variable {cfg} {servers : List (ℕ × String)}

theorem mem_recordAll {q : Path} {fs : FileTree} :
    q ∈ cfg.recordAll servers fs ↔
      q ∈ fs ∨ ∃ server ∈ servers, q = cfg.finalDir server.1 ++ [server.2] ∨
        q = cfg.finalDir server.1 ∨ q = cfg.dirSecond server.1 ∨ q = gmMultinodeip := by
  unfold recordAll
  induction servers generalizing fs with
  | nil => simp
  | cons server servers ih =>
    rw [List.foldl_cons, ih, List.exists_mem_cons_iff, recordIPortIntoClusterDir_fst, ← or_assoc]
    refine or_congr ?_ Iff.rfl
    simp only [mem_createEntry]
    tauto

theorem nodup_recordAll {fs : FileTree} (h : fs.Nodup) : (cfg.recordAll servers fs).Nodup := by
  refine List.foldlRecOn servers _ h fun fs hfs server _ => ?_
  rw [recordIPortIntoClusterDir_fst]
  exact nodup_createEntry (nodup_createEntry (nodup_createEntry (nodup_createEntry hfs)))

/-! ### The directories of the groups -/

theorem getClusterDir_inj {r r' : ℕ} :
    cfg.getClusterDir r = cfg.getClusterDir r' ↔
      r % cfg.gmGroupNumber = r' % cfg.gmGroupNumber := by
  rw [getClusterDir, getClusterDir, List.append_right_inj, List.singleton_inj,
    String.append_right_inj, Nat.repr_inj]

theorem length_dirSecond (r : ℕ) : (cfg.dirSecond r).length = 3 := by
  unfold dirSecond
  split <;> rfl

theorem length_finalDir_le (r : ℕ) : (cfg.finalDir r).length ≤ 4 := by
  unfold finalDir
  split <;> simp [length_dirSecond]

@[simp] theorem serverStatus_eq_coordinator {r : ℕ} :
    cfg.serverStatus r = .coordinator ↔ r < cfg.gmGroupNumber := by
  unfold serverStatus
  split
  · simpa
  · split <;> simp <;> omega

/-- With groups of at least one server, a coordinator is below its cluster directory. -/
theorem dirSecond_eq (hsize : 0 < cfg.gmRequiredGroupSize) (r : ℕ) :
    cfg.dirSecond r =
      if cfg.serverStatus r = .freepool then gmFreePool else cfg.getClusterDir r := by
  have hgroups : cfg.gmGroupNumber ≤ cfg.gmGroupNumber * cfg.gmRequiredGroupSize :=
    Nat.le_mul_of_pos_right _ hsize
  unfold dirSecond serverStatus
  by_cases hcoordinator : r < cfg.gmGroupNumber
  · simp only [hcoordinator, ↓reduceIte, reduceCtorEq]
    exact if_neg (by omega)
  · by_cases hworker : r < cfg.gmGroupNumber * cfg.gmRequiredGroupSize
    · simp only [hcoordinator, hworker, ↓reduceIte, reduceCtorEq]
      exact if_neg (by omega)
    · simp only [hcoordinator, hworker, ↓reduceIte]
      exact if_pos (by omega)

theorem finalDir_eq_workerDir (hsize : 0 < cfg.gmRequiredGroupSize) {r : ℕ} {d : Path} :
    cfg.finalDir r = d ++ [gmWorkerDir] ↔
      cfg.serverStatus r = .worker ∧ cfg.getClusterDir r = d := by
  rw [finalDir, dirSecond_eq hsize]
  cases cfg.serverStatus r with
  | coordinator => simp [gmCoordinatorDir, gmWorkerDir]
  | worker => simp
  | freepool =>
    simp only [↓reduceIte, reduceCtorEq, false_and, iff_false]
    intro h
    simpa [gmFreePool, gmMultinodeip, gmWorkerDir] using congrArg List.getLast? h

theorem finalDir_eq_coordinatorDir (hsize : 0 < cfg.gmRequiredGroupSize) {r : ℕ} {d : Path} :
    cfg.finalDir r = d ++ [gmCoordinatorDir] ↔
      cfg.serverStatus r = .coordinator ∧ cfg.getClusterDir r = d := by
  rw [finalDir, dirSecond_eq hsize]
  cases cfg.serverStatus r with
  | coordinator => simp
  | worker => simp [gmCoordinatorDir, gmWorkerDir]
  | freepool =>
    simp only [↓reduceIte, reduceCtorEq, false_and, iff_false]
    intro h
    simpa [gmFreePool, gmMultinodeip, gmCoordinatorDir] using congrArg List.getLast? h

/-- The directory of a role in a group lists the servers filed there. -/
theorem mem_loadAddrInDir_recordAll {d : Path} {role a : String} (hd : d.length = 3) :
    a ∈ loadAddrInDir (cfg.recordAll servers []) (d ++ [role]) ↔
      ∃ r, (r, a) ∈ servers ∧ cfg.finalDir r = d ++ [role] := by
  rw [mem_loadAddrInDir, mem_recordAll]
  constructor
  · rintro (h | ⟨⟨r, a'⟩, hserver, h | h | h | h⟩)
    · simp at h
    · obtain ⟨hdir, ha⟩ := List.append_inj' h rfl
      obtain rfl := List.singleton_inj.1 ha
      exact ⟨r, hserver, hdir.symm⟩
    -- the other paths created are shorter
    · have hlength := cfg.length_finalDir_le r
      simp [← h, hd] at hlength
    · have hlength := cfg.length_dirSecond r
      simp [← h, hd] at hlength
    · simpa [hd, gmMultinodeip] using congrArg List.length h
  · rintro ⟨r, hserver, hdir⟩
    exact .inr ⟨(r, a), hserver, .inl (by rw [hdir])⟩

/-- **The worker directory of a group** lists the workers of its ranks. -/
theorem mem_workerDir (hsize : 0 < cfg.gmRequiredGroupSize) {k : ℕ} {a : String} :
    a ∈ loadAddrInDir (cfg.recordAll servers []) (cfg.getClusterDir k ++ [gmWorkerDir]) ↔
      ∃ r, (r, a) ∈ servers ∧ cfg.serverStatus r = .worker ∧
        r % cfg.gmGroupNumber = k % cfg.gmGroupNumber := by
  rw [mem_loadAddrInDir_recordAll rfl]
  simp only [finalDir_eq_workerDir hsize, getClusterDir_inj]

/-- **The coordinator directory of a group** lists the server whose rank is its number. -/
theorem mem_coordinatorDir (hsize : 0 < cfg.gmRequiredGroupSize) {d : Path} {a : String}
    (hd : d.length = 3) :
    a ∈ loadAddrInDir (cfg.recordAll servers []) (d ++ [gmCoordinatorDir]) ↔
      ∃ r, (r, a) ∈ servers ∧ r < cfg.gmGroupNumber ∧ cfg.getClusterDir r = d := by
  rw [mem_loadAddrInDir_recordAll hd]
  simp only [finalDir_eq_coordinatorDir hsize, serverStatus_eq_coordinator]

/-- The coordinator directory of a group lists no other server. -/
theorem head?_coordinatorDir (hsize : 0 < cfg.gmRequiredGroupSize)
    (hservers : (servers.map Prod.fst).Nodup) {r : ℕ} {a : String} (hserver : (r, a) ∈ servers)
    (hr : r < cfg.gmGroupNumber) :
    (loadAddrInDir (cfg.recordAll servers [])
      (cfg.getClusterDir r ++ [gmCoordinatorDir])).head? = some a := by
  have honly : ∀ a' ∈ loadAddrInDir (cfg.recordAll servers [])
      (cfg.getClusterDir r ++ [gmCoordinatorDir]), a' = a := by
    intro a' ha'
    obtain ⟨r', hserver', hr', hdir⟩ := (mem_coordinatorDir hsize rfl).1 ha'
    have hmod := getClusterDir_inj.1 hdir
    rw [Nat.mod_eq_of_lt hr', Nat.mod_eq_of_lt hr] at hmod
    subst hmod
    exact congrArg Prod.snd (List.inj_on_of_nodup_map hservers hserver' hserver rfl)
  have hlisted : a ∈ loadAddrInDir (cfg.recordAll servers [])
      (cfg.getClusterDir r ++ [gmCoordinatorDir]) :=
    (mem_coordinatorDir hsize rfl).2 ⟨r, hserver, hr, rfl⟩
  cases hlist : loadAddrInDir (cfg.recordAll servers [])
      (cfg.getClusterDir r ++ [gmCoordinatorDir]) with
  | nil => simp [hlist] at hlisted
  | cons a' _ => rw [List.head?_cons, honly a' (by simp [hlist])]

/-- **Every server finds all coordinators**, one for each group. -/
theorem mem_updateCoordinatorAddr_recordAll (hsize : 0 < cfg.gmRequiredGroupSize)
    (hservers : (servers.map Prod.fst).Nodup) {a : String} :
    a ∈ updateCoordinatorAddr (cfg.recordAll servers []) ∅ ↔
      ∃ r, (r, a) ∈ servers ∧ r < cfg.gmGroupNumber := by
  rw [mem_updateCoordinatorAddr]
  constructor
  · rintro (h | ⟨clusterName, -, h⟩)
    · simp at h
    · obtain ⟨r, hserver, hr, -⟩ := (mem_coordinatorDir hsize rfl).1 (List.mem_of_mem_head? h)
      exact ⟨r, hserver, hr⟩
  · rintro ⟨r, hserver, hr⟩
    refine .inr ⟨"cluster" ++ (r % cfg.gmGroupNumber).repr, ?_,
      head?_coordinatorDir hsize hservers hserver hr⟩
    -- the cluster directory was created for the coordinator
    rw [mem_loadAddrInDir, mem_recordAll]
    refine .inr ⟨(r, a), hserver, .inr (.inr (.inl ?_))⟩
    rw [dirSecond_eq hsize, if_neg]
    · rfl
    · simp [serverStatus_eq_coordinator.2 hr]

end GroupConfig

end TPST
