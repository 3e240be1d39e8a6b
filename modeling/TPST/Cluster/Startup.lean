import TPST.Cluster.Partition
import TPST.Foundations.Linearization
import TPST.Foundations.Threads

/-!
# The start of the servers

The servers of a deployment start at their own pace. Each makes the directories that it needs,
creates its address file and lists the coordinators, and there is no barrier in between. This is a
model of any number of servers that do so, under any interleaving of their file operations.

* `startup_files`: at every moment the directories list what the servers that have recorded
  themselves leave one after the other, as the servers of a `Deployment` do.
* `startup_wait_free`: every server comes up, whatever the others do.
-/

namespace TPST

open Std Schedule

/-! ## Directories -/

theorem Directory.three_le_length (d : Directory) : 3 ≤ d.path.length := by
  cases d with
  | coordinators k => exact Nat.le_succ 3
  | workers k => exact Nat.le_succ 3
  | freePool => exact Nat.le_refl 3

namespace GroupConfig

variable {cfg : GroupConfig} {r : ℕ} {d : Directory} {p : Path} {a : String}
  {servers : List (ℕ × String)}

/-- The directories that a server makes. -/
def dirs (cfg : GroupConfig) (gmRank : ℕ) : List Path :=
  [gmMultinodeip, cfg.dirSecond gmRank] ++
    if cfg.serverStatus gmRank = .freepool then [] else [cfg.finalDir gmRank]

theorem finalDir_eq (hsize : 0 < cfg.gmRequiredGroupSize) (r : ℕ) :
    cfg.finalDir r = (cfg.directory r).path := (finalDir_eq_path hsize).2 rfl

theorem dirs_cases (cfg : GroupConfig) (r : ℕ) :
    cfg.dirs r = [gmMultinodeip, cfg.dirSecond r] ∨
      cfg.dirs r = [gmMultinodeip, cfg.dirSecond r, cfg.finalDir r] ∧
        (cfg.finalDir r).dropLast = cfg.dirSecond r := by
  rw [dirs, finalDir]
  cases cfg.serverStatus r with
  | coordinator => exact .inr ⟨rfl, List.dropLast_concat⟩
  | worker => exact .inr ⟨rfl, List.dropLast_concat⟩
  | freepool => exact .inl rfl

theorem dropLast_dirSecond (r : ℕ) : (cfg.dirSecond r).dropLast = gmMultinodeip := by
  rw [dirSecond]
  split <;> rfl

theorem mem_dirs :
    p ∈ cfg.dirs r → p = gmMultinodeip ∨ p = cfg.dirSecond r ∨ p = cfg.finalDir r := by
  unfold dirs
  split
  · simp only [List.append_nil, List.mem_cons, List.not_mem_nil, or_false]
    exact fun h => h.imp_right .inl
  · simp

theorem finalDir_mem_dirs (cfg : GroupConfig) (r : ℕ) :
    cfg.finalDir r ∈ cfg.dirs r := by
  unfold dirs
  split
  · rename_i hpool
    simp [finalDir, hpool]
  · simp

/-- A directory is in no directory in which servers are filed. -/
theorem dropLast_ne_path (hsize : 0 < cfg.gmRequiredGroupSize) (hp : p ∈ cfg.dirs r)
    (d : Directory) : p.dropLast ≠ d.path := by
  intro h
  have hlength := d.three_le_length
  rw [← h, List.length_dropLast] at hlength
  rcases mem_dirs hp with rfl | rfl | rfl
  · simp [gmMultinodeip] at hlength
  · rw [length_dirSecond] at hlength
    omega
  · have hne : cfg.finalDir r ≠ [] := List.ne_nil_of_length_pos (by omega)
    refine d.path_append_ne (cfg.directory r) ((cfg.finalDir r).getLast hne) ?_
    rw [← finalDir_eq hsize, ← h]
    exact List.dropLast_append_getLast hne

theorem dirSecond_of_length (hp : p ∈ cfg.dirs r) (hlength : p.length = 3) :
    p = cfg.dirSecond r := by
  rcases cfg.dirs_cases r with hdirs | ⟨hdirs, hfinal⟩ <;> rw [hdirs] at hp
  · simp only [List.mem_cons, List.not_mem_nil, or_false] at hp
    rcases hp with rfl | rfl
    · simp [gmMultinodeip] at hlength
    · rfl
  · simp only [List.mem_cons, List.not_mem_nil, or_false] at hp
    rcases hp with rfl | rfl | rfl
    · simp [gmMultinodeip] at hlength
    · rfl
    · have hsecond := congrArg List.length hfinal
      rw [List.length_dropLast, length_dirSecond, hlength] at hsecond
      omega

/-- No file is a directory. -/
theorem file_ne_dir (hsize : 0 < cfg.gmRequiredGroupSize) (hp : p ∈ cfg.dirs r) (r' : ℕ)
    (a : String) : cfg.finalDir r' ++ [a] ≠ p := by
  rintro rfl
  refine dropLast_ne_path hsize hp (cfg.directory r') ?_
  rw [List.dropLast_concat, finalDir_eq hsize]

/-- The servers that are filed in a directory, in the order of a list. -/
def filedIn (cfg : GroupConfig) (d : Directory) (servers : List (ℕ × String)) : List String :=
  servers.filterMap fun server => if cfg.directory server.1 = d then some server.2 else none

theorem filedIn_snoc (d : Directory) (servers : List (ℕ × String)) (r : ℕ) (a : String) :
    cfg.filedIn d (servers ++ [(r, a)]) =
      cfg.filedIn d servers ++ if cfg.directory r = d then [a] else [] := by
  rw [filedIn, List.filterMap_append, ← filedIn]
  congr 1
  simp only [List.filterMap_cons, List.filterMap_nil]
  split <;> rename_i h <;> split at h <;> simp_all

/-- **A server is filed behind the others** that are filed in its directory. -/
theorem loadAddrInDir_file (hsize : 0 < cfg.gmRequiredGroupSize) {fs : FileTree}
    (hfs : loadAddrInDir fs d.path = cfg.filedIn d servers)
    (hnew : cfg.finalDir r ++ [a] ∉ fs) :
    loadAddrInDir (createEntry (cfg.finalDir r ++ [a]) fs) d.path =
      cfg.filedIn d (servers ++ [(r, a)]) := by
  rw [createEntry, if_neg hnew, filedIn_snoc, ← hfs, finalDir_eq hsize]
  split
  · rename_i hdir
    rw [hdir, loadAddrInDir_snoc]
  · rename_i hdir
    rw [List.append_nil]
    refine loadAddrInDir_snoc_of_ne fs fun h => hdir ?_
    rw [List.dropLast_concat] at h
    exact (finalDir_eq_path hsize).1 (by rw [finalDir_eq hsize, h])

theorem recordAll_snoc (servers : List (ℕ × String)) (server : ℕ × String) (fs : FileTree) :
    cfg.recordAll (servers ++ [server]) fs =
      (cfg.recordIPortIntoClusterDir server.1 server.2 (cfg.getClusterDir server.1)
        (cfg.recordAll servers fs)).1 := List.foldl_append

/-- One after the other, the servers are listed in their order. -/
theorem loadAddrInDir_recordAll (hsize : 0 < cfg.gmRequiredGroupSize)
    (haddrs : (servers.map Prod.snd).Nodup) (d : Directory) :
    loadAddrInDir (cfg.recordAll servers []) d.path = cfg.filedIn d servers := by
  induction servers using List.reverseRecOn with
  | nil => rfl
  | append_singleton servers server ih =>
    obtain ⟨r, a⟩ := server
    rw [List.map_append, List.nodup_append] at haddrs
    have hnew : cfg.finalDir r ++ [a] ∉ cfg.recordAll servers [] := by
      rw [finalDir_eq hsize, path_mem_recordAll hsize]
      rintro ⟨r', hserver, -⟩
      exact haddrs.2.2 a (List.mem_map_of_mem hserver) a (.head _) rfl
    have hmultinodeip : gmMultinodeip ∈ cfg.dirs r := .head _
    have hsecond : cfg.dirSecond r ∈ cfg.dirs r := .tail _ (.head _)
    have hfinal := cfg.finalDir_mem_dirs r
    rw [recordAll_snoc, recordIPortIntoClusterDir_fst]
    refine loadAddrInDir_file hsize ?_ fun hmem => ?_
    · rw [loadAddrInDir_createEntry_of_ne (dropLast_ne_path hsize hfinal d),
        loadAddrInDir_createEntry_of_ne (dropLast_ne_path hsize hsecond d),
        loadAddrInDir_createEntry_of_ne (dropLast_ne_path hsize hmultinodeip d), ih haddrs.1]
    · simp only [mem_createEntry] at hmem
      rcases hmem with h | h | h | h
      · exact file_ne_dir hsize hfinal r a h
      · exact file_ne_dir hsize hsecond r a h
      · exact file_ne_dir hsize hmultinodeip r a h
      · exact hnew h

end GroupConfig

namespace Startup

/-! ## The servers -/

/-- Where the `main` of a server is. -/
inductive Position
  /-- Testing whether the next directory is there, in `createDir`. -/
  | test (dir : Path) (rest : List Path)
  /-- Making it. -/
  | mkdir (dir : Path) (rest : List Path)
  /-- Testing again, since it could not be made. -/
  | again (dir : Path) (rest : List Path)
  /-- Creating the address file. -/
  | record
  /-- Listing `gm_multinodeip`, in `updateCoordinatorAddr`. -/
  | update
  /-- Listing the coordinator directory of the next cluster. -/
  | cluster (clusterName : List String)
  | up
  deriving DecidableEq, Repr

/-- A server, with its rank and address, and the coordinators that it knows. -/
structure Server where
  gmRank : ℕ
  addr : String
  position : Position
  coordinatorAddrSet : OSet String

/-- The directory tree and the servers. -/
structure State where
  files : FileTree
  servers : List Server

/-- The next directory of `recordIPortIntoClusterDir`, or the address file. -/
def Position.next : List Path → Position
  | [] => .record
  | dir :: rest => .test dir rest

/-- `mkdir` makes a directory that is not there, in one that is. The working directory is. -/
def canMake (dir : Path) (fs : FileTree) : Bool :=
  !fs.contains dir && (dir.dropLast == ["."] || fs.contains dir.dropLast)

theorem canMake_iff {dir : Path} {fs : FileTree} :
    canMake dir fs = true ↔ dir ∉ fs ∧ (dir.dropLast = ["."] ∨ dir.dropLast ∈ fs) := by
  simp [canMake]

/-- The next step of a server. -/
def serverStep (cfg : GroupConfig) (fs : FileTree) (server : Server) : FileTree × Server :=
  let goto (position : Position) : Server := { server with position := position }
  match server.position with
  | .test dir rest => (fs, goto (if fs.contains dir then .next rest else .mkdir dir rest))
  | .mkdir dir rest =>
    if canMake dir fs then (fs ++ [dir], goto (.next rest)) else (fs, goto (.again dir rest))
  | .again dir rest => (fs, goto (if fs.contains dir then .next rest else .mkdir dir rest))
  | .record =>
    let finalDir := cfg.finalDir server.gmRank
    (if fs.contains finalDir then createEntry (finalDir ++ [server.addr]) fs else fs,
      goto .update)
  | .update => (fs, goto (.cluster (loadAddrInDir fs gmMultinodeip)))
  | .cluster [] => (fs, goto .up)
  | .cluster (clusterName :: rest) =>
    (fs, { server with
      position := .cluster rest
      coordinatorAddrSet :=
        match loadAddrInDir fs (gmMultinodeip ++ [clusterName] ++ [gmCoordinatorDir]) with
        | [] => server.coordinatorAddrSet
        | coor :: _ => server.coordinatorAddrSet.insert coor })
  | .up => (fs, server)

/-- The server `i` takes its next step. -/
def step (cfg : GroupConfig) (i : ℕ) (σ : State) : State :=
  match σ.servers[i]? with
  | none => σ
  | some server =>
    let next := serverStep cfg σ.files server
    ⟨next.1, σ.servers.set i next.2⟩

/-- The servers of a deployment, before the first step. -/
def start (D : Deployment) : State where
  files := []
  servers := D.servers.map fun server =>
    ⟨server.1, server.2, .next (D.dirs server.1), ∅⟩

/-- The server has created its address file. -/
def Position.recorded : Position → Bool
  | .update | .cluster _ | .up => true
  | _ => false

/-- The server `i` creates its address file next. -/
def records (i : ℕ) (σ : State) : Bool :=
  (σ.servers[i]?).any fun server => server.position = .record

/-! ## What is known at a position -/

/-- The directories that are still to be made. -/
def Position.left : Position → List Path
  | .test dir rest | .mkdir dir rest | .again dir rest => dir :: rest
  | _ => []

/-- A directory that could not be made is there. -/
def Position.Tried (fs : FileTree) : Position → Prop
  | .again dir _ => dir ∈ fs
  | _ => True

/-- The directories of a server are there, apart from those that are still to be made. -/
structure Server.Knows (cfg : GroupConfig) (fs : FileTree) (server : Server) : Prop where
  made : ∃ made, cfg.dirs server.gmRank = made ++ server.position.left ∧ ∀ p ∈ made, p ∈ fs
  tried : server.position.Tried fs

/-- The address file of a server. -/
def Server.file (cfg : GroupConfig) (server : Server) : Path :=
  cfg.finalDir server.gmRank ++ [server.addr]

/-- A bound on the steps that are left, when there are at most `bound` clusters. -/
def Position.ahead (bound : ℕ) : Position → ℕ
  | .test _ rest => 3 * rest.length + bound + 6
  | .mkdir _ rest => 3 * rest.length + bound + 5
  | .again _ rest => 3 * rest.length + bound + 4
  | .record => bound + 3
  | .update => bound + 2
  | .cluster clusterName => clusterName.length + 1
  | .up => 0

section Position

variable {cfg : GroupConfig} {fs fs' : FileTree} {server : Server} {dir : Path} {rest : List Path}
  {bound : ℕ}

@[simp] theorem left_next (rest : List Path) : (Position.next rest).left = rest := by
  cases rest <;> rfl

@[simp] theorem tried_next (rest : List Path) : (Position.next rest).Tried fs := by
  cases rest <;> trivial

@[simp] theorem recorded_next (rest : List Path) : (Position.next rest).recorded = false := by
  cases rest <;> rfl

theorem ahead_next (rest : List Path) :
    (Position.next rest).ahead bound = 3 * rest.length + bound + 3 := by
  cases rest with
  | nil => exact (congrArg (· + 3) (Nat.zero_add bound)).symm
  | cons dir rest =>
    simp only [Position.next, Position.ahead, List.length_cons]
    omega

theorem Server.Knows.mono (h : server.Knows cfg fs) (hfs : fs ⊆ fs') : server.Knows cfg fs' where
  made :=
    have ⟨made, heq, hmade⟩ := h.made
    ⟨made, heq, fun p hp => hfs (hmade p hp)⟩
  tried := by
    have htried := h.tried
    cases hpos : server.position with
    | again dir rest =>
      rw [hpos] at htried
      exact hfs htried
    | _ => trivial

/-- The parent of the next directory is made before. -/
theorem dropLast_mem {made : List Path} {r : ℕ} (h : cfg.dirs r = made ++ dir :: rest) :
    dir.dropLast = ["."] ∨ dir.dropLast ∈ made := by
  have hparent := cfg.dropLast_dirSecond r
  cases made with
  | nil =>
    have hhead := congrArg List.head? h
    exact .inl (Option.some.inj hhead ▸ rfl)
  | cons p made =>
    right
    rcases cfg.dirs_cases r with hdirs | ⟨hdirs, hfinal⟩ <;> rw [hdirs] at h
    · rcases made with _ | ⟨q, made⟩
      · simp only [List.cons_append, List.nil_append, List.cons.injEq] at h
        obtain ⟨rfl, rfl, -⟩ := h
        rw [hparent]
        exact .head _
      · simp at h
    · rcases made with _ | ⟨q, _ | ⟨q', made⟩⟩
      · simp only [List.cons_append, List.nil_append, List.cons.injEq] at h
        obtain ⟨rfl, rfl, -⟩ := h
        rw [hparent]
        exact .head _
      · simp only [List.cons_append, List.nil_append, List.cons.injEq] at h
        obtain ⟨-, rfl, rfl, -⟩ := h
        rw [hfinal]
        exact .tail _ (.head _)
      · simp at h

end Position

/-! ## One step -/

/-- What a step of a server comes to, but for the coordinators that it enters. -/
structure Goes (cfg : GroupConfig) (bound : ℕ) (fs : FileTree) (server : Server)
    (next : FileTree × Server) : Prop where
  gmRank : next.2.gmRank = server.gmRank
  addr : next.2.addr = server.addr
  subset : fs ⊆ next.1
  nodup : next.1.Nodup
  knows : next.2.Knows cfg next.1
  recorded : next.2.position.recorded = (server.position.recorded || server.position = .record)
  /-- A step makes a directory, or it records the server. -/
  files : next.1 = fs ∨ (∃ p ∈ cfg.dirs server.gmRank, next.1 = fs ++ [p]) ∧
    server.position ≠ .record ∨ server.position = .record ∧
      next.1 = createEntry (server.file cfg) fs
  filed : server.position = .record → server.file cfg ∈ next.1
  ahead : server.position = .up ∨
    next.2.position.ahead bound < server.position.ahead bound

section Goes

variable {cfg : GroupConfig} {bound : ℕ} {fs : FileTree} {server : Server} {position : Position}
  {dir : Path} {rest : List Path}

theorem Server.Knows.goto (h : server.Knows cfg fs) (hleft : position.left = server.position.left)
    (htried : position.Tried fs) : Server.Knows cfg fs { server with position := position } where
  made := hleft ▸ h.made
  tried := htried

/-- The next directory is there. -/
theorem Server.Knows.pass (h : server.Knows cfg fs) (hleft : server.position.left = dir :: rest)
    {fs' : FileTree} (hfs : fs ⊆ fs') (hdir : dir ∈ fs') :
    Server.Knows cfg fs' { server with position := .next rest } where
  made := by
    obtain ⟨made, hdirs, hmade⟩ := h.made
    refine ⟨made ++ [dir], ?_, fun p hp => ?_⟩
    · rw [hdirs, hleft, left_next, List.append_assoc]
      rfl
    · rcases List.mem_append.1 hp with hp | hp
      · exact hfs (hmade p hp)
      · rwa [List.mem_singleton.1 hp]
  tried := tried_next rest

/-- A step that leaves the tree. -/
theorem Goes.goto {coordinatorAddrSet : OSet String}
    (hknows : Server.Knows cfg fs { server with position := position }) (hfs : fs.Nodup)
    (hrecorded : position.recorded = server.position.recorded)
    (hrecord : server.position ≠ .record)
    (hahead : position.ahead bound < server.position.ahead bound) :
    Goes cfg bound fs server
      (fs, { server with position := position, coordinatorAddrSet := coordinatorAddrSet }) where
  gmRank := rfl
  addr := rfl
  subset := List.Subset.refl fs
  nodup := hfs
  knows := ⟨hknows.made, hknows.tried⟩
  recorded := by rw [decide_eq_false hrecord, Bool.or_false, hrecorded]
  files := .inl rfl
  filed h := absurd h hrecord
  ahead := .inr hahead

/-- **A server goes on** until it is up. -/
theorem serverStep_goes (h : server.Knows cfg fs) (hfs : fs.Nodup)
    (hbound : (loadAddrInDir fs gmMultinodeip).length ≤ bound) :
    Goes cfg bound fs server (serverStep cfg fs server) := by
  obtain ⟨gmRank, addr, position, coordinatorAddrSet⟩ := server
  cases position with
  | test dir rest =>
    simp only [serverStep]
    split
    · rename_i hthere
      have hdir : dir ∈ fs := List.contains_iff_mem.1 hthere
      refine .goto (h.pass rfl (List.Subset.refl fs) hdir) hfs (recorded_next rest)
        Position.noConfusion ?_
      rw [ahead_next]
      simp only [Position.ahead]
      omega
    · refine .goto (h.goto rfl trivial) hfs rfl Position.noConfusion ?_
      simp only [Position.ahead]
      omega
  | mkdir dir rest =>
    simp only [serverStep]
    split
    · rename_i hmake
      obtain ⟨hnew, -⟩ := canMake_iff.1 hmake
      have hmem : dir ∈ fs ++ [dir] := List.mem_append_right _ (.head _)
      obtain ⟨made, hdirs, hmade⟩ := h.made
      have hdir : dir ∈ cfg.dirs gmRank := by
        rw [show cfg.dirs gmRank = made ++ dir :: rest from hdirs]
        exact List.mem_append_right _ (.head _)
      exact
        { gmRank := rfl
          addr := rfl
          subset := List.subset_append_left _ _
          nodup := by
            rw [← List.concat_eq_append]
            exact hfs.concat hnew
          knows := h.pass rfl (List.subset_append_left _ _) hmem
          recorded := recorded_next rest
          files := .inr (.inl ⟨⟨dir, hdir, rfl⟩, Position.noConfusion⟩)
          filed := Position.noConfusion
          ahead := .inr (by rw [ahead_next]; simp only [Position.ahead]; omega) }
    · rename_i hbusy
      -- the parent is there, so it could not be made because it is there
      have hdir : dir ∈ fs := by
        obtain ⟨made, hdirs, hmade⟩ := h.made
        by_contra hnew
        refine hbusy (canMake_iff.2 ⟨hnew, ?_⟩)
        exact (dropLast_mem hdirs).imp_right fun hparent => hmade _ hparent
      refine .goto (h.goto rfl hdir) hfs rfl Position.noConfusion ?_
      simp only [Position.ahead]
      omega
  | again dir rest =>
    have hdir : dir ∈ fs := h.tried
    simp only [serverStep, if_pos (List.contains_iff_mem.2 hdir)]
    refine .goto (h.pass rfl (List.Subset.refl fs) hdir) hfs (recorded_next rest)
      Position.noConfusion ?_
    rw [ahead_next]
    simp only [Position.ahead]
    omega
  | record =>
    have hfinal : cfg.finalDir gmRank ∈ fs := by
      obtain ⟨made, hdirs, hmade⟩ := h.made
      have hall : cfg.dirs gmRank = made := hdirs.trans (List.append_nil made)
      exact hmade _ (hall ▸ cfg.finalDir_mem_dirs gmRank)
    have hknows : Server.Knows cfg fs ⟨gmRank, addr, .update, coordinatorAddrSet⟩ :=
      h.goto rfl trivial
    simp only [serverStep, if_pos (List.contains_iff_mem.2 hfinal)]
    exact
      { gmRank := rfl
        addr := rfl
        subset := fun p hp => mem_createEntry.2 (.inr hp)
        nodup := nodup_createEntry hfs
        knows := hknows.mono fun p hp => mem_createEntry.2 (.inr hp)
        recorded := rfl
        files := .inr (.inr ⟨rfl, rfl⟩)
        filed := fun _ => mem_createEntry.2 (.inl rfl)
        ahead := .inr (Nat.lt_succ_self _) }
  | update =>
    refine .goto (h.goto rfl trivial) hfs rfl Position.noConfusion ?_
    simp only [Position.ahead]
    omega
  | cluster clusterName =>
    cases clusterName with
    | nil => exact .goto (h.goto rfl trivial) hfs rfl Position.noConfusion (Nat.succ_pos _)
    | cons name rest =>
      exact .goto (h.goto rfl trivial) hfs rfl Position.noConfusion (Nat.lt_succ_self _)
  | up =>
    exact
      { gmRank := rfl
        addr := rfl
        subset := List.Subset.refl fs
        nodup := hfs
        knows := h
        recorded := rfl
        files := .inl rfl
        filed := Position.noConfusion
        ahead := .inl rfl }

end Goes

/-! ## Every run -/

/-- What is kept. -/
structure Inv (D : Deployment) (σ : State) : Prop where
  servers : σ.servers.map (fun server => (server.gmRank, server.addr)) = D.servers
  nodup : σ.files.Nodup
  /-- The tree holds the directories of the servers and the files of those that have recorded
  themselves. -/
  files : ∀ p ∈ σ.files, ∃ server ∈ σ.servers, p ∈ D.dirs server.gmRank ∨
    server.position.recorded = true ∧ p = server.file D.toGroupConfig
  knows : ∀ server ∈ σ.servers, server.Knows D.toGroupConfig σ.files
  recorded : ∀ server ∈ σ.servers, server.position.recorded = true →
    server.file D.toGroupConfig ∈ σ.files

section Inv

variable {D : Deployment} {σ : State} {i : ℕ} {server : Server} {r : ℕ} {a : String}

theorem Inv.mem_servers (h : Inv D σ) (hserver : server ∈ σ.servers) :
    (server.gmRank, server.addr) ∈ D.servers := by
  rw [← h.servers]
  exact List.mem_map_of_mem hserver

/-- The servers have different addresses. -/
theorem Inv.eq_of_addr (h : Inv D σ) {server' : Server} (hserver : server ∈ σ.servers)
    (hserver' : server' ∈ σ.servers) (haddr : server.addr = server'.addr) : server = server' := by
  have hnodup : (σ.servers.map Server.addr).Nodup := by
    have haddrs := D.nodup_addrs
    rw [← h.servers, List.map_map] at haddrs
    exact haddrs
  exact List.inj_on_of_nodup_map hnodup hserver hserver' haddr

/-- The file of a server is there exactly when it has recorded itself. -/
theorem Inv.file_mem_iff (h : Inv D σ) (hserver : server ∈ σ.servers) :
    server.file D.toGroupConfig ∈ σ.files ↔ server.position.recorded = true := by
  refine ⟨fun hmem => ?_, h.recorded server hserver⟩
  obtain ⟨server', hserver', hdir | ⟨hrecorded, heq⟩⟩ := h.files _ hmem
  · exact absurd rfl (D.file_ne_dir D.groupSize_pos hdir server.gmRank server.addr)
  · have haddr := congrArg List.getLast? heq
    simp only [Server.file, List.getLast?_concat, Option.some.injEq] at haddr
    rwa [h.eq_of_addr hserver hserver' haddr]

/-- The clusters are not more than the servers. -/
theorem Inv.length_clusters_le (h : Inv D σ) :
    (loadAddrInDir σ.files gmMultinodeip).length ≤ D.servers.length := by
  have hsubset : (loadAddrInDir σ.files gmMultinodeip).map (fun name => gmMultinodeip ++ [name]) ⊆
      D.servers.map fun server => D.dirSecond server.1 := by
    intro p hp
    obtain ⟨name, hname, rfl⟩ := List.mem_map.1 hp
    obtain ⟨server, hserver, hdir | ⟨-, heq⟩⟩ := h.files _ (mem_loadAddrInDir.1 hname)
    · rw [D.dirSecond_of_length hdir rfl]
      exact List.mem_map_of_mem (h.mem_servers hserver)
    · have hlength := (D.directory server.gmRank).three_le_length
      have hfile := congrArg List.length heq
      rw [← D.finalDir_eq D.groupSize_pos] at hlength
      simp only [Server.file, List.length_append, gmMultinodeip, List.length_cons,
        List.length_nil] at hfile
      omega
  have hnodup : ((loadAddrInDir σ.files gmMultinodeip).map fun name =>
      gmMultinodeip ++ [name]).Nodup :=
    (nodup_loadAddrInDir h.nodup _).map fun name name' heq =>
      List.singleton_inj.1 (List.append_cancel_left heq)
  have hle := (List.subperm_of_subset hnodup hsubset).length_le
  rwa [List.length_map, List.length_map] at hle

theorem Inv.goes (h : Inv D σ) (hserver : server ∈ σ.servers) :
    Goes D.toGroupConfig D.servers.length σ.files server
      (serverStep D.toGroupConfig σ.files server) :=
  serverStep_goes (h.knows server hserver) h.nodup h.length_clusters_le

/-- **Every step keeps the invariant.** -/
theorem inv_step (i : ℕ) (σ : State) (h : Inv D σ) : Inv D (step D.toGroupConfig i σ) := by
  cases hi : σ.servers[i]? with
  | none => simpa only [step, hi] using h
  | some server =>
    have hgoes := h.goes (List.mem_of_getElem? hi)
    generalize hnext : serverStep D.toGroupConfig σ.files server = next at hgoes
    simp only [step, hi, hnext]
    have hlt := (List.getElem?_eq_some_iff.1 hi).1
    have hfile : next.2.file D.toGroupConfig = server.file D.toGroupConfig := by
      rw [Server.file, hgoes.gmRank, hgoes.addr, Server.file]
    have hself : next.2 ∈ σ.servers.set i next.2 := List.mem_set hlt next.2
    exact
      { servers := by
          rw [map_set_of_eq _ hi (by rw [hgoes.gmRank, hgoes.addr]), h.servers]
        nodup := hgoes.nodup
        files := by
          have hkept : ∀ p ∈ σ.files, ∃ s ∈ σ.servers.set i next.2, p ∈ D.dirs s.gmRank ∨
              s.position.recorded = true ∧ p = s.file D.toGroupConfig := by
            intro p hp
            obtain ⟨s, hs, hp⟩ := h.files p hp
            rcases eq_or_mem_set hi hs next.2 with rfl | hmem
            · refine ⟨next.2, hself, ?_⟩
              rw [hgoes.gmRank, hgoes.recorded, hfile]
              exact hp.imp_right fun ⟨hrec, heq⟩ => ⟨by rw [hrec, Bool.true_or], heq⟩
            · exact ⟨s, hmem, hp⟩
          intro p hp
          rcases hgoes.files with heq | ⟨⟨q, hq, heq⟩, -⟩ | ⟨hrec, heq⟩ <;> rw [heq] at hp
          · exact hkept p hp
          · rcases List.mem_append.1 hp with hp | hp
            · exact hkept p hp
            · rw [List.mem_singleton.1 hp]
              exact ⟨next.2, hself, .inl (by rwa [hgoes.gmRank])⟩
          · rcases mem_createEntry.1 hp with rfl | hp
            · refine ⟨next.2, hself, .inr ⟨?_, hfile.symm⟩⟩
              rw [hgoes.recorded, hrec, decide_eq_true rfl, Bool.or_true]
            · exact hkept p hp
        knows := forall_mem_set (fun s hs => (h.knows s hs).mono hgoes.subset) hgoes.knows
        recorded := by
          refine forall_mem_set (fun s hs hrec => hgoes.subset (h.recorded s hs hrec))
            fun hrec => ?_
          rw [hfile]
          rw [hgoes.recorded, Bool.or_eq_true, decide_eq_true_eq] at hrec
          rcases hrec with hrec | hrec
          · exact hgoes.subset (h.recorded server (List.mem_of_getElem? hi) hrec)
          · exact hgoes.filed hrec }

end Inv

/-! ## The order of the records -/

section Order

variable {D : Deployment} {σ : State} {i : ℕ} {server : Server} {is : List ℕ}

/-- The server `i` has recorded itself. -/
def Over (i : ℕ) (σ : State) : Prop :=
  ∀ server, σ.servers[i]? = some server → server.position.recorded = true

/-- The servers that have recorded themselves, in the order in which they did. -/
def recordedOrder (D : Deployment) (is : List ℕ) : List (ℕ × String) :=
  (order (step D.toGroupConfig) records is (start D)).filterMap fun i => D.servers[i]?

theorem recorded_serverStep (cfg : GroupConfig) (fs : FileTree) (server : Server) :
    (serverStep cfg fs server).2.position.recorded =
      (server.position.recorded || server.position = .record) := by
  obtain ⟨gmRank, addr, position, coordinatorAddrSet⟩ := server
  cases position with
  | test dir rest =>
    simp only [serverStep]
    split
    · exact recorded_next rest
    · rfl
  | mkdir dir rest =>
    simp only [serverStep]
    split
    · exact recorded_next rest
    · rfl
  | again dir rest =>
    simp only [serverStep]
    split
    · exact recorded_next rest
    · rfl
  | cluster clusterName => cases clusterName <;> rfl
  | record | update | up => rfl

/-- A server is recorded once and for all. -/
theorem ends_records (cfg : GroupConfig) : Ends (step cfg) records Over where
  effective_iff i σ := by
    cases hi : σ.servers[i]? with
    | none => simp [records, Over, hi]
    | some server =>
      have hlt := (List.getElem?_eq_some_iff.1 hi).1
      have hnext : ∀ next : FileTree × Server, (σ.servers.set i next.2)[i]? = some next.2 :=
        fun next => by rw [List.getElem?_set_self hlt]
      have hover : Over i (step cfg i σ) ↔
          (server.position.recorded || server.position = .record) = true := by
        simp only [Over, step, hi, hnext, Option.some.injEq, forall_eq', recorded_serverStep]
      simp only [hover, records, hi, Option.any_some, decide_eq_true_eq]
      simp only [Over, hi, Option.some.injEq, forall_eq']
      cases server.position <;> simp [Position.recorded]
  stays i σ h := by
    cases hi : σ.servers[i]? with
    | none => simpa only [step, hi] using h
    | some server =>
      have hlt := (List.getElem?_eq_some_iff.1 hi).1
      intro server' hserver'
      simp only [step, hi, List.getElem?_set_self hlt, Option.some.injEq] at hserver'
      rw [← hserver', recorded_serverStep, h server hi, Bool.true_or]
  others {i j} σ hne := by
    have hsame : (step cfg j σ).servers[i]? = σ.servers[i]? := by
      cases hj : σ.servers[j]? with
      | none => simp only [step, hj]
      | some server => simp only [step, hj, List.getElem?_set_ne hne]
    rw [Over, hsame, Over]

theorem not_over_start {server : ℕ × String} (hi : D.servers[i]? = some server) :
    ¬ Over i (start D) := by
  intro h
  have hstart := h _ (by rw [start, List.getElem?_map, hi, Option.map_some])
  rw [recorded_next] at hstart
  exact Bool.noConfusion hstart

theorem mem_order_iff {server : ℕ × String} (hi : D.servers[i]? = some server) :
    i ∈ order (step D.toGroupConfig) records is (start D) ↔
      Over i (run (step D.toGroupConfig) is (start D)) :=
  (ends_records _).mem_order_iff (not_over_start hi) is

theorem nodup_recordedOrder (D : Deployment) (is : List ℕ) :
    ((recordedOrder D is).map Prod.snd).Nodup := by
  rw [recordedOrder, List.map_filterMap]
  refine ((ends_records _).nodup_order is _).filterMap fun i j a hi hj => ?_
  rw [Option.mem_def, Option.map_eq_some_iff] at hi hj
  obtain ⟨server, hserver, rfl⟩ := hi
  obtain ⟨server', hserver', heq⟩ := hj
  have hlt : i < (D.servers.map Prod.snd).length := by
    rw [List.length_map]
    exact (List.getElem?_eq_some_iff.1 hserver).1
  refine (List.getElem?_inj hlt D.nodup_addrs).1 ?_
  rw [List.getElem?_map, List.getElem?_map, hserver, hserver', Option.map_some, Option.map_some,
    heq]

/-- The directories list the servers, in their order. -/
def Listed (D : Deployment) (σ : State) (servers : List (ℕ × String)) : Prop :=
  Inv D σ ∧ ∀ d : Directory, loadAddrInDir σ.files d.path = D.filedIn d servers

/-- One more server. -/
def addServer (D : Deployment) (i : ℕ) (servers : List (ℕ × String)) : List (ℕ × String) :=
  servers ++ D.servers[i]?.toList

theorem foldl_addServer (is : List ℕ) (servers : List (ℕ × String)) :
    is.foldl (fun servers i => addServer D i servers) servers =
      servers ++ is.filterMap fun i => D.servers[i]? := by
  induction is generalizing servers with
  | nil => exact (List.append_nil servers).symm
  | cons i is ih =>
    rw [List.foldl_cons, ih, addServer, List.append_assoc, List.filterMap_cons]
    cases D.servers[i]? <;> rfl

/-- **What a step lists**: a server that records itself is listed behind the others. -/
theorem listed_step (i : ℕ) (σ : State) (servers : List (ℕ × String)) (h : Listed D σ servers) :
    Listed D (step D.toGroupConfig i σ)
      (if records i σ then addServer D i servers else servers) := by
  obtain ⟨hinv, hlisted⟩ := h
  refine ⟨inv_step i σ hinv, fun d => ?_⟩
  have hservers : D.servers[i]? =
      (σ.servers[i]?).map fun server => (server.gmRank, server.addr) := by
    rw [← hinv.servers, List.getElem?_map]
  cases hi : σ.servers[i]? with
  | none => simp only [step, records, hi, Option.any_none, Bool.false_eq_true, if_false, hlisted]
  | some server =>
    have hmem := List.mem_of_getElem? hi
    have hgoes := hinv.goes hmem
    rw [hi, Option.map_some] at hservers
    simp only [step, records, hi, Option.any_some, hservers, addServer, Option.toList_some,
      decide_eq_true_eq]
    rcases hgoes.files with heq | ⟨⟨p, hp, heq⟩, hrecord⟩ | ⟨hrecord, heq⟩
    · rw [heq, if_neg, hlisted]
      intro hrecord
      have hnew := hgoes.filed hrecord
      rw [heq, hinv.file_mem_iff hmem, hrecord] at hnew
      exact Bool.noConfusion hnew
    · rw [heq, if_neg hrecord, ← hlisted]
      exact loadAddrInDir_snoc_of_ne _ (D.dropLast_ne_path D.groupSize_pos hp d)
    · rw [heq, if_pos hrecord]
      refine D.loadAddrInDir_file D.groupSize_pos (hlisted d) fun hfile => ?_
      have hrecorded := (hinv.file_mem_iff hmem).1 hfile
      rw [hrecord] at hrecorded
      exact Bool.noConfusion hrecorded

theorem inv_start (D : Deployment) : Inv D (start D) where
  servers := by
    rw [start, List.map_map]
    exact List.map_id _
  nodup := List.nodup_nil
  files _ hp := absurd hp List.not_mem_nil
  knows := by
    intro server hserver
    obtain ⟨s, -, rfl⟩ := List.mem_map.1 hserver
    exact ⟨⟨[], (left_next _).symm, fun _ hp => absurd hp List.not_mem_nil⟩,
      tried_next (D.dirs s.1)⟩
  recorded := by
    intro server hserver hrec
    obtain ⟨s, -, rfl⟩ := List.mem_map.1 hserver
    rw [recorded_next] at hrec
    exact Bool.noConfusion hrec

theorem inv_run (D : Deployment) (is : List ℕ) :
    Inv D (run (step D.toGroupConfig) is (start D)) :=
  (always_of_invariant inv_step (fun _ h => h) (inv_start D) is).run

theorem listed_run (D : Deployment) (is : List ℕ) (d : Directory) :
    loadAddrInDir (run (step D.toGroupConfig) is (start D)).files d.path =
      D.filedIn d (recordedOrder D is) := by
  have hstart : Listed D (start D) [] := ⟨inv_start D, fun _ => rfl⟩
  have hrun := related_run listed_step hstart is
  rw [foldl_addServer, List.nil_append] at hrun
  exact hrun.2 d

theorem mem_recordedOrder (hmem : server ∈ (run (step D.toGroupConfig) is (start D)).servers) :
    (server.gmRank, server.addr) ∈ recordedOrder D is ↔ server.position.recorded = true := by
  have hinv := inv_run D is
  obtain ⟨i, hi⟩ := List.mem_iff_getElem?.1 hmem
  have hserver : D.servers[i]? = some (server.gmRank, server.addr) := by
    rw [← hinv.servers, List.getElem?_map, hi, Option.map_some]
  have hover : Over i (run (step D.toGroupConfig) is (start D)) ↔
      server.position.recorded = true := by
    simp only [Over, hi, Option.some.injEq, forall_eq']
  rw [← hover, ← mem_order_iff hserver, recordedOrder, List.mem_filterMap]
  refine ⟨fun ⟨j, hj, heq⟩ => ?_, fun hmem => ⟨i, hmem, hserver⟩⟩
  have hlt := (List.getElem?_eq_some_iff.1 hserver).1
  have hnodup : D.servers.Nodup := D.nodup_addrs.of_map _
  rwa [(List.getElem?_inj hlt hnodup).1 (hserver.trans heq.symm)]

/-- **The directories as the start leaves them**, at every moment and in every interleaving: each
lists what the servers that have recorded themselves so far leave when they do so one after the
other, in this order. When all have done so they are the servers of the deployment. -/
theorem startup_files (D : Deployment) (is : List ℕ) :
    let σ := run (step D.toGroupConfig) is (start D)
    (∀ d : Directory, loadAddrInDir σ.files d.path =
      loadAddrInDir (D.recordAll (recordedOrder D is) []) d.path) ∧
    (∀ server ∈ σ.servers,
      (server.gmRank, server.addr) ∈ recordedOrder D is ↔ server.position.recorded = true) ∧
    ((∀ server ∈ σ.servers, server.position.recorded = true) →
      (recordedOrder D is).Perm D.servers) := by
  refine ⟨fun d => ?_, fun server hmem => mem_recordedOrder hmem, fun hall => ?_⟩
  · rw [listed_run, D.loadAddrInDir_recordAll D.groupSize_pos (nodup_recordedOrder D is)]
  · have hinv := inv_run D is
    refine (List.perm_ext_iff_of_nodup ((nodup_recordedOrder D is).of_map _)
      (D.nodup_addrs.of_map _)).2 fun s => ⟨fun hmem => ?_, fun hmem => ?_⟩
    · obtain ⟨i, -, hi⟩ := List.mem_filterMap.1 hmem
      exact List.mem_of_getElem? hi
    · rw [← hinv.servers] at hmem
      obtain ⟨server, hserver, rfl⟩ := List.mem_map.1 hmem
      exact (mem_recordedOrder hserver).2 (hall server hserver)

end Order

/-! ## Every server comes up -/

section Progress

variable {D : Deployment} {σ : State} {i : ℕ} {server server' : Server} {is : List ℕ}

/-- A server comes up when it takes as many steps as it has ahead, whatever the others do. -/
theorem Inv.up_of_count (h : Inv D σ) (hserver : σ.servers[i]? = some server)
    (hcount : server.position.ahead D.servers.length ≤ is.count i)
    (hserver' : (run (step D.toGroupConfig) is σ).servers[i]? = some server') :
    server'.position = .up := by
  induction is generalizing σ server with
  | nil =>
    obtain rfl := Option.some.inj (hserver.symm.trans hserver')
    cases hpos : server.position <;> simp [hpos, Position.ahead] at hcount
    rfl
  | cons j is ih =>
    rw [run_cons] at hserver'
    have hlt := (List.getElem?_eq_some_iff.1 hserver).1
    by_cases hij : j = i
    · subst hij
      have hgoes := h.goes (List.mem_of_getElem? hserver)
      have hnext : (step D.toGroupConfig j σ).servers[j]? =
          some (serverStep D.toGroupConfig σ.files server).2 := by
        simp only [step, hserver, List.getElem?_set_self hlt]
      refine ih (inv_step j σ h) hnext ?_ hserver'
      · rw [List.count_cons_self] at hcount
        rcases hgoes.ahead with hup | hless
        · have hstays : (serverStep D.toGroupConfig σ.files server).2.position = .up := by
            simp only [serverStep, hup]
          rw [hstays]
          exact Nat.zero_le _
        · omega
    · have hsame : (step D.toGroupConfig j σ).servers[i]? = some server := by
        cases hj : σ.servers[j]? with
        | none => simpa only [step, hj] using hserver
        | some s => simp only [step, hj, List.getElem?_set_ne hij, hserver]
      rw [List.count_cons_of_ne hij] at hcount
      exact ih (inv_step j σ h) hsame hcount hserver'

/-- **No server waits for another.** Of `n` servers, one that takes `n + 12` steps is up, whatever
the others do meanwhile. -/
theorem startup_wait_free (D : Deployment) (is : List ℕ) {i : ℕ}
    (hcount : D.servers.length + 12 ≤ is.count i) {server : Server}
    (hserver : (run (step D.toGroupConfig) is (start D)).servers[i]? = some server) :
    server.position = .up := by
  have hinv := inv_start D
  obtain ⟨s, hs⟩ : ∃ s, (start D).servers[i]? = some s := by
    have hlength : (run (step D.toGroupConfig) is (start D)).servers.length =
        (start D).servers.length := by
      have hrun := congrArg List.length (inv_run D is).servers
      rw [← hinv.servers, List.length_map, List.length_map] at hrun
      exact hrun
    have hlt := (List.getElem?_eq_some_iff.1 hserver).1
    rw [hlength] at hlt
    exact ⟨_, List.getElem?_eq_getElem hlt⟩
  refine hinv.up_of_count hs (Nat.le_trans ?_ hcount) hserver
  obtain ⟨s₀, -, rfl⟩ := List.mem_map.1 (List.mem_of_getElem? hs)
  have hdirs : (D.dirs s₀.1).length ≤ 3 := by
    rcases D.dirs_cases s₀.1 with heq | ⟨heq, -⟩ <;> rw [heq] <;> simp
  rw [ahead_next]
  omega

/-- Two groups of one server. -/
def twoCoordinators : Deployment where
  gmGroupNumber := 2
  gmRequiredGroupSize := 1
  servers := [(0, "n0:50051"), (1, "n1:50051")]
  groupNumber_pos := Nat.two_pos
  groupSize_pos := Nat.one_pos
  ranks := by decide
  nodup_addrs := by decide

/-- Both servers take 14 steps in turn. -/
theorem startup_wait_free_turns :
    ((run (step twoCoordinators.toGroupConfig) (List.replicate 14 [0, 1]).flatten
      (start twoCoordinators)).servers[1]?).map Server.position = some .up := by
  have hcount : twoCoordinators.servers.length + 12 ≤
      (List.replicate 14 [0, 1]).flatten.count 1 := by decide
  obtain ⟨server, hserver⟩ : ∃ server, (run (step twoCoordinators.toGroupConfig)
      (List.replicate 14 [0, 1]).flatten (start twoCoordinators)).servers[1]? = some server :=
    Option.isSome_iff_exists.1 (by decide +kernel)
  rw [hserver, Option.map_some, startup_wait_free twoCoordinators _ hcount hserver]

end Progress

end Startup

end TPST
