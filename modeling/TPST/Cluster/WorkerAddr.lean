import TPST.Cluster.GroupManager
import TPST.Foundations.Schedules

/-!
# The addresses of a group

`updateWorkerAddrMap` loads the addresses in the worker and the coordinator directory of a group
into `workerAddrMap`, when it is called for the first time for this group; `loadCoordinatorMap`
remembers that it was. `nodeAttach` enters further servers in the worker directory.

So what is loaded first stays (`workerAddrMap_run`), and `refreshesWorkers_iff` says for which
sequences of the two calls this is the group as it is.
-/

namespace TPST

open Schedule

/-- The directory tree, and what a process has loaded of it. No address is loaded for a directory
that is no key of the source's maps. -/
structure WorkerAddrState where
  files : FileTree
  workerAddrMap : Path → List String
  loadCoordinatorMap : Path → Bool

/-- `nodeAttach`, where the file can be opened. -/
def nodeAttach (dir : Path) (nodeAddr : String) (fs : FileTree) : FileTree :=
  let workerDirPath := dir ++ [gmWorkerDir]
  createEntry (workerDirPath ++ [nodeAddr]) (createEntry workerDirPath fs)

/-- `updateWorkerAddrMap`. -/
def updateWorkerAddrMap (clusterDir : Path) (σ : WorkerAddrState) : WorkerAddrState :=
  let workerAddr := loadAddrInDir σ.files (clusterDir ++ [gmWorkerDir])
  let coordinatorAddr := loadAddrInDir σ.files (clusterDir ++ [gmCoordinatorDir])
  if σ.loadCoordinatorMap clusterDir = false then
    { σ with
      workerAddrMap := Function.update σ.workerAddrMap clusterDir (workerAddr ++ coordinatorAddr)
      loadCoordinatorMap := Function.update σ.loadCoordinatorMap clusterDir true }
  else σ

/-- A call for a group. -/
inductive GroupCall
  | nodeAttach (nodeAddr : String)
  | updateWorkerAddrMap
  deriving DecidableEq, Repr

namespace WorkerAddrState

/-- Nothing has been loaded. -/
def start (files : FileTree) : WorkerAddrState := ⟨files, fun _ => [], fun _ => false⟩

/-- A call for the group of a directory. -/
def step (dir : Path) : GroupCall → WorkerAddrState → WorkerAddrState
  | .nodeAttach nodeAddr, σ => { σ with files := TPST.nodeAttach dir nodeAddr σ.files }
  | .updateWorkerAddrMap, σ => TPST.updateWorkerAddrMap dir σ

/-- The list of a group holds the addresses in its two directories, each once. -/
def Refreshed (dir : Path) (σ : WorkerAddrState) : Prop :=
  (σ.workerAddrMap dir).Nodup ∧ ∀ a, a ∈ σ.workerAddrMap dir ↔
    a ∈ loadAddrInDir σ.files (dir ++ [gmWorkerDir]) ∨
      a ∈ loadAddrInDir σ.files (dir ++ [gmCoordinatorDir])

/-- After each `updateWorkerAddrMap` of a sequence of calls, the list holds the group as it is. -/
def RefreshesWorkers (dir : Path) (files : FileTree) (calls : List GroupCall) : Prop :=
  ∀ pre post, calls = pre ++ .updateWorkerAddrMap :: post →
    Refreshed dir (run (step dir) (pre ++ [.updateWorkerAddrMap]) (start files))

/-- The servers attached by a sequence of calls. -/
def attached (calls : List GroupCall) : List String :=
  calls.filterMap fun
    | .nodeAttach nodeAddr => some nodeAddr
    | .updateWorkerAddrMap => none

/-- The first load suffices: the coordinator is no worker then, and what is attached before a later
`updateWorkerAddrMap` was there already. -/
def FirstLoadSuffices (c : String) (workers : List String) (calls : List GroupCall) : Prop :=
  ∀ pre post, calls = pre ++ .updateWorkerAddrMap :: post → .updateWorkerAddrMap ∉ pre →
    c ∉ workers ++ attached pre ∧
      ∀ mid post', post = mid ++ .updateWorkerAddrMap :: post' →
        ∀ a ∈ attached mid, a = c ∨ a ∈ workers ++ attached pre

section Calls

variable {dir : Path} {files : FileTree} {a c nodeAddr : String} {calls pre rest : List GroupCall}
  {σ : WorkerAddrState}

@[simp] theorem attached_nil : attached [] = [] := rfl

@[simp] theorem attached_append (calls calls' : List GroupCall) :
    attached (calls ++ calls') = attached calls ++ attached calls' := List.filterMap_append

@[simp] theorem attached_update (calls : List GroupCall) :
    attached (.updateWorkerAddrMap :: calls) = attached calls := rfl

@[simp] theorem files_update : (TPST.updateWorkerAddrMap dir σ).files = σ.files := by
  unfold TPST.updateWorkerAddrMap
  dsimp only
  split <;> rfl

/-- A server that is attached is listed with the workers, and the coordinators stay. -/
theorem mem_workers_nodeAttach :
    a ∈ loadAddrInDir (TPST.nodeAttach dir nodeAddr files) (dir ++ [gmWorkerDir]) ↔
      a = nodeAddr ∨ a ∈ loadAddrInDir files (dir ++ [gmWorkerDir]) := by
  simp [TPST.nodeAttach]

theorem mem_coordinators_nodeAttach :
    a ∈ loadAddrInDir (TPST.nodeAttach dir nodeAddr files) (dir ++ [gmCoordinatorDir]) ↔
      a ∈ loadAddrInDir files (dir ++ [gmCoordinatorDir]) := by
  simp [TPST.nodeAttach, gmCoordinatorDir, gmWorkerDir]

/-- **The directories after a sequence of calls.** -/
theorem nodup_files_run (hfiles : σ.files.Nodup) : (run (step dir) calls σ).files.Nodup := by
  induction calls generalizing σ with
  | nil => exact hfiles
  | cons call calls ih =>
    cases call with
    | nodeAttach nodeAddr => exact ih (nodup_createEntry (nodup_createEntry hfiles))
    | updateWorkerAddrMap =>
      have hsame : (step dir .updateWorkerAddrMap σ).files = σ.files := files_update
      exact ih (hsame ▸ hfiles)

theorem mem_workers_run :
    a ∈ loadAddrInDir (run (step dir) calls σ).files (dir ++ [gmWorkerDir]) ↔
      a ∈ loadAddrInDir σ.files (dir ++ [gmWorkerDir]) ∨ a ∈ attached calls := by
  induction calls generalizing σ with
  | nil => simp [attached]
  | cons call calls ih =>
    rw [run_cons, ih]
    cases call with
    | nodeAttach nodeAddr =>
      have hcons : attached (.nodeAttach nodeAddr :: calls) = nodeAddr :: attached calls := rfl
      rw [step, mem_workers_nodeAttach, hcons, List.mem_cons]
      exact or_assoc.trans or_left_comm
    | updateWorkerAddrMap => rw [step, files_update, attached_update]

theorem mem_coordinators_run :
    a ∈ loadAddrInDir (run (step dir) calls σ).files (dir ++ [gmCoordinatorDir]) ↔
      a ∈ loadAddrInDir σ.files (dir ++ [gmCoordinatorDir]) := by
  induction calls generalizing σ with
  | nil => rfl
  | cons call calls ih =>
    rw [run_cons, ih]
    cases call with
    | nodeAttach nodeAddr => exact mem_coordinators_nodeAttach
    | updateWorkerAddrMap => rw [step, files_update]

/-- Before the first `updateWorkerAddrMap` nothing is loaded. -/
theorem loadCoordinatorMap_run (hpre : .updateWorkerAddrMap ∉ pre) :
    (run (step dir) pre σ).loadCoordinatorMap = σ.loadCoordinatorMap := by
  induction pre generalizing σ with
  | nil => rfl
  | cons call calls ih =>
    rw [List.mem_cons, not_or] at hpre
    cases call with
    | nodeAttach nodeAddr => exact ih hpre.2
    | updateWorkerAddrMap => exact absurd rfl hpre.1

/-- What has been loaded stays. -/
theorem workerAddrMap_loaded (hloaded : σ.loadCoordinatorMap dir = true) :
    (run (step dir) calls σ).workerAddrMap dir = σ.workerAddrMap dir := by
  induction calls generalizing σ with
  | nil => rfl
  | cons call calls ih =>
    cases call with
    | nodeAttach nodeAddr => exact ih hloaded
    | updateWorkerAddrMap =>
      have hsame : TPST.updateWorkerAddrMap dir σ = σ := if_neg (by simp [hloaded])
      rw [run_cons, step, hsame]
      exact ih hloaded

/-- **What is loaded first stays**: the directories at the first `updateWorkerAddrMap`. -/
theorem workerAddrMap_run (hpre : .updateWorkerAddrMap ∉ pre) :
    (run (step dir) (pre ++ .updateWorkerAddrMap :: rest) (start files)).workerAddrMap dir =
      loadAddrInDir (run (step dir) pre (start files)).files (dir ++ [gmWorkerDir]) ++
        loadAddrInDir (run (step dir) pre (start files)).files (dir ++ [gmCoordinatorDir]) := by
  have hfirst : (run (step dir) pre (start files)).loadCoordinatorMap dir = false := by
    rw [loadCoordinatorMap_run hpre]
    rfl
  rw [run_append, run_cons, step, updateWorkerAddrMap, if_pos hfirst,
    workerAddrMap_loaded (Function.update_self ..)]
  exact Function.update_self ..

/-- The list against the group as it is after some more calls. -/
theorem refreshed_iff (hfiles : files.Nodup)
    (hone : loadAddrInDir files (dir ++ [gmCoordinatorDir]) = [c])
    (hpre : .updateWorkerAddrMap ∉ pre) :
    Refreshed dir (run (step dir) (pre ++ .updateWorkerAddrMap :: rest) (start files)) ↔
      c ∉ loadAddrInDir files (dir ++ [gmWorkerDir]) ++ attached pre ∧
        ∀ a ∈ attached rest,
          a = c ∨ a ∈ loadAddrInDir files (dir ++ [gmWorkerDir]) ++ attached pre := by
  have hcoordinator : ∀ calls a, a ∈ loadAddrInDir (run (step dir) calls (start files)).files
      (dir ++ [gmCoordinatorDir]) ↔ a = c := fun calls a => by
    rw [mem_coordinators_run, start, hone, List.mem_singleton]
  have hworkers : ∀ calls a, a ∈ loadAddrInDir (run (step dir) calls (start files)).files
      (dir ++ [gmWorkerDir]) ↔
        a ∈ loadAddrInDir files (dir ++ [gmWorkerDir]) ++ attached calls := fun calls a => by
    rw [mem_workers_run, List.mem_append]
    rfl
  have hnodup : ∀ dir', (loadAddrInDir (run (step dir) pre (start files)).files dir').Nodup :=
    fun dir' => nodup_loadAddrInDir (nodup_files_run hfiles) dir'
  rw [Refreshed, workerAddrMap_run hpre]
  refine and_congr ?_ ?_
  · rw [List.nodup_append]
    simp only [hnodup, true_and, hcoordinator, hworkers]
    exact ⟨fun h hc => h c hc c rfl rfl, fun h a ha b hb hab => h (hb ▸ hab ▸ ha)⟩
  · simp only [List.mem_append (s := loadAddrInDir _ _) (t := loadAddrInDir _ _), hcoordinator,
      hworkers, attached_append, attached_update, ← List.append_assoc]
    constructor
    · intro h a ha
      exact (((h a).2 (.inl (List.mem_append_right _ ha)))).symm
    · intro h a
      refine ⟨Or.imp_left (List.mem_append_left _), ?_⟩
      rintro (ha | ha)
      · rcases List.mem_append.1 ha with ha | ha
        · exact .inl ha
        · exact (h a ha).symm
      · exact .inr ha

end Calls

end WorkerAddrState

open WorkerAddrState

/-- **When refreshing picks up the group**: for every sequence of calls, after each
`updateWorkerAddrMap` the list is the group as it is, exactly if the first load suffices. -/
theorem refreshesWorkers_iff {dir : Path} {files : FileTree} {c : String} (hfiles : files.Nodup)
    (hone : loadAddrInDir files (dir ++ [gmCoordinatorDir]) = [c]) (calls : List GroupCall) :
    RefreshesWorkers dir files calls ↔
      FirstLoadSuffices c (loadAddrInDir files (dir ++ [gmWorkerDir])) calls := by
  constructor
  · intro h pre post hcalls hpre
    refine ⟨((refreshed_iff hfiles hone hpre).1 (h pre post hcalls)).1, ?_⟩
    rintro mid post' rfl
    have hlater := h (pre ++ .updateWorkerAddrMap :: mid) post' (by simp [hcalls])
    rw [List.append_assoc, List.cons_append, refreshed_iff hfiles hone hpre] at hlater
    simpa using hlater.2
  · intro h pre post hcalls
    by_cases hpre : .updateWorkerAddrMap ∈ pre
    · obtain ⟨pre₀, mid, rfl, hpre₀⟩ := List.eq_append_cons_of_mem hpre
      obtain ⟨hc, hmid⟩ := h pre₀ (mid ++ .updateWorkerAddrMap :: post) (by simp [hcalls]) hpre₀
      rw [List.append_assoc, List.cons_append, refreshed_iff hfiles hone hpre₀]
      refine ⟨hc, ?_⟩
      simpa using hmid mid post rfl
    · rw [refreshed_iff hfiles hone hpre]
      exact ⟨(h pre post hcalls hpre).1, by simp⟩

/-- A worker that is attached before the first load. -/
theorem refreshesWorkers_one :
    RefreshesWorkers ["cluster0"] [["cluster0", "coordinator", "n:0"]]
      [.nodeAttach "n:1", .updateWorkerAddrMap] := by
  refine (refreshesWorkers_iff (c := "n:0") (by decide) (by decide) _).2 ?_
  intro pre post hcalls hpre
  rcases pre with _ | ⟨call, _ | ⟨call', pre⟩⟩
  · simp at hcalls
  · obtain ⟨rfl, -, rfl⟩ : .nodeAttach "n:1" = call ∧ True ∧ [] = post := by simpa using hcalls
    exact ⟨by decide, by simp⟩
  · simp at hcalls

/-- One that is attached after it. -/
theorem refreshesWorkers_fails :
    ¬ ∀ (dir : Path) (files : FileTree) (c : String) (calls : List GroupCall), files.Nodup →
      loadAddrInDir files (dir ++ [gmCoordinatorDir]) = [c] → RefreshesWorkers dir files calls := by
  intro hall
  have hrefreshed := hall ["cluster0"] [["cluster0", "coordinator", "n:0"]] "n:0"
    [.updateWorkerAddrMap, .nodeAttach "n:1", .updateWorkerAddrMap] (by decide) (by decide)
    [.updateWorkerAddrMap, .nodeAttach "n:1"] [] rfl
  have hlisted := (hrefreshed.2 "n:1").2 (.inl (by decide))
  exact absurd hlisted (by decide)

end TPST
