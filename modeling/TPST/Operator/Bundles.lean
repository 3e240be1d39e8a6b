import TPST.Cluster.SubscribeHandler
import TPST.Utils.Strparse

/-!
# Tasks and their triggers

The operator keeps a bundle for every task: the template it is started from, its running id, and the
trigger before it and after it, which it subscribes to. A task whose first trigger is `INIT` is
started at once, by `sbatch`; `stopTaskBySlurm` ends it by `scancel` with the id that was recorded.

The id is cut from what `sbatch` prints, as the last five characters. The last one of these is the
end of the line, so what is recorded is never the id (`jobId_ne`).
-/

namespace TPST

open Std

/-- `Triggure`. -/
structure Triggure where
  type : String
  subtopic : String
  subMeta : String
  taskName : String
  deriving DecidableEq, Repr

/-- `Bundle`. -/
structure Bundle where
  taskName : String
  taskTemplates : String
  taskRunningID : String
  pretg : Triggure
  posttg : Triggure
  deriving DecidableEq, Repr

/-- `preTrg`. -/
def preTrg : String := "PRETRIGGURE"

/-- `postTrg`. -/
def postTrg : String := "POSTTRIGGURE"

/-- A bundle that is not there is made up of empty strings. -/
def Bundle.empty : Bundle := ⟨"", "", "", ⟨"", "", "", ""⟩, ⟨"", "", "", ""⟩⟩

/-- `bmap` and `submap`. -/
structure OperatorState where
  bmap : OMap String Bundle
  submap : OMap String Triggure

/-- `runTaskByTemplateSlurm`, given what `sbatch` prints for a template. -/
def runTaskByTemplateSlurm (sbatch : String → String) (templateName : String) :
    Except Fault String := do
  let str := (sbatch templateName).toList
  let len := str.length
  -- below 5, `len - 5` is negative, and as an unsigned number beyond the end
  let taskID ← if len < 5 then .error .outOfRange else substr str (len - 5) len
  return String.ofList taskID

/-- `stopTaskBySlurm`: the state it leaves, in which `bmap[taskName]` opens an entry that is not
there, and the command it executes. -/
def stopTaskBySlurm (taskName : String) (σ : OperatorState) : OperatorState × String :=
  let bundle := σ.bmap[taskName]?.getD .empty
  ({ σ with bmap := σ.bmap.insert taskName bundle }, "scancel " ++ bundle.taskRunningID)

/-- `testBundleRegister` with the two ids it draws: the state it leaves, and the subscriptions it
sends. -/
def testBundleRegister (sbatch : String → String) (preSubID postSubID notifyaddr taskName
    taskTemplates preTopic preMeta postTopic postMeta : String) (σ : OperatorState) :
    Flow Fault (OperatorState × List PubSubRequest) :=
  let b : Bundle :=
    { taskName := taskName
      taskTemplates := taskTemplates
      taskRunningID := ""
      pretg := ⟨preTrg, preTopic, preMeta, taskName⟩
      posttg := ⟨postTrg, postTopic, postMeta, taskName⟩ }
  let σ : OperatorState :=
    { bmap := σ.bmap.insert taskName b
      submap := (σ.submap.insert preSubID b.pretg).insert postSubID b.posttg }
  let request (subID : String) (tg : Triggure) : PubSubRequest :=
    ⟨[tg.subtopic], subID, notifyaddr, "NAME", tg.subMeta⟩
  let sent := if postTopic ≠ "NONE" then [request postSubID b.posttg] else []
  if preTopic ≠ "INIT" then .next (σ, sent ++ [request preSubID b.pretg])
  else
    match runTaskByTemplateSlurm sbatch taskTemplates with
    | .error e => .fault e (σ, sent)
    | .ok taskRunningID =>
      .next ({ σ with
        bmap := σ.bmap.insert taskName
          { σ.bmap[taskName]?.getD .empty with taskRunningID := taskRunningID } }, sent)

section Slurm

variable {sbatch : String → String} {taskTemplates id preSubID postSubID notifyaddr taskName preMeta
  postTopic postMeta : String} {N : ℕ} {σ : OperatorState}

/-- What is cut from a line of four characters or more: the last four, and the end of the line. -/
theorem runTaskByTemplateSlurm_eq {front last : List Char} (hlast : last.length = 4)
    (hprint : (sbatch taskTemplates).toList = front ++ last ++ ['\n']) :
    runTaskByTemplateSlurm sbatch taskTemplates = .ok (String.ofList (last ++ ['\n'])) := by
  have hlength : (front ++ last ++ ['\n']).length = front.length + 5 := by
    simp only [List.length_append, List.length_singleton]
    omega
  have hcut : substr (front ++ last ++ ['\n']) (front.length + 5 - 5) (front.length + 5) =
      .ok (last ++ ['\n']) := by
    rw [substr, if_neg (by omega), Nat.add_sub_cancel, List.append_assoc, List.drop_left,
      List.take_of_length_le (by simp; omega)]
  rw [runTaskByTemplateSlurm]
  dsimp only
  rw [hprint, hlength, if_neg (by omega), hcut]
  rfl

/-- The id that `sbatch` printed is not what is cut from its line. -/
theorem exists_taskID (hprint : sbatch taskTemplates = "Submitted batch job " ++ N.repr ++ "\n") :
    ∃ id, runTaskByTemplateSlurm sbatch taskTemplates = .ok id ∧ id ≠ N.repr := by
  have hline : (sbatch taskTemplates).toList =
      ("Submitted batch job ".toList ++ N.repr.toList) ++ ['\n'] := by
    rw [hprint, String.toList_append, String.toList_append]
    rfl
  have hlong : 4 ≤ ("Submitted batch job ".toList ++ N.repr.toList).length := by
    rw [List.length_append]
    exact Nat.le_add_right_of_le (by decide)
  obtain ⟨front, last, hsplit, hlast⟩ : ∃ front last : List Char,
      "Submitted batch job ".toList ++ N.repr.toList = front ++ last ∧ last.length = 4 :=
    ⟨_, _, (List.take_append_drop _ _).symm, by rw [List.length_drop]; exact Nat.sub_sub_self hlong⟩
  rw [hsplit] at hline
  refine ⟨_, runTaskByTemplateSlurm_eq hlast hline, fun heq => ?_⟩
  -- the end of the line is no digit
  have hend : '\n' ∈ N.repr.toList := by
    rw [← heq, String.toList_ofList]
    simp
  rw [Nat.toList_repr] at hend
  exact absurd (isDigit_of_mem_toDigits hend) (by decide)

/-- A task that is started at once is recorded with what is cut from the line. -/
theorem taskRunningID_testBundleRegister
    (hrun : runTaskByTemplateSlurm sbatch taskTemplates = .ok id) :
    ((testBundleRegister sbatch preSubID postSubID notifyaddr taskName taskTemplates "INIT" preMeta
      postTopic postMeta σ).state.1.bmap[taskName]?).map Bundle.taskRunningID = some id := by
  simp [testBundleRegister, hrun]

/-- What is recorded is passed on. -/
theorem stopTaskBySlurm_snd (hid : σ.bmap[taskName]?.map Bundle.taskRunningID = some id) :
    (stopTaskBySlurm taskName σ).2 = "scancel " ++ id := by
  obtain ⟨bundle, hbundle, rfl⟩ := Option.map_eq_some_iff.1 hid
  rw [stopTaskBySlurm, hbundle]
  rfl

/-- **What is recorded is never the id**: whatever id `sbatch` prints for the template of a task,
another text is returned, is recorded as the running id, and is passed to `scancel`. -/
theorem jobId_ne (hprint : sbatch taskTemplates = "Submitted batch job " ++ N.repr ++ "\n") :
    runTaskByTemplateSlurm sbatch taskTemplates ≠ .ok N.repr ∧
      ∀ preSubID postSubID notifyaddr taskName preMeta postTopic postMeta σ,
        ((testBundleRegister sbatch preSubID postSubID notifyaddr taskName taskTemplates "INIT"
          preMeta postTopic postMeta σ).state.1.bmap[taskName]?).map Bundle.taskRunningID ≠
            some N.repr ∧
        (stopTaskBySlurm taskName (testBundleRegister sbatch preSubID postSubID notifyaddr taskName
          taskTemplates "INIT" preMeta postTopic postMeta σ).state.1).2 ≠ "scancel " ++ N.repr := by
  obtain ⟨id, hrun, hne⟩ := exists_taskID hprint
  refine ⟨by simpa [hrun] using hne, ?_⟩
  intro preSubID postSubID notifyaddr taskName preMeta postTopic postMeta σ
  have hid := @taskRunningID_testBundleRegister sbatch taskTemplates id preSubID postSubID
    notifyaddr taskName preMeta postTopic postMeta σ hrun
  refine ⟨by simpa [hid] using hne, ?_⟩
  rw [stopTaskBySlurm_snd hid, Ne, String.append_right_inj]
  exact hne

end Slurm

/-- The id in the comment of the source. -/
theorem jobId_ne_example :
    runTaskByTemplateSlurm (fun _ => "Submitted batch job 43942\n") "sim.sh" ≠ .ok "43942" :=
  (@jobId_ne (fun _ => "Submitted batch job 43942\n") "sim.sh" 43942 (by decide)).1

/-- It is cut to `3942` and the end of the line. -/
theorem jobId_fails :
    ¬ ∀ (sbatch : String → String) (taskTemplates : String) (N : ℕ), 0 < N →
      sbatch taskTemplates = "Submitted batch job " ++ N.repr ++ "\n" →
        runTaskByTemplateSlurm sbatch taskTemplates = .ok N.repr := by
  intro hall
  have hok := hall (fun _ => "Submitted batch job 43942\n") "sim.sh" 43942 (by decide) (by decide)
  have hcut : runTaskByTemplateSlurm (fun _ => "Submitted batch job 43942\n") "sim.sh" =
      .ok "3942\n" := by decide
  rw [hcut] at hok
  exact absurd hok (by decide)

end TPST
