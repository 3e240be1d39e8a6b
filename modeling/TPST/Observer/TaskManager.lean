import TPST.Foundations.Maps
import TPST.Foundations.Schedules
import TPST.Observer.EventStore

/-!
# The task managers

`Task_create` enters a task in two places: in the list of the event it subscribes, and under its
name in `taskManagerGlobal`, which is where `getTmfromES` looks for it. `deleteTmfromES` removes
it from the first only, and a later `Task_create` of that name finds the old one.

`Consistent` says that the two places agree, entry by entry. Creating tasks and registering
actions keeps this (`Consistent.create`, `Consistent.registerAction`), and `registryAgrees_iff`
says that calls keep the two in agreement exactly if no task is ever deleted.
-/

namespace TPST

open Std EventStore Schedule

/-- What a task manager runs for its task: `actionfunc` is the function by the library it is loaded
from, `none` where the pointer is null. -/
structure Observer where
  actionfunc : Option String
  deriving DecidableEq, Repr

/-- A `TaskManager`. -/
structure TaskManager where
  taskmeta : TaskManagerMeta
  observer : Option Observer
  deriving DecidableEq, Repr

/-- The two global variables. -/
structure TaskStore where
  es : EventStore
  taskManagerGlobal : OMap String TaskManager

/-- `getTmfromES`. -/
def getTmfromES (tmname : String) (s : TaskStore) : Option TaskManager :=
  s.taskManagerGlobal[tmname]?

/-- `Task_create`. What it returns is the task manager that has the name afterwards. -/
def taskCreate (tmname subevent pubevent : String) (taskType : TaskType) (s : TaskStore) :
    TaskStore :=
  match getTmfromES tmname s with
  | some _ => s
  | none =>
    let tmmeta : TaskManagerMeta := ⟨tmname, subevent, pubevent, taskType⟩
    { es := registerEvent tmmeta subevent s.es
      taskManagerGlobal := s.taskManagerGlobal.insert tmname ⟨tmmeta, none⟩ }

/-- `Task_registerAction`, for the task manager of this name. -/
def taskRegisterAction (tmname : String) (actionfun : Option String) (s : TaskStore) : TaskStore :=
  { s with
    taskManagerGlobal := s.taskManagerGlobal.modify tmname fun tm =>
      { tm with observer := some (tm.observer.getD ⟨actionfun⟩) } }

/-- What `TaskFileParsing` does with the file of a task that has an action function. -/
def loadTask (taskName subscribeevent pushevent : String) (taskType : TaskType)
    (actionPath : String) (s : TaskStore) : TaskStore :=
  taskRegisterAction taskName (some actionPath)
    (taskCreate taskName subscribeevent pushevent taskType s)

/-- A call on the event store. A task manager is passed by its name. -/
inductive TaskCall
  | create (tmname subevent pubevent : String) (taskType : TaskType)
  | delete (tmname : String)
  deriving DecidableEq, Repr

namespace TaskStore

/-- No task has been created. -/
def start : TaskStore := ⟨[], ∅⟩

/-- A call. There is no task manager to pass for a name that was never created. -/
def step : TaskCall → TaskStore → TaskStore
  | .create tmname subevent pubevent taskType, s => taskCreate tmname subevent pubevent taskType s
  | .delete tmname, s =>
    match getTmfromES tmname s with
    | some tm => { s with es := (deleteTmfromES tm.taskmeta s.es).state }
    | none => s

/-- The name is in the list of the event. -/
def NameListed (s : TaskStore) (tmname te : String) : Prop :=
  ∃ tmmeta, InList s.es te tmmeta ∧ tmmeta.name = tmname

/-- A name is in `taskManagerGlobal` exactly when it is in the list of the event it subscribes. -/
def Agree (s : TaskStore) : Prop :=
  ∀ tmname te, s.NameListed tmname te ↔
    ∃ tm, getTmfromES tmname s = some tm ∧ tm.taskmeta.subEvent = te

/-- Some call creates the task. -/
def Created (tmname : String) (calls : List TaskCall) : Prop :=
  ∃ subevent pubevent taskType, .create tmname subevent pubevent taskType ∈ calls

/-- A task that is created again after it was deleted is registered under the new events. -/
def Reregisters (calls : List TaskCall) : Prop :=
  ∀ pre mid post tmname subevent pubevent taskType,
    calls = pre ++ .delete tmname :: (mid ++ .create tmname subevent pubevent taskType :: post) →
      ¬ Created tmname mid →
        Registered (run step (pre ++ .delete tmname ::
          (mid ++ [.create tmname subevent pubevent taskType])) start).es
            ⟨tmname, subevent, pubevent, taskType⟩

/-- No task is deleted that was created before. -/
def DeletesNoTask (calls : List TaskCall) : Prop :=
  ∀ pre tmname post, calls = pre ++ .delete tmname :: post → ¬ Created tmname pre

/-- The two places hold the same tasks. -/
structure Consistent (s : TaskStore) : Prop where
  distinct : Distinct s.es
  listed : ∀ te tmmeta, InList s.es te tmmeta →
    tmmeta.subEvent = te ∧ ∃ tm, getTmfromES tmmeta.name s = some tm ∧ tm.taskmeta = tmmeta
  stored : ∀ tmname tm, getTmfromES tmname s = some tm →
    tm.taskmeta.name = tmname ∧ Registered s.es tm.taskmeta

section Calls

variable {s : TaskStore} {tmname tmname' subevent pubevent te : String} {taskType : TaskType}
  {actionfun : Option String} {tm : TaskManager} {calls : List TaskCall}

theorem taskCreate_old (h : getTmfromES tmname s = some tm) :
    taskCreate tmname subevent pubevent taskType s = s := by
  simp [taskCreate, h]

theorem es_taskCreate (h : getTmfromES tmname s = none) :
    (taskCreate tmname subevent pubevent taskType s).es =
      registerEvent ⟨tmname, subevent, pubevent, taskType⟩ subevent s.es := by
  simp [taskCreate, h]

theorem getTmfromES_taskCreate (h : getTmfromES tmname s = none) :
    getTmfromES tmname' (taskCreate tmname subevent pubevent taskType s) =
      if tmname = tmname' then some ⟨⟨tmname, subevent, pubevent, taskType⟩, none⟩
      else getTmfromES tmname' s := by
  unfold taskCreate
  rw [h]
  simp [getTmfromES, ExtTreeMap.getElem?_insert]

theorem getTmfromES_taskRegisterAction :
    getTmfromES tmname' (taskRegisterAction tmname actionfun s) =
      if tmname = tmname' then
        (getTmfromES tmname' s).map fun tm =>
          { tm with observer := some (tm.observer.getD ⟨actionfun⟩) }
      else getTmfromES tmname' s := by
  rw [getTmfromES, taskRegisterAction, ExtTreeMap.getElem?_modify]
  by_cases heq : tmname = tmname'
  · subst heq
    simp [getTmfromES]
  · simp [heq, getTmfromES]

/-- The names that have a task manager, after a creation. -/
theorem getTmfromES_taskCreate_ne_none :
    getTmfromES tmname' (taskCreate tmname subevent pubevent taskType s) ≠ none ↔
      tmname = tmname' ∨ getTmfromES tmname' s ≠ none := by
  cases hold : getTmfromES tmname s with
  | none =>
    rw [getTmfromES_taskCreate hold]
    by_cases heq : tmname = tmname' <;> simp [heq]
  | some tm =>
    rw [taskCreate_old hold]
    exact ⟨.inr, Or.rec (fun heq => by simp [← heq, hold]) id⟩

namespace Consistent

theorem start : Consistent start where
  distinct := ⟨List.nodup_nil, by simp [TaskStore.start]⟩
  listed te tmmeta h := absurd h not_inList_nil
  stored tmname tm h := by simp [TaskStore.start, getTmfromES] at h

/-- A name without a task manager is in no list. -/
theorem fresh (h : Consistent s) (hnew : getTmfromES tmname s = none) (t : TaskManagerMeta)
    (ht : InList s.es te t) : t.name ≠ tmname := by
  obtain ⟨-, tm, htm, -⟩ := h.listed te t ht
  rintro rfl
  rw [hnew] at htm
  cases htm

/-- **Creating a task** keeps the two places in agreement. -/
theorem create (h : Consistent s) :
    Consistent (taskCreate tmname subevent pubevent taskType s) := by
  cases hold : getTmfromES tmname s with
  | some tm => rwa [taskCreate_old hold]
  | none =>
    have hlist : ∀ te t, InList (taskCreate tmname subevent pubevent taskType s).es te t ↔
        InList s.es te t ∨ (subevent = te ∧ t = ⟨tmname, subevent, pubevent, taskType⟩) :=
      fun te t => by rw [es_taskCreate hold, inList_registerEvent fun t ht => h.fresh hold t ht]
    refine ⟨es_taskCreate hold ▸ distinct_registerEvent h.distinct, fun te t ht => ?_,
      fun tmname' tm htm => ?_⟩
    · rcases (hlist te t).1 ht with ht | ⟨rfl, rfl⟩
      · have hne := h.fresh hold t ht
        rw [getTmfromES_taskCreate hold, if_neg hne.symm]
        exact h.listed te t ht
      · exact ⟨rfl, _, by rw [getTmfromES_taskCreate hold, if_pos rfl], rfl⟩
    · rw [getTmfromES_taskCreate hold] at htm
      split_ifs at htm with heq
      · obtain rfl := Option.some.inj htm
        exact ⟨heq, (hlist _ _).2 (.inr ⟨rfl, rfl⟩)⟩
      · obtain ⟨hname, hreg⟩ := h.stored tmname' tm htm
        exact ⟨hname, (hlist _ _).2 (.inl hreg)⟩

/-- **Registering an action** does as well. -/
theorem registerAction (h : Consistent s) : Consistent (taskRegisterAction tmname actionfun s) := by
  have hmeta : ∀ tmname', (getTmfromES tmname' (taskRegisterAction tmname actionfun s)).map
      TaskManager.taskmeta = (getTmfromES tmname' s).map TaskManager.taskmeta := by
    intro tmname'
    rw [getTmfromES_taskRegisterAction]
    split_ifs
    · rw [Option.map_map]
      rfl
    · rfl
  refine ⟨h.distinct, fun te t ht => ?_, fun tmname' tm htm => ?_⟩
  · obtain ⟨hsub, tm, htm, hmetaeq⟩ := h.listed te t ht
    have hsame := hmeta t.name
    rw [htm, Option.map_some, hmetaeq, Option.map_eq_some_iff] at hsame
    exact ⟨hsub, hsame⟩
  · have hsame := hmeta tmname'
    rw [htm, Option.map_some, eq_comm, Option.map_eq_some_iff] at hsame
    obtain ⟨tm', htm', hmetaeq⟩ := hsame
    exact hmetaeq ▸ h.stored tmname' tm' htm'

/-- Consistent places agree on the names. -/
theorem agree (h : Consistent s) : Agree s := by
  intro tmname te
  constructor
  · rintro ⟨tmmeta, hlist, rfl⟩
    obtain ⟨hsub, tm, htm, rfl⟩ := h.listed te tmmeta hlist
    exact ⟨tm, htm, hsub⟩
  · rintro ⟨tm, htm, rfl⟩
    obtain ⟨hname, hreg⟩ := h.stored tmname tm htm
    exact ⟨tm.taskmeta, hreg, hname⟩

end Consistent

/-- **A deleted task stays in `taskManagerGlobal`.** -/
theorem not_agree_delete (h : Consistent s) (hold : getTmfromES tmname s ≠ none) :
    ¬ Agree (step (.delete tmname) s) := by
  obtain ⟨tm, htm⟩ := Option.ne_none_iff_exists'.1 hold
  obtain ⟨hname, hreg⟩ := h.stored tmname tm htm
  have hstep : step (.delete tmname) s = { s with es := eraseTask tm.taskmeta s.es } := by
    rw [step, htm, ← state_deleteTmfromES h.distinct hreg]
  rw [hstep]
  intro hagree
  obtain ⟨t, hlist, hname'⟩ := (hagree tmname tm.taskmeta.subEvent).2 ⟨tm, htm, rfl⟩
  exact (inList_eraseTask.1 hlist).2 ⟨rfl, hname'.trans hname.symm⟩

/-- **The names in `taskManagerGlobal` are the names ever created.** -/
theorem getTmfromES_run : getTmfromES tmname (run step calls s) ≠ none ↔
    getTmfromES tmname s ≠ none ∨ Created tmname calls := by
  induction calls generalizing s with
  | nil => simp [Created]
  | cons call calls ih =>
    rw [run_cons, ih]
    cases call with
    | create tmname' subevent pubevent taskType =>
      rw [step, getTmfromES_taskCreate_ne_none]
      have hcons : Created tmname (.create tmname' subevent pubevent taskType :: calls) ↔
          tmname' = tmname ∨ Created tmname calls := by
        simp only [Created, List.mem_cons, TaskCall.create.injEq]
        constructor
        · rintro ⟨sub, pub, ty, ⟨rfl, -⟩ | hmem⟩
          · exact .inl rfl
          · exact .inr ⟨sub, pub, ty, hmem⟩
        · rintro (rfl | ⟨sub, pub, ty, hmem⟩)
          · exact ⟨_, _, _, .inl ⟨rfl, rfl, rfl, rfl⟩⟩
          · exact ⟨sub, pub, ty, .inr hmem⟩
      rw [hcons]
      tauto
    | delete tmname' =>
      have hsame : getTmfromES tmname (step (.delete tmname') s) = getTmfromES tmname s := by
        rw [step]
        split <;> rfl
      rw [hsame]
      simp [Created]

/-- A step that deletes no task keeps the two places consistent. -/
theorem Consistent.step {call : TaskCall} (h : Consistent s)
    (hdelete : ∀ tmname, call = .delete tmname → getTmfromES tmname s = none) :
    Consistent (TaskStore.step call s) := by
  cases call with
  | create tmname subevent pubevent taskType => exact h.create
  | delete tmname =>
    have hsame : TaskStore.step (.delete tmname) s = s := by
      rw [TaskStore.step, hdelete tmname rfl]
    rwa [hsame]

theorem getTmfromES_run_start : getTmfromES tmname (run step calls start) = none ↔
    ¬ Created tmname calls := by
  have hstart : getTmfromES tmname start = none := by simp [start, getTmfromES]
  rw [← not_ne_iff, getTmfromES_run, hstart]
  simp

/-- Along a run, deleting no task that is stored is deleting none that was created. -/
theorem along_delete_iff : Along step (fun call s =>
      ∀ tmname, call = .delete tmname → getTmfromES tmname s = none) calls start ↔
    DeletesNoTask calls := by
  rw [along_iff]
  constructor
  · intro h pre tmname post hcalls
    exact getTmfromES_run_start.1 (h pre _ post hcalls tmname rfl)
  · rintro h pre call post hcalls tmname rfl
    exact getTmfromES_run_start.2 (h pre tmname post hcalls)

/-- Calls that delete no task leave the two places consistent. -/
theorem consistent_run (h : DeletesNoTask calls) : Consistent (run step calls start) :=
  run_induction_along (fun _ _ hs hdelete => hs.step hdelete) Consistent.start
    (along_delete_iff.2 h)

/-- A creation without an old task manager registers the task. -/
theorem registered_taskCreate (h : Consistent s) (hnew : getTmfromES tmname s = none) :
    Registered (taskCreate tmname subevent pubevent taskType s).es
      ⟨tmname, subevent, pubevent, taskType⟩ := by
  rw [Registered, es_taskCreate hnew, inList_registerEvent fun t ht => h.fresh hnew t ht]
  exact .inr ⟨rfl, rfl⟩

/-- Where no task is deleted, a name that is not taken is registered. -/
theorem reregisters (h : DeletesNoTask calls) : Reregisters calls := by
  rintro pre mid post tmname subevent pubevent taskType rfl hmid
  have hhead : DeletesNoTask (pre ++ .delete tmname :: mid) := fun pre' tmname' post' heq =>
    h pre' tmname' (post' ++ .create tmname subevent pubevent taskType :: post) (by
      rw [← List.cons_append, ← List.append_assoc, heq, List.append_assoc, List.cons_append])
  have hnew : getTmfromES tmname (run step (pre ++ .delete tmname :: mid) start) = none := by
    have hpre := h pre tmname _ rfl
    rw [getTmfromES_run_start]
    rintro ⟨sub, pub, ty, hmem⟩
    rcases List.mem_append.1 hmem with hmem | hmem
    · exact hpre ⟨sub, pub, ty, hmem⟩
    · exact hmid ⟨sub, pub, ty, (List.mem_cons.1 hmem).resolve_left (by simp)⟩
  have hlast : pre ++ .delete tmname :: (mid ++ [.create tmname subevent pubevent taskType]) =
      pre ++ .delete tmname :: mid ++ [.create tmname subevent pubevent taskType] := by simp
  rw [hlast, run_append]
  exact registered_taskCreate (consistent_run hhead) hnew

end Calls

end TaskStore

open TaskStore

/-- **When the two places agree**: along every sequence of calls, and so that a deleted task can be
created anew, exactly if no task is deleted. -/
theorem registryAgrees_iff (calls : List TaskCall) :
    Always step Agree calls start ∧ Reregisters calls ↔ DeletesNoTask calls := by
  have halways : Always step Agree calls start ↔ DeletesNoTask calls := by
    rw [← along_delete_iff]
    refine always_iff_along (fun s hs => hs.agree) (fun call s hs => hs.step) ?_ Consistent.start
      calls
    rintro call s hs hagree tmname rfl
    by_contra hold
    exact not_agree_delete hs hold hagree
  rw [halways, and_iff_left_iff_imp]
  exact reregisters

/-- A task that is deleted, and created again for another event. -/
theorem registryAgrees_fails :
    ¬ ∀ calls : List TaskCall, Always step Agree calls start ∧ Reregisters calls := by
  intro hall
  have hagree := (hall [.create "t3" "T1_FINISH" "T3_FINISH" .blocked, .delete "t3",
    .create "t3" "T2_FINISH" "T3_FINISH" .blocked]).1.2.2.1
  exact not_agree_delete Consistent.start.create
    (getTmfromES_taskCreate_ne_none.2 (.inl rfl)) hagree

end TPST
