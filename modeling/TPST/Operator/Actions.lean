import Mathlib.Data.List.Nodup
import TPST.Operator.Bundles

/-!
# What notifications start

A server that notifies the operator names the id of a subscription. `ActionByOperator` looks for the
trigger with this id, then for the bundle of the trigger's task, and starts the task's template if
the trigger is the one before the task. Both lookups open an entry that is not there.

`operatorRun_eq` says what notifications start over a history: a first trigger starts the template
that was registered last under the name of its task. So an older registration of the same task
starts the newer template. Triggers after a task and ids that were not drawn start nothing.
-/

namespace TPST

open Std

/-- A trigger that is not there is made up of empty strings. -/
def Triggure.empty : Triggure := ⟨"", "", "", ""⟩

/-- `ActionByOperator`: the state it leaves, and the templates it starts. The id of the started task
is not kept. -/
def actionByOperator (sbatch : String → String) (clientID : String) (σ : OperatorState) :
    Except Fault (OperatorState × List String) :=
  let triggure := σ.submap[clientID]?.getD .empty
  let bundle := σ.bmap[triggure.taskName]?.getD .empty
  let σ : OperatorState :=
    { bmap := σ.bmap.insert triggure.taskName bundle
      submap := σ.submap.insert clientID triggure }
  if triggure.type = preTrg then do
    let _ ← runTaskByTemplateSlurm sbatch bundle.taskTemplates
    return (σ, [bundle.taskTemplates])
  else return (σ, [])

/-- The arguments of `testBundleRegister`, and the ids it draws. -/
structure BundleRegistration where
  preSubID : String
  postSubID : String
  notifyaddr : String
  taskName : String
  taskTemplates : String
  preTopic : String
  preMeta : String
  postTopic : String
  postMeta : String
  deriving DecidableEq, Repr

/-- What happens at the operator. -/
inductive OperatorEvent
  | register (r : BundleRegistration)
  | notify (clientID : String)
  deriving DecidableEq, Repr

/-- What the operator does, given what `sbatch` would print for it: the state it leaves, and the
templates that a notification starts. -/
def operatorStep (printed : String) (σ : OperatorState) :
    OperatorEvent → Except Fault (OperatorState × List String)
  | .register r =>
    match testBundleRegister (fun _ => printed) r.preSubID r.postSubID r.notifyaddr r.taskName
      r.taskTemplates r.preTopic r.preMeta r.postTopic r.postMeta σ with
    | .fault x _ => .error x
    | .next (σ, _) => .ok (σ, [])
    | .ret (σ, _) => .ok (σ, [])
  | .notify clientID => actionByOperator (fun _ => printed) clientID σ

/-- What the operator does, event after event: the state it leaves, and all templates that
notifications start, in order. -/
def operatorRun : List (String × OperatorEvent) → OperatorState →
    Except Fault (OperatorState × List String)
  | [], σ => .ok (σ, [])
  | (printed, event) :: events, σ => do
    let (σ, started) ← operatorStep printed σ event
    let (σ, startedLater) ← operatorRun events σ
    return (σ, started ++ startedLater)

/-- No task is registered. -/
def OperatorState.start : OperatorState := ⟨∅, ∅⟩

/-! ## What is to be started -/

/-- The registrations of a history. -/
def registrations (events : List OperatorEvent) : List BundleRegistration :=
  events.filterMap fun
    | .register r => some r
    | .notify _ => none

/-- The template that was registered last for a task. -/
def latestTemplate (taskName : String) (rs : List BundleRegistration) : Option String :=
  (rs.reverse.find? (·.taskName = taskName)).map BundleRegistration.taskTemplates

/-- What an event starts after some registrations. -/
def startedBy (rs : List BundleRegistration) : OperatorEvent → List String
  | .register _ => []
  | .notify clientID =>
    ((rs.find? (·.preSubID = clientID)).bind fun r => latestTemplate r.taskName rs).toList

/-- What the events of a history start, each after the registrations before it. -/
def startedAll (rs : List BundleRegistration) : List OperatorEvent → List String
  | [] => []
  | event :: events => startedBy rs event ++ startedAll (rs ++ registrations [event]) events

/-- The ids that some registrations draw. -/
def subIDs (rs : List BundleRegistration) : List String :=
  rs.flatMap fun r => [r.preSubID, r.postSubID]

section Templates

variable {rs : List BundleRegistration} {taskName : String} {r : BundleRegistration}

theorem latestTemplate_concat : latestTemplate taskName (rs ++ [r]) =
    if r.taskName = taskName then some r.taskTemplates else latestTemplate taskName rs := by
  rw [latestTemplate, List.reverse_append, List.reverse_singleton, List.singleton_append,
    List.find?_cons]
  split <;> simp_all [latestTemplate]

theorem exists_latestTemplate (hr : r ∈ rs) :
    ∃ template, latestTemplate r.taskName rs = some template := by
  obtain ⟨r', hr'⟩ : ∃ r', rs.reverse.find? (·.taskName = r.taskName) = some r' := by
    apply Option.isSome_iff_exists.1
    rw [List.find?_isSome]
    exact ⟨r, List.mem_reverse.2 hr, by simp⟩
  exact ⟨r'.taskTemplates, by rw [latestTemplate, hr', Option.map_some]⟩

theorem registrations_cons (event : OperatorEvent) (events : List OperatorEvent) :
    registrations (event :: events) = registrations [event] ++ registrations events := by
  cases event <;> rfl

end Templates

/-! ## The maps -/

/-- What the maps of the operator hold after some registrations. -/
structure Records (rs : List BundleRegistration) (σ : OperatorState) : Prop where
  /-- The triggers before tasks. -/
  pre : ∀ r ∈ rs, σ.submap[r.preSubID]? = some ⟨preTrg, r.preTopic, r.preMeta, r.taskName⟩
  /-- The other triggers. -/
  others : ∀ id tg, σ.submap[id]? = some tg → (∀ r ∈ rs, r.preSubID ≠ id) → tg.type ≠ preTrg
  /-- The bundles. -/
  bundle : ∀ r ∈ rs, σ.bmap[r.taskName]?.map Bundle.taskTemplates = latestTemplate r.taskName rs

section Records

variable {rs : List BundleRegistration} {σ : OperatorState} {r : BundleRegistration}
  {id printed : String}

theorem Records.exists_bundle (h : Records rs σ) (hr : r ∈ rs) :
    ∃ bundle, σ.bmap[r.taskName]? = some bundle ∧
      latestTemplate r.taskName rs = some bundle.taskTemplates := by
  obtain ⟨template, htemplate⟩ := exists_latestTemplate hr
  obtain ⟨bundle, hbundle, rfl⟩ := Option.map_eq_some_iff.1 ((h.bundle r hr).trans htemplate)
  exact ⟨bundle, hbundle, htemplate⟩

/-- Writing down the entry of a lookup changes no bundle that is there. -/
theorem Records.lookup_bundle (h : Records rs σ) (hr : r ∈ rs) (taskName : String) :
    (σ.bmap.insert taskName (σ.bmap[taskName]?.getD .empty))[r.taskName]? =
      σ.bmap[r.taskName]? := by
  obtain ⟨bundle, hbundle, -⟩ := h.exists_bundle hr
  rw [ExtTreeMap.getElem?_insert]
  split
  · rename_i heq
    rw [Std.compare_eq_iff_eq.1 heq, hbundle, Option.getD_some]
  · rfl

/-- What notifications of `id` look up is what they leave. -/
theorem Records.lookup (h : Records rs σ) (id : String) (tg : Triggure)
    (htg : tg = σ.submap[id]?.getD .empty) :
    Records rs ⟨σ.bmap.insert tg.taskName (σ.bmap[tg.taskName]?.getD .empty),
      σ.submap.insert id tg⟩ where
  pre r hr := by
    rw [ExtTreeMap.getElem?_insert]
    split
    · rename_i heq
      rw [htg, Std.compare_eq_iff_eq.1 heq, h.pre r hr, Option.getD_some]
    · exact h.pre r hr
  others id' tg' hget hother := by
    rw [ExtTreeMap.getElem?_insert] at hget
    split at hget
    · rename_i heq
      obtain rfl := Option.some.inj hget
      rw [← Std.compare_eq_iff_eq.1 heq] at hother
      rw [htg]
      cases hid : σ.submap[id]? with
      | none => decide
      | some tg => exact h.others id tg hid hother
    · exact h.others id' tg' hget hother
  bundle r hr := by rw [h.lookup_bundle hr, h.bundle r hr]

theorem exists_runTaskByTemplateSlurm (hprint : 5 ≤ printed.length) (template : String) :
    ∃ taskID, runTaskByTemplateSlurm (fun _ => printed) template = .ok taskID := by
  have hlen : 5 ≤ printed.toList.length := by rwa [String.length_toList]
  refine ⟨String.ofList ((printed.toList.drop (printed.toList.length - 5)).take
    printed.toList.length), ?_⟩
  rw [runTaskByTemplateSlurm]
  dsimp only
  rw [if_neg (by omega), substr, if_neg (by omega)]
  rfl

/-- **A notification** starts the latest template of a first trigger's task, and keeps the
records. -/
theorem Records.notify (h : Records rs σ) (hprint : 5 ≤ printed.length) (id : String) :
    ∃ σ', operatorStep printed σ (.notify id) = .ok (σ', startedBy rs (.notify id)) ∧
      Records rs σ' := by
  refine ⟨_, ?_, h.lookup id _ rfl⟩
  rw [operatorStep, actionByOperator, startedBy]
  cases hfind : rs.find? (·.preSubID = id) with
  | none =>
    have hother : ∀ r ∈ rs, r.preSubID ≠ id := by simpa using hfind
    have htype : (σ.submap[id]?.getD .empty).type ≠ preTrg := by
      cases hid : σ.submap[id]? with
      | none => decide
      | some tg => exact h.others id tg hid hother
    rw [if_neg htype]
    rfl
  | some r =>
    have hr : r ∈ rs := List.mem_of_find?_eq_some hfind
    have hid : r.preSubID = id := by simpa using List.find?_some hfind
    obtain ⟨bundle, hbundle, htemplate⟩ := h.exists_bundle hr
    obtain ⟨taskID, hrun⟩ := exists_runTaskByTemplateSlurm hprint bundle.taskTemplates
    rw [← hid, h.pre r hr, Option.getD_some, if_pos rfl, hbundle, Option.getD_some, hrun,
      Option.bind_some, htemplate]
    rfl

/-- The maps after a registration, whatever task id is put into the bundle. -/
theorem Records.insert (h : Records rs σ) (hids : (subIDs (rs ++ [r])).Nodup)
    {m : OMap String Bundle} (hm : ∀ taskName, m[taskName]?.map Bundle.taskTemplates =
      if r.taskName = taskName then some r.taskTemplates
      else σ.bmap[taskName]?.map Bundle.taskTemplates) :
    Records (rs ++ [r]) ⟨m,
      (σ.submap.insert r.preSubID ⟨preTrg, r.preTopic, r.preMeta, r.taskName⟩).insert r.postSubID
        ⟨postTrg, r.postTopic, r.postMeta, r.taskName⟩⟩ := by
  rw [subIDs, List.flatMap_append, List.nodup_append] at hids
  obtain ⟨-, hnew, hold⟩ := hids
  have hne : r.preSubID ≠ r.postSubID := by simpa using hnew
  have hfresh : ∀ r' ∈ rs, r'.preSubID ≠ r.preSubID ∧ r'.preSubID ≠ r.postSubID := by
    intro r' hr'
    have hmem : r'.preSubID ∈ rs.flatMap fun r => [r.preSubID, r.postSubID] :=
      List.mem_flatMap.2 ⟨r', hr', by simp⟩
    exact ⟨hold _ hmem _ (by simp), hold _ hmem _ (by simp)⟩
  refine ⟨fun r' hr' => ?_, fun id tg hget hother => ?_, fun r' hr' => ?_⟩
  · simp only [ExtTreeMap.getElem?_insert, Std.compare_eq_iff_eq]
    rcases List.mem_append.1 hr' with hr' | hr'
    · rw [if_neg (hfresh r' hr').2.symm, if_neg (hfresh r' hr').1.symm, h.pre r' hr']
    · rw [List.mem_singleton.1 hr', if_neg hne.symm, if_pos rfl]
  · simp only [ExtTreeMap.getElem?_insert, Std.compare_eq_iff_eq] at hget
    rw [if_neg (hother r (by simp) : r.preSubID ≠ id)] at hget
    split at hget
    · obtain rfl := Option.some.inj hget
      show postTrg ≠ preTrg
      decide
    · exact h.others id tg hget fun r' hr' => hother r' (List.mem_append_left _ hr')
  · rw [hm, latestTemplate_concat]
    split
    · rfl
    · rename_i htask
      rcases List.mem_append.1 hr' with hr' | hr'
      · exact h.bundle r' hr'
      · exact absurd (by rw [List.mem_singleton.1 hr']) htask

/-- **A registration** is added to the records. -/
theorem Records.register (h : Records rs σ) (hprint : 5 ≤ printed.length)
    (hids : (subIDs (rs ++ [r])).Nodup) :
    ∃ σ', operatorStep printed σ (.register r) = .ok (σ', startedBy rs (.register r)) ∧
      Records (rs ++ [r]) σ' := by
  obtain ⟨taskID, hrun⟩ := exists_runTaskByTemplateSlurm hprint r.taskTemplates
  simp only [operatorStep, testBundleRegister, hrun]
  rcases eq_or_ne r.preTopic "INIT" with hinit | hinit
  · rw [if_neg (not_not.2 hinit)]
    refine ⟨_, rfl, h.insert hids fun taskName => ?_⟩
    -- the bundle is written a second time, with the id
    simp only [ExtTreeMap.getElem?_insert, Std.compare_eq_iff_eq, if_true, Option.getD_some]
    split <;> rfl
  · rw [if_pos hinit]
    refine ⟨_, rfl, h.insert hids fun taskName => ?_⟩
    simp only [ExtTreeMap.getElem?_insert, Std.compare_eq_iff_eq]
    split <;> rfl

/-- **An event** starts what it is to start after the registrations before it. -/
theorem Records.step (h : Records rs σ) (hprint : 5 ≤ printed.length) {event : OperatorEvent}
    (hids : (subIDs (rs ++ registrations [event])).Nodup) :
    ∃ σ', operatorStep printed σ event = .ok (σ', startedBy rs event) ∧
      Records (rs ++ registrations [event]) σ' := by
  cases event with
  | register r => exact h.register hprint hids
  | notify id =>
    show ∃ σ', _ ∧ Records (rs ++ []) σ'
    rw [List.append_nil]
    exact h.notify hprint id

/-- **A history** starts what its events are to start. -/
theorem Records.run {events : List (String × OperatorEvent)} (h : Records rs σ)
    (hprint : ∀ e ∈ events, 5 ≤ e.1.length)
    (hids : (subIDs (rs ++ registrations (events.map Prod.snd))).Nodup) :
    ∃ σ', operatorRun events σ = .ok (σ', startedAll rs (events.map Prod.snd)) ∧
      Records (rs ++ registrations (events.map Prod.snd)) σ' := by
  induction events generalizing rs σ with
  | nil => exact ⟨σ, rfl, by simpa [registrations] using h⟩
  | cons e events ih =>
    obtain ⟨printed, event⟩ := e
    rw [List.map_cons, registrations_cons, ← List.append_assoc] at hids ⊢
    have hids₁ : (subIDs (rs ++ registrations [event])).Nodup := by
      rw [subIDs, List.flatMap_append] at hids
      exact (List.nodup_append.1 hids).1
    obtain ⟨σ₁, hstep, h₁⟩ := h.step (hprint (printed, event) List.mem_cons_self) hids₁
    obtain ⟨σ₂, hrun, h₂⟩ := ih h₁ (fun e he => hprint e (List.mem_cons_of_mem _ he)) hids
    refine ⟨σ₂, ?_, h₂⟩
    rw [operatorRun, hstep]
    show (do let x ← operatorRun events σ₁; pure (x.1, startedBy rs event ++ x.2)) = _
    rw [hrun]
    rfl

end Records

theorem records_start : Records [] .start where
  pre _ hr := nomatch hr
  others _ _ hget := by simp [OperatorState.start] at hget
  bundle _ hr := nomatch hr

/-- **What notifications start**, over every history of registrations and notifications that draws
no id twice: each notification of a first trigger starts the template that was registered last for
its task, and no other notification starts anything. -/
theorem operatorRun_eq (events : List (String × OperatorEvent))
    (hprint : ∀ e ∈ events, 5 ≤ e.1.length)
    (hids : (subIDs (registrations (events.map Prod.snd))).Nodup) :
    (operatorRun events .start).map Prod.snd = .ok (startedAll [] (events.map Prod.snd)) := by
  obtain ⟨σ, hrun, -⟩ := records_start.run hprint hids
  rw [hrun]
  rfl

/-- A task is registered again with another template. -/
def registeredTwice : List (String × OperatorEvent) :=
  [("Submitted batch job 43942\n",
      .register ⟨"id1", "id2", "ip:port", "sim", "sim.sh", "INIT", "", "SIMFINISH", ""⟩),
    ("Submitted batch job 43943\n",
      .register ⟨"id3", "id4", "ip:port", "sim", "sim2.sh", "RESTART", "", "NONE", ""⟩),
    ("Submitted batch job 43944\n", .notify "id2"),
    ("Submitted batch job 43945\n", .notify "id1")]

theorem operatorRun_registeredTwice :
    (operatorRun registeredTwice .start).map Prod.snd = .ok ["sim2.sh"] :=
  operatorRun_eq registeredTwice (by decide) (by decide)

end TPST
