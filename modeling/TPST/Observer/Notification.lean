import TPST.Foundations.Chains
import TPST.Observer.TaskManager

/-!
# Publishing an event

`notifyTmList` runs over the tasks of an event. `callNotify` starts the action of a task and then
publishes the event of the task, with `notifyTmList` again. A task that publishes `NULL` is passed
over, its action included.

The recursion is over fuel, and `Notifies` says that it comes to an end with enough of it. When the
tasks follow each other without a cycle, what is executed is the total of a cascade
(`exists_notifies`), so that

* `notifies_chains`: publishing an event comes to an end, and executes a task once for each chain
  of tasks that leads to it;
* `coversTasks_iff`: it executes all the tasks that wait for the events published exactly if none
  of them publishes `NULL`.
-/

namespace TPST

open EventStore Relation TaskStore

/-- Why publishing an event stops early. -/
inductive NotifyFault
  | fault (e : Fault)
  | outOfFuel
  deriving DecidableEq, Repr

/-- The actions that have been started, by their tasks. -/
abbrev ActionLog := List TaskManagerMeta

/-- `callNotify`, where `notify` is `notifyTmList`. Whether the thread of the action is joined first
makes no difference to what is started. -/
def callNotify (notify : String → ActionLog → Flow NotifyFault ActionLog) (tm : TaskManager)
    (te : String) (obs : Option Observer) (log : ActionLog) : Flow NotifyFault ActionLog :=
  match obs with
  | none => .fault (.fault .undefinedBehaviour) log
  | some obs =>
    if obs.actionfunc ≠ none then notify te (log ++ [tm.taskmeta]) else notify te log

/-- A round of the inner loop of `notifyTmList`. -/
def notifyTask (s : TaskStore) (notify : String → ActionLog → Flow NotifyFault ActionLog)
    (tmmeta : TaskManagerMeta) (log : ActionLog) : Flow NotifyFault ActionLog :=
  let tm := getTmfromES tmmeta.name s
  if tmmeta.publishEvent ≠ "NULL" then
    match tm with
    | none => .fault (.fault .undefinedBehaviour) log
    | some tm => callNotify notify tm tmmeta.publishEvent tm.observer log
  else .next log

/-- `notifyTmList`. -/
def notifyTmList (s : TaskStore) : ℕ → String → ActionLog → Flow NotifyFault ActionLog
  | 0, _, log => .fault .outOfFuel log
  | fuel + 1, te, log =>
    Flow.forEach (fun h log =>
      if te = h.te then Flow.forEach (notifyTask s (notifyTmList s fuel)) h.tmList log
      else .next log) s.es log

namespace TaskStore

/-- Publishing the event comes to an end, and these are the actions it has started. -/
def Notifies (s : TaskStore) (te : String) (log : ActionLog) : Prop :=
  ∃ n, ∀ fuel ≥ n, notifyTmList s fuel te [] = .next log

/-- The stores that `Task_create` and `Task_registerAction` build. -/
inductive Built : TaskStore → Prop
  | start : Built start
  | create {s : TaskStore} (tmname subevent pubevent : String) (taskType : TaskType) :
      Built s → Built (taskCreate tmname subevent pubevent taskType s)
  | registerAction {s : TaskStore} (tmname : String) (actionfun : Option String) :
      Built s → Built (taskRegisterAction tmname actionfun s)

/-- Each task has an action. -/
def HasActions (s : TaskStore) : Prop :=
  ∀ tmname tm, getTmfromES tmname s = some tm → ∃ f, tm.observer = some ⟨some f⟩

end TaskStore

namespace EventStore

/-- A task subscribes the event, other than `NULL`, that another one publishes. -/
def Follows (es : EventStore) (t u : TaskManagerMeta) : Prop :=
  t.publishEvent ≠ "NULL" ∧ InList es t.publishEvent u

/-- No task follows itself, directly or through others. -/
def Acyclic (es : EventStore) : Prop := ∀ t, ¬ TransGen (Follows es) t t

/-- The tasks that an event leads to. -/
def Reached (es : EventStore) (te : String) (t : TaskManagerMeta) : Prop :=
  ∃ r, InList es te r ∧ ReflTransGen (Follows es) r t

/-- The chains from an event to a task, through tasks that publish an event other than `NULL`. -/
def chainsTo (es : EventStore) (te : String) (t : TaskManagerMeta) :
    Set (List TaskManagerMeta) :=
  {c | (∃ r, c.head? = some r ∧ InList es te r) ∧ c.IsChain (Follows es) ∧
    (∀ a ∈ c, a.publishEvent ≠ "NULL") ∧ c.getLast? = some t}

/-- All tasks of the event have been executed, and all those of the events, other than `NULL`, that
an executed task publishes. -/
def CoversTasks (es : EventStore) (te : String) (log : ActionLog) : Prop :=
  (∀ t, InList es te t → t ∈ log) ∧ ∀ t ∈ log, ∀ u, Follows es t u → u ∈ log

/-- The tasks of an event. -/
def tasksOf (es : EventStore) (te : String) : List TaskManagerMeta :=
  es.flatMap fun h => if te = h.te then h.tmList else []

/-- Those of them that publish an event other than `NULL`. -/
def runnable (es : EventStore) (te : String) : List TaskManagerMeta :=
  (tasksOf es te).filter (·.publishEvent ≠ "NULL")

/-- What is executed next after a task. -/
def follow (es : EventStore) (t : TaskManagerMeta) : Multiset TaskManagerMeta :=
  if t.publishEvent = "NULL" then 0 else runnable es t.publishEvent

/-- Events that grow along the tasks have no cycle. -/
theorem acyclic_of_lt {es : EventStore} (f : String → ℕ)
    (h : ∀ head ∈ es, ∀ t ∈ head.tmList, f head.te < f t.publishEvent) : Acyclic es := by
  have hstep : ∀ t u, Follows es t u → f t.publishEvent < f u.publishEvent := by
    rintro t u ⟨-, head, hhead, hte, hu⟩
    exact hte ▸ h head hhead u hu
  have hlt : ∀ t u, TransGen (Follows es) t u → f t.publishEvent < f u.publishEvent := by
    intro t u htu
    induction htu with
    | single hfollows => exact hstep _ _ hfollows
    | tail _ hfollows ih => exact ih.trans (hstep _ _ hfollows)
  exact fun t ht => (hlt t t ht).false

section Tasks

variable {es : EventStore} {te : String} {t u : TaskManagerMeta}

/-- A task that is reached is in the store. -/
theorem Reached.inList (h : Reached es te t) : ∃ te', InList es te' t := by
  obtain ⟨r, hr, hreach⟩ := h
  rcases hreach.cases_tail with rfl | ⟨u, -, hu⟩
  · exact ⟨te, hr⟩
  · exact ⟨u.publishEvent, hu.2⟩

theorem mem_tasksOf : t ∈ tasksOf es te ↔ InList es te t := by
  simp only [tasksOf, List.mem_flatMap, InList]
  refine exists_congr fun h => and_congr_right fun _ => ?_
  by_cases hte : te = h.te
  · simp [hte]
  · simp [hte, Ne.symm hte]

theorem mem_runnable : t ∈ runnable es te ↔ InList es te t ∧ t.publishEvent ≠ "NULL" := by
  rw [runnable, List.mem_filter, mem_tasksOf, decide_eq_true_eq]

theorem mem_follow : u ∈ follow es t ↔ Follows es t u ∧ u.publishEvent ≠ "NULL" := by
  unfold follow Follows
  by_cases ht : t.publishEvent = "NULL"
  · simp [ht]
  · rw [if_neg ht, Multiset.mem_coe, mem_runnable, and_iff_right ht]

theorem nodup_tasksOf (hes : Distinct es) : (tasksOf es te).Nodup := by
  obtain ⟨hevents, hnames⟩ := hes
  induction es with
  | nil => exact List.nodup_nil
  | cons h es ih =>
    rw [List.map_cons, List.nodup_cons] at hevents
    have htail := ih hevents.2 fun h' hh' => hnames h' (List.mem_cons_of_mem h hh')
    rw [tasksOf, List.flatMap_cons]
    by_cases hte : te = h.te
    · have hnone : tasksOf es te = [] := by
        refine List.eq_nil_iff_forall_not_mem.2 fun t ht => ?_
        obtain ⟨h', hh', hte', -⟩ := mem_tasksOf.1 ht
        exact hevents.1 (hte ▸ hte' ▸ List.mem_map_of_mem hh')
      rw [tasksOf] at hnone
      rw [if_pos hte, hnone, List.append_nil]
      exact (hnames h List.mem_cons_self).of_map _
    · rw [if_neg hte]
      exact htail

theorem nodup_runnable (hes : Distinct es) : (runnable es te).Nodup := (nodup_tasksOf hes).filter _

theorem nodup_follow (hes : Distinct es) : (follow es t).Nodup := by
  unfold follow
  split
  · exact Multiset.nodup_zero
  · exact Multiset.coe_nodup.2 (nodup_runnable hes)

end Tasks

section Cascade

variable {es : EventStore} {te : String} {t : TaskManagerMeta}

/-- **Executed tasks as a cascade**: a task is followed by those it makes run. -/
noncomputable def cascade (es : EventStore) (h : Acyclic es) : Cascade TaskManagerMeta :=
  .ofAcyclic (follow es) (es.flatMap (·.tmList)).toFinset
    (fun t u hu => by
      obtain ⟨-, h', hh', -, hu'⟩ := (mem_follow.1 hu).1
      exact List.mem_toFinset.2 (List.mem_flatMap.2 ⟨h', hh', hu'⟩))
    fun t ht => h t (TransGen.mono (fun _ _ hu => (mem_follow.1 hu).1) t t ht)

@[simp] theorem react_cascade (h : Acyclic es) : (cascade es h).react = follow es := rfl

/-- A chain of tasks is a chain of the cascade. -/
theorem isChain_follow_iff {c : List TaskManagerMeta} :
    (c.IsChain (fun a b => b ∈ follow es a) ∧ ∀ a ∈ c.head?, a.publishEvent ≠ "NULL") ↔
      c.IsChain (Follows es) ∧ ∀ a ∈ c, a.publishEvent ≠ "NULL" := by
  induction c with
  | nil => simp
  | cons a c ih =>
    have hhead : ∀ b, b ∈ follow es a ↔ Follows es a b ∧ b.publishEvent ≠ "NULL" :=
      fun b => mem_follow
    simp only [List.isChain_cons, hhead, List.forall_mem_cons, List.head?_cons,
      Option.mem_some_iff, forall_eq']
    constructor
    · rintro ⟨⟨hfollow, hchain⟩, ha⟩
      obtain ⟨hchain', hall⟩ := ih.1 ⟨hchain, fun b hb => (hfollow b hb).2⟩
      exact ⟨⟨fun b hb => (hfollow b hb).1, hchain'⟩, ha, hall⟩
    · rintro ⟨⟨hfollow, hchain⟩, ha, hall⟩
      exact ⟨⟨fun b hb => ⟨hfollow b hb, hall b (List.mem_of_mem_head? hb)⟩,
        (ih.2 ⟨hchain, hall⟩).1⟩, ha⟩

theorem chainsTo_cascade (h : Acyclic es) :
    (cascade es h).chainsTo (runnable es te) t = chainsTo es te t := by
  ext c
  simp only [Cascade.chainsTo, chainsTo, react_cascade, Set.mem_ofPred_eq, Multiset.mem_coe,
    mem_runnable]
  constructor
  · rintro ⟨⟨r, ⟨hr, hr'⟩, hhead⟩, hchain, hlast⟩
    obtain ⟨hchain', hall⟩ := isChain_follow_iff.1 ⟨hchain, by simpa [hhead] using hr'⟩
    exact ⟨⟨r, hhead, hr⟩, hchain', hall, hlast⟩
  · rintro ⟨⟨r, hhead, hr⟩, hchain, hall, hlast⟩
    exact ⟨⟨r, ⟨hr, hall r (List.mem_of_mem_head? hhead)⟩, hhead⟩,
      (isChain_follow_iff.2 ⟨hchain, hall⟩).1, hlast⟩

end Cascade

end EventStore

namespace TaskStore

variable {s : TaskStore} {te : String} {t : TaskManagerMeta} {log : ActionLog} {fuel : ℕ}

theorem Built.consistent (h : Built s) : Consistent s := by
  induction h with
  | start => exact Consistent.start
  | create tmname subevent pubevent taskType _ ih => exact ih.create
  | registerAction tmname actionfun _ ih => exact ih.registerAction

/-- A task that is loaded has an action. -/
theorem HasActions.loadTask {taskName subscribeevent pushevent actionPath : String}
    {taskType : TaskType} (h : HasActions s) :
    HasActions (loadTask taskName subscribeevent pushevent taskType actionPath s) := by
  have hcreate : ∀ tmname tm, getTmfromES tmname
      (taskCreate taskName subscribeevent pushevent taskType s) = some tm →
        tm.observer = none ∧ taskName = tmname ∨ ∃ f, tm.observer = some ⟨some f⟩ := by
    intro tmname tm htm
    cases hold : getTmfromES taskName s with
    | some tm' =>
      rw [taskCreate_old hold] at htm
      exact .inr (h tmname tm htm)
    | none =>
      rw [getTmfromES_taskCreate hold] at htm
      split_ifs at htm with heq
      · exact .inl ⟨(Option.some.inj htm) ▸ rfl, heq⟩
      · exact .inr (h tmname tm htm)
  intro tmname tm htm
  rw [TPST.loadTask, getTmfromES_taskRegisterAction] at htm
  split_ifs at htm with heq
  · obtain ⟨tm', htm', rfl⟩ := Option.map_eq_some_iff.1 htm
    rcases hcreate tmname tm' htm' with ⟨hnone, -⟩ | ⟨f, hf⟩
    · exact ⟨actionPath, by simp [hnone]⟩
    · exact ⟨f, by simp [hf]⟩
  · exact (hcreate tmname tm htm).resolve_left fun h' => heq h'.2

theorem hasActions_start : HasActions start := fun tmname tm htm => by
  simp [start, getTmfromES] at htm

theorem Built.loadTask {taskName subscribeevent pushevent actionPath : String}
    {taskType : TaskType} (h : Built s) :
    Built (loadTask taskName subscribeevent pushevent taskType actionPath s) :=
  .registerAction _ _ (.create _ _ _ _ h)

/-- A task with an action is executed, unless it publishes `NULL`. -/
theorem notifyTask_eq {notify : String → ActionLog → Flow NotifyFault ActionLog}
    (hs : Consistent s) (hacts : HasActions s) (ht : InList s.es te t) :
    notifyTask s notify t log =
      if t.publishEvent ≠ "NULL" then notify t.publishEvent (log ++ [t]) else .next log := by
  obtain ⟨-, tm, htm, rfl⟩ := hs.listed te t ht
  obtain ⟨f, hobs⟩ := hacts _ tm htm
  simp only [notifyTask, htm, hobs, callNotify]
  rfl

/-- **One level of the recursion**: the tasks of the event that do not publish `NULL`, in their
order, each with what it publishes. -/
theorem notifyTmList_succ (hs : Consistent s) (hacts : HasActions s) :
    notifyTmList s (fuel + 1) te log =
      Flow.forEach (fun t log => notifyTmList s fuel t.publishEvent (log ++ [t])) (runnable s.es te)
        log := by
  have hheads : notifyTmList s (fuel + 1) te log =
      Flow.forEach (notifyTask s (notifyTmList s fuel)) (tasksOf s.es te) log := by
    rw [tasksOf, Flow.forEach_flatMap, notifyTmList]
    refine Flow.forEach_congr (fun h _ log => ?_) log
    split_ifs <;> rfl
  rw [hheads, runnable, Flow.forEach_filter]
  refine Flow.forEach_congr (fun t ht log => ?_) log
  rw [notifyTask_eq hs hacts (mem_tasksOf.1 ht)]
  simp only [decide_eq_true_eq]

/-- With fuel above its rank, a task is executed together with all it leads to. -/
def Executes (s : TaskStore) (C : Cascade TaskManagerMeta) (t : TaskManagerMeta) : Prop :=
  ∀ log : ActionLog, ∃ log' : ActionLog, (∀ fuel, C.rank t < fuel →
    notifyTmList s fuel t.publishEvent (log ++ [t]) = .next log') ∧
      (log' : Multiset TaskManagerMeta) = log + C.total t

/-- Tasks that are executed one after another. -/
theorem forEach_executes {C : Cascade TaskManagerMeta} {ts : List TaskManagerMeta}
    (hts : ∀ t ∈ ts, Executes s C t) (log : ActionLog) :
    ∃ log' : ActionLog, (∀ fuel, (∀ t ∈ ts, C.rank t < fuel) →
      Flow.forEach (fun t log => notifyTmList s fuel t.publishEvent (log ++ [t])) ts log =
        .next log') ∧
      (log' : Multiset TaskManagerMeta) = log + (ts : Multiset TaskManagerMeta).bind C.total := by
  induction ts generalizing log with
  | nil => exact ⟨log, fun _ _ => rfl, by simp⟩
  | cons t ts ih =>
    obtain ⟨log₁, hrun₁, hlog₁⟩ := hts t List.mem_cons_self log
    obtain ⟨log₂, hrun₂, hlog₂⟩ := ih (fun u hu => hts u (List.mem_cons_of_mem t hu)) log₁
    refine ⟨log₂, fun fuel hfuel => ?_, ?_⟩
    · rw [Flow.forEach_cons, hrun₁ fuel (hfuel t List.mem_cons_self), Flow.next_andThen]
      exact hrun₂ fuel fun u hu => hfuel u (List.mem_cons_of_mem t hu)
    · rw [hlog₂, hlog₁, ← Multiset.cons_coe, Multiset.cons_bind, add_assoc]

/-- **Each task is executed with all it leads to**, by induction on its rank. -/
theorem executes (hs : Consistent s) (hacts : HasActions s) (hacyclic : Acyclic s.es)
    (ht : t.publishEvent ≠ "NULL") : Executes s (cascade s.es hacyclic) t := by
  induction t using (cascade s.es hacyclic).induction with
  | h t ih =>
    intro log
    have hreact : (cascade s.es hacyclic).react t = runnable s.es t.publishEvent := if_neg ht
    have hts : ∀ u ∈ runnable s.es t.publishEvent, Executes s (cascade s.es hacyclic) u :=
      fun u hu => ih u (by rw [hreact]; exact Multiset.mem_coe.2 hu) (mem_runnable.1 hu).2
    obtain ⟨log', hrun, hlog⟩ := forEach_executes hts (log ++ [t])
    refine ⟨log', fun fuel hfuel => ?_, ?_⟩
    · obtain ⟨fuel, rfl⟩ := Nat.exists_eq_add_one_of_ne_zero (Nat.ne_zero_of_lt hfuel)
      rw [notifyTmList_succ hs hacts]
      refine hrun fuel fun u hu => ?_
      have hrank : (cascade s.es hacyclic).rank u < (cascade s.es hacyclic).rank t :=
        (cascade s.es hacyclic).rank_lt (by rw [hreact]; exact Multiset.mem_coe.2 hu)
      omega
    · rw [hlog, (cascade s.es hacyclic).total_eq, hreact, ← Multiset.coe_add, add_assoc]
      rfl

/-- **Publishing an event comes to an end, with the total of the tasks of the event executed.** -/
theorem exists_notifies (hs : Consistent s) (hacts : HasActions s) (hacyclic : Acyclic s.es)
    (te : String) : ∃ log, Notifies s te log ∧ (log : Multiset TaskManagerMeta) =
      (runnable s.es te : Multiset TaskManagerMeta).bind (cascade s.es hacyclic).total := by
  have hts : ∀ t ∈ runnable s.es te, Executes s (cascade s.es hacyclic) t := fun t ht =>
    executes hs hacts hacyclic (mem_runnable.1 ht).2
  obtain ⟨log, hrun, hlog⟩ := forEach_executes hts []
  refine ⟨log, ⟨(s.es.flatMap (·.tmList)).toFinset.card + 2, fun fuel hfuel => ?_⟩,
    hlog.trans (Multiset.zero_add _)⟩
  cases fuel with
  | zero => omega
  | succ fuel =>
    rw [notifyTmList_succ hs hacts]
    refine hrun fuel fun t _ => ?_
    have hrank : (cascade s.es hacyclic).rank t ≤ (s.es.flatMap (·.tmList)).toFinset.card :=
      Cascade.rank_ofAcyclic_le t
    omega

/-- What an event executes does not depend on the fuel. -/
theorem Notifies.unique {log log' : ActionLog} (h : Notifies s te log) (h' : Notifies s te log') :
    log = log' := by
  obtain ⟨n, hn⟩ := h
  obtain ⟨n', hn'⟩ := h'
  have heq := (hn (max n n') (le_max_left n n')).symm.trans (hn' (max n n') (le_max_right n n'))
  exact Flow.next.inj heq

/-- An executed task is reached through tasks that do not publish `NULL`, and is one. -/
theorem mem_executed (hacyclic : Acyclic s.es) :
    t ∈ (runnable s.es te : Multiset TaskManagerMeta).bind (cascade s.es hacyclic).total ↔
      ∃ r ∈ runnable s.es te, ReflTransGen (fun a b => b ∈ follow s.es a) r t := by
  simp only [Multiset.mem_bind, Multiset.mem_coe, Cascade.mem_total, react_cascade]

theorem publishEvent_executed {r : TaskManagerMeta} (hr : r ∈ runnable s.es te)
    (h : ReflTransGen (fun a b => b ∈ follow s.es a) r t) : t.publishEvent ≠ "NULL" := by
  rcases h.cases_tail with rfl | ⟨u, -, hu⟩
  · exact (mem_runnable.1 hr).2
  · exact (mem_follow.1 hu).2

end TaskStore

/-- **Event propagation** in a store without cycles comes to an end, and executes each task as often
as there are chains that lead to it. -/
theorem notifies_chains {s : TaskStore} (hbuilt : Built s) (hacts : HasActions s)
    (hacyclic : Acyclic s.es) (te : String) :
    ∃ log, Notifies s te log ∧ ∀ t : TaskManagerMeta, t.publishEvent ≠ "NULL" →
      (log.count t : ℕ∞) = (chainsTo s.es te t).encard := by
  have hs := hbuilt.consistent
  obtain ⟨log, hnotifies, hlog⟩ := exists_notifies hs hacts hacyclic te
  refine ⟨log, hnotifies, fun t _ => ?_⟩
  rw [← chainsTo_cascade hacyclic, ← Cascade.count_bind_total _
    (Multiset.coe_nodup.2 (nodup_runnable hs.distinct)) fun _ => nodup_follow hs.distinct,
    ← hlog, Multiset.coe_count]

/-- Two tasks, the second of which waits for the first. -/
theorem notifies_chains_two :
    ∃ log, Notifies (loadTask "t4" "T2_FINISH" "T4_FINISH" .blocked "t4_action.so"
        (loadTask "t2" "T1_FINISH" "T2_FINISH" .blocked "t2_action.so" start)) "T1_FINISH" log ∧
      ∀ t : TaskManagerMeta, t.publishEvent ≠ "NULL" →
        (log.count t : ℕ∞) = (chainsTo
          [⟨"T1_FINISH", [⟨"t2", "T1_FINISH", "T2_FINISH", .blocked⟩]⟩,
            ⟨"T2_FINISH", [⟨"t4", "T2_FINISH", "T4_FINISH", .blocked⟩]⟩] "T1_FINISH" t).encard :=
  notifies_chains Built.start.loadTask.loadTask hasActions_start.loadTask.loadTask
    (acyclic_of_lt (fun te => ["T1_FINISH", "T2_FINISH", "T4_FINISH"].idxOf te) (by decide))
    "T1_FINISH"

/-- **When an event runs all tasks**: those that wait for it and for the events that are published
on the way, exactly if no task that it reaches publishes `NULL`. -/
theorem coversTasks_iff {s : TaskStore} (hbuilt : Built s) (hacts : HasActions s)
    (hacyclic : Acyclic s.es) (te : String) :
    (∃ log, Notifies s te log ∧ CoversTasks s.es te log) ↔
      ∀ t, Reached s.es te t → t.publishEvent ≠ "NULL" := by
  obtain ⟨log, hnotifies, hlog⟩ := exists_notifies hbuilt.consistent hacts hacyclic te
  have hmem : ∀ t, t ∈ log ↔
      ∃ r ∈ runnable s.es te, ReflTransGen (fun a b => b ∈ follow s.es a) r t := fun t => by
    rw [← Multiset.mem_coe, hlog, mem_executed]
  constructor
  · rintro ⟨log', hnotifies', hroots, hnext⟩ t ⟨r, hr, hreach⟩
    obtain rfl := hnotifies.unique hnotifies'
    have ht : t ∈ log := by
      induction hreach with
      | refl => exact hroots r hr
      | tail _ hfollows ih => exact hnext _ ih _ hfollows
    obtain ⟨r', hr', hreach'⟩ := (hmem t).1 ht
    exact publishEvent_executed hr' hreach'
  · intro h
    refine ⟨log, hnotifies, fun t ht => ?_, fun t ht u hu => ?_⟩
    · exact (hmem t).2 ⟨t, mem_runnable.2 ⟨ht, h t ⟨t, ht, .refl⟩⟩, .refl⟩
    · obtain ⟨r, hr, hreach⟩ := (hmem t).1 ht
      have hreached : Reached s.es te u := ⟨r, (mem_runnable.1 hr).1,
        (ReflTransGen.mono (fun _ _ hab => (mem_follow.1 hab).1) r t hreach).tail hu⟩
      exact (hmem u).2 ⟨r, hr, hreach.tail (mem_follow.2 ⟨hu, h u hreached⟩)⟩

/-- The same two tasks. -/
theorem coversTasks_two :
    ∃ log, Notifies (loadTask "t4" "T2_FINISH" "T4_FINISH" .blocked "t4_action.so"
        (loadTask "t2" "T1_FINISH" "T2_FINISH" .blocked "t2_action.so" start)) "T1_FINISH" log ∧
      CoversTasks
        [⟨"T1_FINISH", [⟨"t2", "T1_FINISH", "T2_FINISH", .blocked⟩]⟩,
          ⟨"T2_FINISH", [⟨"t4", "T2_FINISH", "T4_FINISH", .blocked⟩]⟩] "T1_FINISH" log := by
  refine (coversTasks_iff Built.start.loadTask.loadTask hasActions_start.loadTask.loadTask
    (acyclic_of_lt (fun te => ["T1_FINISH", "T2_FINISH", "T4_FINISH"].idxOf te) (by decide))
    "T1_FINISH").2 fun t ht => ?_
  obtain ⟨-, h, hh, -, ht⟩ := ht.inList
  have hall : ∀ h ∈ (loadTask "t4" "T2_FINISH" "T4_FINISH" .blocked "t4_action.so"
      (loadTask "t2" "T1_FINISH" "T2_FINISH" .blocked "t2_action.so" start)).es,
        ∀ t ∈ h.tmList, t.publishEvent ≠ "NULL" := by decide
  exact hall h hh t ht

/-- A final task, which publishes `NULL`. -/
theorem coversTasks_fails :
    ¬ ∀ (s : TaskStore) (te : String), Built s → HasActions s → Acyclic s.es →
      ∃ log, Notifies s te log ∧ CoversTasks s.es te log := by
  intro hall
  have hacts : HasActions (loadTask "task6" "T5_ALERT" "NULL" .blocked "t6_action.so" start) :=
    hasActions_start.loadTask
  obtain ⟨log, ⟨n, hn⟩, hroots, -⟩ := hall
    (loadTask "task6" "T5_ALERT" "NULL" .blocked "t6_action.so" start) "T5_ALERT"
    Built.start.loadTask hacts
    (acyclic_of_lt (fun te => ["T5_ALERT", "NULL"].idxOf te) (by decide))
  have hnothing : log = [] := by
    have hrun := hn (n + 1) (Nat.le_succ n)
    rw [notifyTmList_succ Built.start.loadTask.consistent hacts] at hrun
    exact (Flow.next.inj hrun).symm
  have hmem := hroots ⟨"task6", "T5_ALERT", "NULL", .blocked⟩
    ⟨_, List.mem_cons_self, rfl, List.mem_cons_self⟩
  rw [hnothing] at hmem
  cases hmem

end TPST
