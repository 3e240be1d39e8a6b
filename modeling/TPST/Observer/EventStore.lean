import Mathlib.Data.List.Nodup
import TPST.Foundations.Flow
import TPST.Utils.Strings

/-!
# The event store

The event store is a list of head nodes, one for each event that is subscribed, with the tasks
that wait for it. `registerEvent` enters a task, and `deleteTmfromES` removes it: it erases from
the list it is running over, up to the length the list had before.

So an erased task that is not the last leaves the loop one index too far (`deleteLoop_eq`), and
`deletesSafely_iff` says that removing a task is safe for the last one of its list only. What is
removed is the task in any case (`state_deleteTmfromES`).
-/

namespace TPST

/-- Whether an event is published after the action of a task or when it starts. -/
inductive TaskType
  | blocked
  | unblocked
  deriving DecidableEq, Repr

/-- What is known of a task: `TaskManagerMeta`. -/
structure TaskManagerMeta where
  name : String
  subEvent : String
  publishEvent : String
  tasktype : TaskType
  deriving DecidableEq, Repr

/-- An event with the tasks that subscribe it. -/
structure HeadNode where
  te : String
  tmList : List TaskManagerMeta
  deriving DecidableEq, Repr

/-- The event store `es`. -/
abbrev EventStore := List HeadNode

/-- `registerEvent`. -/
def registerEvent (tmmeta : TaskManagerMeta) (te : String) : EventStore → EventStore
  | [] => [⟨te, [tmmeta]⟩]
  | h :: es =>
    if te = h.te then
      if tmmeta.name ∈ h.tmList.map (·.name) then h :: es
      else { h with tmList := h.tmList ++ [tmmeta] } :: es
    else h :: registerEvent tmmeta te es

/-- A round of the inner loop of `deleteTmfromES`: `erase` where the name is found. -/
def deleteStep (name : String) (j : ℕ) (tmList : List TaskManagerMeta) :
    Flow Fault (List TaskManagerMeta) :=
  match tmList[j]? with
  | none => .fault .undefinedBehaviour tmList
  | some tmmeta => if name = tmmeta.name then .next (tmList.eraseIdx j) else .next tmList

/-- The inner loop of `deleteTmfromES`. Its bound `tmlistCount` is the length at the start. -/
def deleteLoop (name : String) (tmList : List TaskManagerMeta) :
    Flow Fault (List TaskManagerMeta) :=
  let tmlistCount := tmList.length
  Flow.forEach (deleteStep name) (List.range tmlistCount) tmList

/-- `deleteTmfromES`, for the task manager with this `taskmeta`. -/
def deleteTmfromES (taskmeta : TaskManagerMeta) (es : EventStore) : Flow Fault EventStore :=
  Flow.modifyEach (fun h =>
    if taskmeta.subEvent = h.te then
      (deleteLoop taskmeta.name h.tmList).map fun tmList => { h with tmList := tmList }
    else .next h) es

namespace EventStore

/-- Event names are distinct, and so are the task names within each list. -/
structure Distinct (es : EventStore) : Prop where
  events : (es.map (·.te)).Nodup
  names : ∀ h ∈ es, (h.tmList.map (·.name)).Nodup

/-- The task is in the list of the event. -/
def InList (es : EventStore) (te : String) (taskmeta : TaskManagerMeta) : Prop :=
  ∃ h ∈ es, h.te = te ∧ taskmeta ∈ h.tmList

/-- The task is in the list of its event. -/
def Registered (es : EventStore) (taskmeta : TaskManagerMeta) : Prop :=
  InList es taskmeta.subEvent taskmeta

/-- The task is the last one in the list of its event. -/
def RegisteredLast (es : EventStore) (taskmeta : TaskManagerMeta) : Prop :=
  ∃ h ∈ es, h.te = taskmeta.subEvent ∧ h.tmList.getLast? = some taskmeta

/-- The store without one task, all other entries in place. -/
def eraseTask (taskmeta : TaskManagerMeta) (es : EventStore) : EventStore :=
  es.map fun h =>
    if taskmeta.subEvent = h.te then
      { h with tmList := h.tmList.filter (·.name ≠ taskmeta.name) }
    else h

end EventStore

open EventStore

section Register

variable {tmmeta taskmeta : TaskManagerMeta} {te te' : String} {es : EventStore} {h : HeadNode}

@[simp] theorem not_inList_nil : ¬ InList [] te taskmeta := by simp [InList]

@[simp] theorem inList_cons :
    InList (h :: es) te taskmeta ↔ (h.te = te ∧ taskmeta ∈ h.tmList) ∨ InList es te taskmeta := by
  simp [InList]

/-- A task with a new name is entered behind the others of its event. -/
theorem inList_registerEvent (hfresh : ∀ t, InList es te t → t.name ≠ tmmeta.name) :
    InList (registerEvent tmmeta te es) te' taskmeta ↔
      InList es te' taskmeta ∨ (te = te' ∧ taskmeta = tmmeta) := by
  induction es with
  | nil => simp [registerEvent]
  | cons h es ih =>
    unfold registerEvent
    by_cases hte : te = h.te
    · have hnew : tmmeta.name ∉ h.tmList.map (·.name) := fun hmem => by
        obtain ⟨t, ht, hname⟩ := List.mem_map.1 hmem
        exact hfresh t (inList_cons.2 (.inl ⟨hte.symm, ht⟩)) hname
      rw [if_pos hte, if_neg hnew, inList_cons, inList_cons, List.mem_append, List.mem_singleton,
        hte]
      tauto
    · rw [if_neg hte, inList_cons, inList_cons, ih fun t ht => hfresh t (inList_cons.2 (.inr ht)),
        or_assoc]

/-- The events after a registration: a new one is the last. -/
theorem events_registerEvent :
    (registerEvent tmmeta te es).map (·.te) =
      if te ∈ es.map (·.te) then es.map (·.te) else es.map (·.te) ++ [te] := by
  induction es with
  | nil => simp [registerEvent]
  | cons h es ih =>
    unfold registerEvent
    by_cases hte : te = h.te
    · have hmem : te ∈ (h :: es).map (·.te) := List.mem_cons.2 (.inl hte)
      rw [if_pos hte, if_pos hmem]
      split <;> rfl
    · have hmem : te ∈ (h :: es).map (·.te) ↔ te ∈ es.map (·.te) :=
        List.mem_cons.trans (or_iff_right hte)
      rw [if_neg hte, List.map_cons, ih]
      simp only [hmem]
      split <;> rfl

/-- A registration keeps the names within each list distinct. -/
theorem names_registerEvent (hnames : ∀ h ∈ es, (h.tmList.map (·.name)).Nodup) :
    ∀ h ∈ registerEvent tmmeta te es, (h.tmList.map (·.name)).Nodup := by
  induction es with
  | nil => simp [registerEvent]
  | cons h es ih =>
    obtain ⟨hhead, htail⟩ := List.forall_mem_cons.1 hnames
    unfold registerEvent
    split_ifs with hte hold
    · exact hnames
    · refine List.forall_mem_cons.2 ⟨?_, htail⟩
      rw [List.map_append, List.map_singleton]
      exact List.nodup_append_comm.1 (List.nodup_cons.2 ⟨hold, hhead⟩)
    · exact List.forall_mem_cons.2 ⟨hhead, ih htail⟩

/-- **A registration keeps a store distinct.** -/
theorem distinct_registerEvent (hes : Distinct es) : Distinct (registerEvent tmmeta te es) := by
  refine ⟨?_, names_registerEvent hes.names⟩
  rw [events_registerEvent]
  split_ifs with hmem
  · exact hes.events
  · exact List.nodup_append_comm.1 (List.nodup_cons.2 ⟨hmem, hes.events⟩)

end Register

section Delete

variable {name : String} {tmList pre post : List TaskManagerMeta}
  {tmmeta taskmeta : TaskManagerMeta} {es : EventStore}

/-- Rounds that meet other names. -/
theorem forEach_deleteStep_other {js : List ℕ}
    (hjs : ∀ j ∈ js, ∃ t, tmList[j]? = some t ∧ name ≠ t.name) :
    Flow.forEach (deleteStep name) js tmList = .next tmList := by
  induction js with
  | nil => rfl
  | cons j js ih =>
    obtain ⟨t, ht, hne⟩ := hjs j List.mem_cons_self
    have hround : deleteStep name j tmList = .next tmList := by simp [deleteStep, ht, hne]
    rw [Flow.forEach_cons, hround]
    exact ih fun j' hj' => hjs j' (List.mem_cons_of_mem j hj')

/-- Rounds over positions of a list that lacks the name. -/
theorem forEach_deleteStep_absent {js : List ℕ} (habsent : ∀ t ∈ tmList, name ≠ t.name)
    (hjs : ∀ j ∈ js, j < tmList.length) :
    Flow.forEach (deleteStep name) js tmList = .next tmList :=
  forEach_deleteStep_other fun j hj =>
    ⟨_, List.getElem?_eq_getElem (hjs j hj), habsent _ (List.getElem_mem (hjs j hj))⟩

/-- The rounds after the one that erased: the last of them leaves the list. -/
theorem forEach_deleteStep_behind (hpre : ∀ t ∈ pre, name ≠ t.name)
    (hpost : ∀ t ∈ post, name ≠ t.name) :
    Flow.forEach (deleteStep name) (List.range' (pre.length + 1) post.length) (pre ++ post) =
      if post = [] then .next pre else .fault .undefinedBehaviour (pre ++ post) := by
  have habsent : ∀ t ∈ pre ++ post, name ≠ t.name := fun t ht =>
    (List.mem_append.1 ht).elim (hpre t) (hpost t)
  cases hlen : post.length with
  | zero =>
    obtain rfl := List.length_eq_zero_iff.1 hlen
    simp
  | succ k =>
    have hne : post ≠ [] := fun h => by simp [h] at hlen
    have hinside : Flow.forEach (deleteStep name) (List.range' (pre.length + 1) k) (pre ++ post) =
        .next (pre ++ post) :=
      forEach_deleteStep_absent habsent fun j hj => by
        rw [List.mem_range'_1] at hj
        rw [List.length_append]
        omega
    have hpast : (pre ++ post)[pre.length + 1 + k]? = none := by
      rw [List.getElem?_eq_none_iff, List.length_append]
      omega
    rw [List.range'_1_concat, Flow.forEach_append, hinside, if_neg hne, Flow.next_andThen,
      Flow.forEach_cons, deleteStep, hpast]
    rfl

/-- **The inner loop erases the task, and then runs past the end unless it was the last.** -/
theorem deleteLoop_eq (hpre : ∀ t ∈ pre, tmmeta.name ≠ t.name)
    (hpost : ∀ t ∈ post, tmmeta.name ≠ t.name) :
    deleteLoop tmmeta.name (pre ++ tmmeta :: post) =
      if post = [] then .next pre else .fault .undefinedBehaviour (pre ++ post) := by
  have hrounds : List.range (pre ++ tmmeta :: post).length =
      List.range pre.length ++ pre.length :: List.range' (pre.length + 1) post.length := by
    have hsplit := @List.range'_append_1 0 pre.length (post.length + 1)
    rw [Nat.zero_add, List.range'_succ] at hsplit
    rw [List.length_append, List.length_cons, List.range_eq_range', List.range_eq_range', hsplit]
  have hbefore : Flow.forEach (deleteStep tmmeta.name) (List.range pre.length)
      (pre ++ tmmeta :: post) = .next (pre ++ tmmeta :: post) :=
    forEach_deleteStep_other fun j hj => by
      have hj := List.mem_range.1 hj
      refine ⟨pre[j], ?_, hpre _ (List.getElem_mem hj)⟩
      rw [List.getElem?_append_left hj, List.getElem?_eq_getElem hj]
  have herase :
      deleteStep tmmeta.name pre.length (pre ++ tmmeta :: post) = .next (pre ++ post) := by
    simp [deleteStep, List.eraseIdx_append_of_length_le]
  rw [deleteLoop, hrounds, Flow.forEach_append, hbefore, Flow.next_andThen, Flow.forEach_cons,
    herase, Flow.next_andThen, forEach_deleteStep_behind hpre hpost]

/-- A store whose events are distinct, at one of them. -/
theorem deleteTmfromES_append_cons {esPre esPost : EventStore} {h : HeadNode}
    (hte : h.te = taskmeta.subEvent) (hpre : ∀ h' ∈ esPre, taskmeta.subEvent ≠ h'.te)
    (hpost : ∀ h' ∈ esPost, taskmeta.subEvent ≠ h'.te) :
    deleteTmfromES taskmeta (esPre ++ h :: esPost) =
      (deleteLoop taskmeta.name h.tmList).map fun tmList =>
        esPre ++ { h with tmList := tmList } :: esPost := by
  rw [deleteTmfromES, Flow.modifyEach_append_cons h (fun h' hh' => if_neg (hpre h' hh'))
    (fun h' hh' => if_neg (hpost h' hh')), if_pos hte.symm, Flow.map_map]
  rfl

theorem eraseTask_append_cons {esPre esPost : EventStore} {h : HeadNode}
    (hte : h.te = taskmeta.subEvent) (hpre : ∀ h' ∈ esPre, taskmeta.subEvent ≠ h'.te)
    (hpost : ∀ h' ∈ esPost, taskmeta.subEvent ≠ h'.te) :
    eraseTask taskmeta (esPre ++ h :: esPost) =
      esPre ++ { h with tmList := h.tmList.filter (·.name ≠ taskmeta.name) } :: esPost := by
  have hsame : ∀ es' : EventStore, (∀ h' ∈ es', taskmeta.subEvent ≠ h'.te) →
      eraseTask taskmeta es' = es' := fun es' hes' =>
    (List.map_congr_left fun h' hh' => if_neg (hes' h' hh')).trans (List.map_id es')
  have hhead : eraseTask taskmeta (h :: esPost) =
      { h with tmList := h.tmList.filter (·.name ≠ taskmeta.name) } ::
        eraseTask taskmeta esPost := by
    rw [eraseTask, List.map_cons, if_pos hte.symm]
    rfl
  calc eraseTask taskmeta (esPre ++ h :: esPost)
      = eraseTask taskmeta esPre ++ eraseTask taskmeta (h :: esPost) := List.map_append
    _ = _ := by rw [hhead, hsame esPre hpre, hsame esPost hpost]

/-- What is left when a task is erased. -/
theorem inList_eraseTask {te : String} :
    InList (eraseTask taskmeta es) te tmmeta ↔
      InList es te tmmeta ∧ ¬ (te = taskmeta.subEvent ∧ tmmeta.name = taskmeta.name) := by
  induction es with
  | nil => simp [eraseTask]
  | cons h es ih =>
    have hcons : eraseTask taskmeta (h :: es) =
        (if taskmeta.subEvent = h.te then
          { h with tmList := h.tmList.filter (·.name ≠ taskmeta.name) }
        else h) :: eraseTask taskmeta es := rfl
    rw [hcons, inList_cons, inList_cons, ih, or_and_right]
    refine or_congr_left ?_
    by_cases hte : taskmeta.subEvent = h.te
    · rw [if_pos hte, List.mem_filter, decide_eq_true_eq, hte]
      constructor
      · rintro ⟨rfl, hmem, hname⟩
        exact ⟨⟨rfl, hmem⟩, fun h' => hname h'.2⟩
      · rintro ⟨⟨rfl, hmem⟩, hnot⟩
        exact ⟨rfl, hmem, fun hname => hnot ⟨rfl, hname⟩⟩
    · rw [if_neg hte]
      refine ⟨fun hmem => ⟨hmem, fun h' => hte (h'.1.symm.trans hmem.1.symm)⟩, And.left⟩

/-- The list of a task without it. -/
theorem filter_name_ne (hpre : ∀ t ∈ pre, tmmeta.name ≠ t.name)
    (hpost : ∀ t ∈ post, tmmeta.name ≠ t.name) :
    (pre ++ tmmeta :: post).filter (·.name ≠ tmmeta.name) = pre ++ post := by
  rw [List.filter_append, List.filter_cons_of_neg (by simp),
    List.filter_eq_self.2 fun t ht => by simpa using (hpre t ht).symm,
    List.filter_eq_self.2 fun t ht => by simpa using (hpost t ht).symm]

/-- A list whose keys are distinct, at one of its elements. -/
theorem exists_split_of_nodup_map {α β : Type*} {f : α → β} {l : List α} {a : α}
    (hl : (l.map f).Nodup) (ha : a ∈ l) :
    ∃ pre post, l = pre ++ a :: post ∧ (∀ b ∈ pre, f a ≠ f b) ∧ ∀ b ∈ post, f a ≠ f b := by
  obtain ⟨pre, post, rfl⟩ := List.append_of_mem ha
  rw [List.map_append, List.map_cons, List.perm_middle.nodup_iff, List.nodup_cons, List.mem_append,
    not_or] at hl
  exact ⟨pre, post, rfl, fun b hb heq => hl.1.1 (heq ▸ List.mem_map_of_mem hb),
    fun b hb heq => hl.1.2 (heq ▸ List.mem_map_of_mem hb)⟩

/-- Being the last of its list, for a task of a store with distinct names. -/
theorem registeredLast_append_cons {esPre esPost : EventStore} {h : HeadNode}
    (hte : h.te = taskmeta.subEvent) (hesPre : ∀ h' ∈ esPre, taskmeta.subEvent ≠ h'.te)
    (hesPost : ∀ h' ∈ esPost, taskmeta.subEvent ≠ h'.te)
    (hlist : h.tmList = pre ++ taskmeta :: post)
    (hpost : ∀ t ∈ post, taskmeta.name ≠ t.name) :
    RegisteredLast (esPre ++ h :: esPost) taskmeta ↔ post = [] := by
  constructor
  · rintro ⟨h', hh', hte', hlast⟩
    obtain rfl : h' = h := by
      rcases List.mem_append.1 hh' with hh' | hh'
      · exact absurd hte'.symm (hesPre h' hh')
      · exact (List.mem_cons.1 hh').resolve_right fun hh' => hesPost h' hh' hte'.symm
    cases post with
    | nil => rfl
    | cons t post =>
      have hlast' : (t :: post).getLast? = some taskmeta := by
        rw [← hlast, hlist, List.getLast?_append_cons, List.getLast?_cons_cons]
      exact absurd rfl (hpost taskmeta (List.mem_of_getLast? hlast'))
  · rintro rfl
    exact ⟨h, by simp, hte, by simp [hlist]⟩

/-- **Removing a registered task**: it is erased, and the loop stays inside the list exactly for
the last task of the list. -/
theorem deleteTmfromES_eq (hes : Distinct es) (hreg : Registered es taskmeta) :
    (RegisteredLast es taskmeta → deleteTmfromES taskmeta es = .next (eraseTask taskmeta es)) ∧
    (¬ RegisteredLast es taskmeta →
      deleteTmfromES taskmeta es = .fault .undefinedBehaviour (eraseTask taskmeta es)) := by
  obtain ⟨h, hh, hte, hmem⟩ := hreg
  obtain ⟨pre, post, hlist, hpre, hpost⟩ := exists_split_of_nodup_map (hes.names h hh) hmem
  obtain ⟨esPre, esPost, rfl, hesPre, hesPost⟩ := exists_split_of_nodup_map hes.events hh
  rw [hte] at hesPre hesPost
  rw [registeredLast_append_cons hte hesPre hesPost hlist hpost,
    eraseTask_append_cons hte hesPre hesPost, deleteTmfromES_append_cons hte hesPre hesPost, hlist,
    filter_name_ne hpre hpost, deleteLoop_eq hpre hpost]
  constructor
  · rintro rfl
    rw [if_pos rfl, Flow.map_next, List.append_nil]
  · intro hne
    rw [if_neg hne, Flow.map_fault]

/-- Whatever the loop reads, it erases the task and nothing else. -/
theorem state_deleteTmfromES (hes : Distinct es) (hreg : Registered es taskmeta) :
    (deleteTmfromES taskmeta es).state = eraseTask taskmeta es := by
  by_cases hlast : RegisteredLast es taskmeta
  · rw [(deleteTmfromES_eq hes hreg).1 hlast, Flow.state_next]
  · rw [(deleteTmfromES_eq hes hreg).2 hlast, Flow.state_fault]

end Delete

/-- **When a task is removed safely**: without an index past the end, and with all other entries
kept in their order, exactly if it is the last one in the list of its event. -/
theorem deletesSafely_iff {es : EventStore} {taskmeta : TaskManagerMeta} (hes : Distinct es)
    (hreg : Registered es taskmeta) :
    deleteTmfromES taskmeta es = .next (eraseTask taskmeta es) ↔ RegisteredLast es taskmeta := by
  obtain ⟨hlast, hother⟩ := deleteTmfromES_eq hes hreg
  refine ⟨fun h => ?_, hlast⟩
  by_contra hnot
  rw [hother hnot] at h
  cases h

/-- The only task of its event. -/
theorem deletesSafely_one :
    deleteTmfromES ⟨"t2", "T1_FINISH", "T2_FINISH", .blocked⟩
        [⟨"T1_FINISH", [⟨"t2", "T1_FINISH", "T2_FINISH", .blocked⟩]⟩] =
      .next [⟨"T1_FINISH", []⟩] :=
  (deletesSafely_iff ⟨by decide, by decide⟩ ⟨_, List.mem_cons_self, rfl, List.mem_cons_self⟩).2
    ⟨_, List.mem_cons_self, rfl, rfl⟩

/-- The first of two tasks that wait for an event. -/
theorem deletesSafely_fails :
    ¬ ∀ (es : EventStore) (taskmeta : TaskManagerMeta), Distinct es → Registered es taskmeta →
      deleteTmfromES taskmeta es = .next (eraseTask taskmeta es) := by
  intro hall
  have hdeleted := hall
    [⟨"T1_FINISH", [⟨"t2", "T1_FINISH", "T2_FINISH", .blocked⟩,
      ⟨"t3", "T1_FINISH", "T3_FINISH", .blocked⟩]⟩]
    ⟨"t2", "T1_FINISH", "T2_FINISH", .blocked⟩ ⟨by decide, by decide⟩
    ⟨_, List.mem_cons_self, rfl, List.mem_cons_self⟩
  exact absurd hdeleted (by decide)

end TPST
