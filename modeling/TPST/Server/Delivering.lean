import TPST.Server.Moving
import TPST.Server.Removing
import TPST.Server.Triggers

/-!
# From a publish to the task it starts

A client that a publish matches is marked in its wrapper. The handler of the publish enqueues a
`checkNotify` task for every client of the index events it notifies; a task that finds the mark
clears it and pushes a `NotifyInfo`; and `getElementFromNotifyQ` starts a task for each element of
`notifyQueue`.

This is a model of any number of handlers and `checkNotify` tasks and of the one consumer, under any
interleaving of their atomic steps. The mark is written under the lock of the maps and tested and
cleared under the `pswmtx` of the wrapper, and the queue is read without its lock.

A handler and a task that run alone do what `publish` and `runTask` do (`publish_alone`,
`checkNotify_alone`).
-/

namespace TPST

open Std Schedule

namespace Delivering

/-- Where a `Publish` handler is. -/
inductive Handler
  /-- In `pubsubPublish`. -/
  | walk (walk : Walk Place)
  /-- Looking up `eventStr`, the last event of the list, in `getIndexMap`. -/
  | lookup
  /-- Copying the index set of `eventStr`. -/
  | registered (eventStr : String)
  /-- Copying the row of the next index event, in `startNotify`. -/
  | startNotify (indexEventSet : List String)
  /-- Enqueuing a task for the next client of the row. -/
  | enqueue (subscribedMap : List (String × Option Place)) (indexEventSet : List String)
  | done
  deriving DecidableEq, Repr

/-- What a `checkNotify` task has read of its wrapper at its beginning. -/
structure Locals where
  psw : Place
  clientidstr : String
  peerURL : String
  deriving DecidableEq, Repr

/-- Where a `checkNotify` task is. -/
inductive Task
  /-- In the thread pool. -/
  | queued (psw : Option Place)
  /-- Taking `pswmtx`. -/
  | lock (l : Locals)
  /-- Testing `iftrigure`. -/
  | test (l : Locals)
  /-- Clearing `iftrigure`. -/
  | clear (l : Locals)
  /-- Releasing `pswmtx`, to return or to go on. -/
  | unlock (l : Locals) (triggered : Bool)
  /-- Filling in the `NotifyInfo`. -/
  | inform (l : Locals)
  /-- Pushing it, under `nqmutex`. -/
  | push (l : Locals) (ninfo : NotifyInfo)
  /-- Deleting the counters of a `NAME` subscription. -/
  | delete (l : Locals)
  | done
  /-- A null pointer or the pointer to a deleted wrapper was followed. -/
  | crashed
  deriving DecidableEq, Repr

/-- Where `getElementFromNotifyQ` is, with the rounds its loop has left. -/
inductive Consumer
  /-- Reading the size of the queue. -/
  | poll
  /-- Testing whether the queue has an element. -/
  | round (rounds : ℕ)
  /-- Reading the first element. -/
  | front (rounds : ℕ)
  /-- Starting a thread for it. -/
  | start (ninfo : NotifyInfo) (rounds : ℕ)
  /-- Taking it from the queue, under `nqmutex`. -/
  | pop (rounds : ℕ)
  /-- The first element of an empty queue was read. -/
  | crashed
  deriving DecidableEq, Repr

/-- What the threads share, the threads, and the history. -/
structure State where
  shared : Shared Place
  handlers : List (PublishCall × Handler)
  tasks : List Task
  /-- Whether the `pswmtx` of a wrapper is held. -/
  pswmtx : Place → Bool
  notifyQueue : List NotifyInfo
  consumer : Consumer
  /-- The clients that publishes found triggered, by their places. -/
  found : List Place
  pushed : List (Place × NotifyInfo)
  started : List NotifyInfo

/-- What happens next: a handler, a task or the consumer takes its next step. -/
inductive Event
  | publish (i : ℕ)
  | checkNotify (k : ℕ)
  | consume
  deriving DecidableEq, Repr

/-- The next step of the handler `i`. -/
def publishStep (i : ℕ) (call : PublishCall) (handler : Handler) (σ : State) : State :=
  let goto (handler : Handler) : List (PublishCall × Handler) := σ.handlers.set i (call, handler)
  match handler with
  | .walk .done => { σ with handlers := goto .lookup }
  | .walk walk =>
    let next := walkStep (requestMatchType call.matchType) call.metadata false (walk, σ.shared)
    { σ with
      shared := next.2
      handlers := goto (.walk next.1)
      found := σ.found ++ next.1.marks.toList }
  | .lookup =>
    match call.eventList.getLast? with
    | none => { σ with handlers := goto .done }
    | some eventStr =>
      { σ with
        handlers := goto (if eventStr ∈ σ.shared.getIndexMap then .registered eventStr else .done) }
  | .registered eventStr =>
    { σ with handlers := goto (.startNotify (σ.shared.indexEvents eventStr)) }
  | .startNotify [] => { σ with handlers := goto .done }
  | .startNotify (indexEvent :: indexEventSet) =>
    { σ with
      shared := { σ.shared with subtoClient := OMap.openRow σ.shared.subtoClient indexEvent }
      handlers := goto (.enqueue (OMap.rowEntries σ.shared.subtoClient indexEvent) indexEventSet) }
  | .enqueue [] indexEventSet => { σ with handlers := goto (.startNotify indexEventSet) }
  | .enqueue ((_, psw) :: subscribedMap) indexEventSet =>
    { σ with
      handlers := goto (.enqueue subscribedMap indexEventSet)
      tasks := σ.tasks ++ [.queued psw] }
  | .done => σ

/-- The next step of the task `k`. -/
def checkNotifyStep (k : ℕ) (task : Task) (σ : State) : State :=
  let goto : Task → List Task := σ.tasks.set k
  let crash : State := { σ with tasks := goto .crashed }
  match task with
  | .queued none => crash
  | .queued (some p) =>
    match σ.shared.heap p with
    | none => crash
    | some psw => { σ with tasks := goto (.lock ⟨p, psw.clientID, psw.peerURL⟩) }
  | .lock l =>
    if σ.pswmtx l.psw then σ
    else { σ with tasks := goto (.test l), pswmtx := Function.update σ.pswmtx l.psw true }
  | .test l =>
    match σ.shared.heap l.psw with
    | none => crash
    | some psw => { σ with tasks := goto (if psw.iftrigure then .clear l else .unlock l false) }
  | .clear l =>
    { σ with
      shared := σ.shared.modify l.psw fun psw => { psw with iftrigure := false }
      tasks := goto (.unlock l true) }
  | .unlock l triggered =>
    { σ with
      tasks := goto (if triggered then .inform l else .done)
      pswmtx := Function.update σ.pswmtx l.psw false }
  | .inform l =>
    match σ.shared.heap l.psw with
    | none => crash
    | some psw =>
      { σ with tasks := goto (.push l ⟨l.peerURL, psw.pubMetadata, l.clientidstr⟩) }
  | .push l ninfo =>
    { σ with
      tasks := goto (.delete l)
      notifyQueue := σ.notifyQueue ++ [ninfo]
      pushed := σ.pushed ++ [(l.psw, ninfo)] }
  | .delete l =>
    { σ with
      shared := σ.shared.modify l.psw fun psw =>
        if psw.matchType = "NAME" then deletePubEvent psw else psw
      tasks := goto .done }
  | .done => σ
  | .crashed => σ

/-- The next step of the consumer. The size of the queue is read as an `int`. The thread that it
starts runs `startTask`, which is not a step here: it writes to a buffer of its own, and metadata
that is too long for this ends the process (`startTask_of_le`). -/
def consumeStep (σ : State) : State :=
  match σ.consumer with
  | .poll =>
    let size : Int := (σ.notifyQueue.length : Int).bmod (2 ^ 32)
    { σ with
      consumer := if 0 < size then .round (if size < 512 then size.toNat else 512) else .poll }
  | .round 0 => { σ with consumer := .poll }
  | .round (rounds + 1) =>
    { σ with consumer := if σ.notifyQueue = [] then .poll else .front rounds }
  | .front rounds =>
    match σ.notifyQueue with
    | [] => { σ with consumer := .crashed }
    | ninfo :: _ => { σ with consumer := .start ninfo rounds }
  | .start ninfo rounds =>
    { σ with consumer := .pop rounds, started := σ.started ++ [ninfo] }
  | .pop rounds => { σ with consumer := .round rounds, notifyQueue := σ.notifyQueue.tail }
  | .crashed => σ

/-- One step. -/
def step (event : Event) (σ : State) : State :=
  match event with
  | .publish i =>
    match σ.handlers[i]? with
    | none => σ
    | some (call, handler) => publishStep i call handler σ
  | .checkNotify k =>
    match σ.tasks[k]? with
    | none => σ
    | some task => checkNotifyStep k task σ
  | .consume => consumeStep σ

/-- The handlers at their beginning, on a store. -/
def start (calls : List PublishCall) (s : Store) : State where
  shared := .ofStore s
  handlers := calls.map fun call => (call, .walk (.events call.eventList))
  tasks := []
  pswmtx _ := false
  notifyQueue := []
  consumer := .poll
  found := []
  pushed := []
  started := []

/-! ## A handler and a task alone -/

section Alone

/-- The state with the handler `i` elsewhere, and what a handler changes. -/
def State.handling (σ : State) (i : ℕ) (call : PublishCall) (handler : Handler) (m : Shared Place)
    (tasks : List Task) (found : List Place) : State :=
  { σ with
    shared := m
    handlers := σ.handlers.set i (call, handler)
    tasks := tasks
    found := found }

/-- A thread takes some steps. -/
abbrev Moves : Event → State → State → Prop := Alone step

variable {σ : State} {i : ℕ} {call : PublishCall} {m m' : Shared Place} {tasks : List Task}
  {found : List Place}

theorem step_handling (hi : i < σ.handlers.length) (handler : Handler) :
    step (.publish i) (σ.handling i call handler m tasks found) =
      publishStep i call handler (σ.handling i call handler m tasks found) := by
  simp [step, State.handling, hi]

theorem publishStep_walk {walk : Walk Place} (hwalk : walk ≠ .done) (σ : State) :
    publishStep i call (.walk walk) σ =
      let next := walkStep (requestMatchType call.matchType) call.metadata false (walk, σ.shared)
      { σ with
        shared := next.2
        handlers := σ.handlers.set i (call, .walk next.1)
        found := σ.found ++ next.1.marks.toList } := by
  cases walk with
  | done => exact absurd rfl hwalk
  | _ => rfl

/-- The steps of a walk are steps of its handler. -/
theorem moves_walk (hi : i < σ.handlers.length) {walk walk' : Walk Place}
    (h : Walks (requestMatchType call.matchType) call.metadata (walk, m) (walk', m')) :
    ∃ found', Moves (.publish i) (σ.handling i call (.walk walk) m tasks found)
      (σ.handling i call (.walk walk') m' tasks found') := by
  obtain ⟨n, hn⟩ := h
  induction n generalizing walk m found with
  | zero =>
    obtain ⟨rfl, rfl⟩ := Prod.mk.inj hn
    exact ⟨found, .refl _ _⟩
  | succ n ih =>
    rw [List.replicate_succ, Schedule.run_cons] at hn
    by_cases hwalk : walk = .done
    · subst hwalk
      exact ih hn
    · cases hnext : walkStep (requestMatchType call.matchType) call.metadata false (walk, m) with
      | mk walk₁ m₁ =>
        rw [hnext] at hn
        have hstep : step (.publish i) (σ.handling i call (.walk walk) m tasks found) =
            σ.handling i call (.walk walk₁) m₁ tasks (found ++ walk₁.marks.toList) := by
          rw [step_handling hi, publishStep_walk hwalk]
          simp only [State.handling, hnext, List.set_set]
        obtain ⟨found', hrest⟩ := @ih m₁ (found ++ walk₁.marks.toList) walk₁ hn
        exact ⟨found', hrest.head hstep⟩

theorem moves_enqueue (hi : i < σ.handlers.length) (ix : String) (cs ixs : List String) :
    Moves (.publish i)
      (σ.handling i call (.enqueue (cs.map fun c => (c, some (ix, c))) ixs) m tasks found)
      (σ.handling i call (.startNotify ixs) m
        (tasks ++ cs.map fun c => .queued (some (ix, c))) found) := by
  induction cs generalizing tasks with
  | nil =>
    refine Alone.head ?_ (.refl _ _)
    rw [step_handling hi]
    simp [publishStep, State.handling]
  | cons c cs ih =>
    have hstep : step (.publish i) (σ.handling i call
        (.enqueue ((c, some (ix, c)) :: cs.map fun c => (c, some (ix, c))) ixs) m tasks found) =
          σ.handling i call (.enqueue (cs.map fun c => (c, some (ix, c))) ixs) m
            (tasks ++ [.queued (some (ix, c))]) found := by
      rw [step_handling hi]
      simp [publishStep, State.handling]
    have hrest := @ih (tasks ++ [.queued (some (ix, c))])
    rw [List.append_assoc] at hrest
    exact hrest.head hstep

theorem openRow_ofStore (ix : String) (s : Store) :
    { Shared.ofStore s with
      subtoClient := OMap.openRow (Shared.ofStore s).subtoClient ix } =
      Shared.ofStore (startNotify ix s).1 := by
  ext1
  · rfl
  · refine OMap.ext_cell (fun ix' => ?_) fun ix' c => ?_
    · rw [OMap.mem_openRow]
      refine Iff.trans ?_ ExtTreeMap.mem_map.symm
      exact (or_congr_right ExtTreeMap.mem_map).trans mem_startNotify.symm
    · rw [OMap.cell_openRow, cell_ofStore, cell_ofStore, wrapper?_startNotify]
  · funext p
    exact (wrapper?_startNotify ix p.1 p.2 s).symm

/-- `startNotify` for the index events that are left. -/
theorem moves_startNotify (hi : i < σ.handlers.length) (ixs : List String) (s : Store) :
    Moves (.publish i) (σ.handling i call (.startNotify ixs) (.ofStore s) tasks found)
      (σ.handling i call .done (.ofStore (startNotifies ixs s).1)
        (tasks ++ (startNotifies ixs s).2.map fun p => .queued (some p)) found) := by
  induction ixs generalizing s tasks with
  | nil =>
    refine Alone.head ?_ (.refl _ _)
    rw [step_handling hi]
    simp [publishStep, State.handling, startNotifies]
  | cons ix ixs ih =>
    have hstep : step (.publish i)
        (σ.handling i call (.startNotify (ix :: ixs)) (.ofStore s) tasks found) =
          σ.handling i call (.enqueue ((s.clients ix).map fun c => (c, some (ix, c))) ixs)
            (.ofStore (startNotify ix s).1) tasks found := by
      rw [step_handling hi, ← openRow_ofStore, ← rowEntries_ofStore]
      simp [publishStep, State.handling]
    have hrow := @moves_enqueue σ i call (.ofStore (startNotify ix s).1) tasks found hi ix
      (s.clients ix) ixs
    have hrest := hrow.trans (ih (startNotify ix s).1)
    rw [List.append_assoc] at hrest
    simpa [startNotifies, startNotify, Function.comp_def] using hrest.head hstep

/-- The handler behind `pubsubPublish`. -/
theorem moves_lookup (hi : i < σ.handlers.length) (s : Store) :
    Moves (.publish i) (σ.handling i call .lookup (.ofStore s) tasks found)
      (σ.handling i call .done
        (.ofStore (startNotifies (notifiedIndexEvents call.eventList s) s).1)
        (tasks ++ (startNotifies (notifiedIndexEvents call.eventList s) s).2.map fun p =>
          .queued (some p)) found) := by
  cases hlast : call.eventList.getLast? with
  | none =>
    have hnone : notifiedIndexEvents call.eventList s = [] := by rw [notifiedIndexEvents, hlast]
    rw [hnone]
    refine Alone.head ?_ (.refl _ _)
    rw [step_handling hi]
    simp [publishStep, State.handling, hlast, startNotifies]
  | some eventStr =>
    have hsome : notifiedIndexEvents call.eventList s = s.indexEvents eventStr := by
      rw [notifiedIndexEvents, hlast]
    rw [hsome]
    by_cases hevent : eventStr ∈ (Shared.ofStore s).getIndexMap
    · have hfound : step (.publish i) (σ.handling i call .lookup (.ofStore s) tasks found) =
          σ.handling i call (.registered eventStr) (.ofStore s) tasks found := by
        rw [step_handling hi]
        simp [publishStep, State.handling, hlast, hevent]
      have hcopy : step (.publish i)
          (σ.handling i call (.registered eventStr) (.ofStore s) tasks found) =
            σ.handling i call (.startNotify (s.indexEvents eventStr)) (.ofStore s) tasks found := by
        rw [step_handling hi]
        simp only [publishStep, State.handling, List.set_set]
        rfl
      exact Alone.head hfound (Alone.head hcopy (moves_startNotify hi _ s))
    · -- an event that is not registered has no index events
      have hnone : s.indexEvents eventStr = [] := by
        simp [Store.indexEvents, show s.getIndexMap[eventStr]? = none from
          ExtTreeMap.getElem?_eq_none hevent]
      rw [hnone]
      refine Alone.head ?_ (.refl _ _)
      rw [step_handling hi]
      simp [publishStep, State.handling, hlast, hevent, startNotifies]

/-- **A handler that runs alone** leaves the maps, the wrappers and the tasks of `publish`. -/
theorem publish_alone (hi : i < σ.handlers.length) (s : Store) :
    ∃ handler found', Moves (.publish i)
      (σ.handling i call (.walk (.events call.eventList)) (.ofStore s) tasks found)
      (σ.handling i call handler
        (.ofStore (publish call.eventList call.matchType call.metadata s).1)
        (tasks ++ (publish call.eventList call.matchType call.metadata s).2.map fun p =>
          .queued (some p)) found') := by
  have hwalk :=
    walk_alone .places (requestMatchType call.matchType) call.metadata call.eventList s
  have hnotify : ∀ s' : Store, Walks (requestMatchType call.matchType) call.metadata
      (.events call.eventList, Shared.ofStore s) (.done, Shared.ofStore s') →
      ∃ handler found', Moves (.publish i)
        (σ.handling i call (.walk (.events call.eventList)) (.ofStore s) tasks found)
        (σ.handling i call handler
          (.ofStore (startNotifies (notifiedIndexEvents call.eventList s') s').1)
          (tasks ++ (startNotifies (notifiedIndexEvents call.eventList s') s').2.map fun p =>
            .queued (some p)) found') := by
    intro s' hs'
    obtain ⟨found', hdone⟩ := @moves_walk σ i call (.ofStore s) (.ofStore s') tasks found hi _ _ hs'
    have hstep : step (.publish i)
        (σ.handling i call (.walk .done) (.ofStore s') tasks found') =
          σ.handling i call .lookup (.ofStore s') tasks found' := by
      rw [step_handling hi]
      simp [publishStep, State.handling]
    exact ⟨.done, found', hdone.trans ((moves_lookup hi s').head hstep)⟩
  unfold publish
  cases hr : pubsubPublish call.eventList (requestMatchType call.matchType) call.metadata s with
  | next s' =>
    rw [hr] at hwalk
    exact hnotify s' hwalk
  | ret s' =>
    rw [hr] at hwalk
    exact hnotify s' hwalk
  | fault e s' =>
    rw [hr] at hwalk
    obtain ⟨found', hraised⟩ :=
      @moves_walk σ i call (.ofStore s) (.ofStore s') tasks found hi _ _ hwalk
    refine ⟨.walk .raised, found', ?_⟩
    simpa using hraised

/-- The state with the task `k` elsewhere, holding the `pswmtx` of the wrapper at `p`. -/
def State.holding (σ : State) (k : ℕ) (p : Place) (task : Task) : State :=
  { σ with tasks := σ.tasks.set k task, pswmtx := Function.update σ.pswmtx p true }

section Task

variable {k : ℕ} {p : Place} {w : PubsubWrapper}

theorem release_pswmtx (hfree : σ.pswmtx p = false) :
    Function.update (Function.update σ.pswmtx p true) p false = σ.pswmtx := by
  rw [Function.update_idem, ← hfree, Function.update_eq_self]

/-- From the beginning of a task to the test. -/
theorem moves_test (hk : σ.tasks[k]? = some (.queued (some p))) (hheap : σ.shared.heap p = some w)
    (hfree : σ.pswmtx p = false) :
    Moves (.checkNotify k) σ (σ.holding k p (.test ⟨p, w.clientID, w.peerURL⟩)) := by
  have hlt : k < σ.tasks.length := (List.getElem?_eq_some_iff.1 hk).1
  have hread : step (.checkNotify k) σ =
      { σ with tasks := σ.tasks.set k (.lock ⟨p, w.clientID, w.peerURL⟩) } := by
    simp [step, hk, checkNotifyStep, hheap]
  refine Alone.head hread (Alone.head ?_ (.refl _ _))
  simp [step, hlt, checkNotifyStep, hfree, State.holding]

/-- From the clearing of the mark to the end of the task. -/
theorem moves_clear (hlt : k < σ.tasks.length) (hheap : σ.shared.heap p = some w)
    (hfree : σ.pswmtx p = false) (l : Locals) (hl : l.psw = p) :
    Moves (.checkNotify k) (σ.holding k p (.clear l))
      { σ with
        shared := σ.shared.modify p fun psw =>
          if psw.matchType = "NAME" then deletePubEvent { psw with iftrigure := false }
          else { psw with iftrigure := false }
        tasks := σ.tasks.set k .done
        notifyQueue := σ.notifyQueue ++ [⟨l.peerURL, w.pubMetadata, l.clientidstr⟩]
        pushed := σ.pushed ++ [(p, ⟨l.peerURL, w.pubMetadata, l.clientidstr⟩)] } := by
  subst hl
  let cleared : Shared Place := σ.shared.modify l.psw fun psw => { psw with iftrigure := false }
  let ninfo : NotifyInfo := ⟨l.peerURL, w.pubMetadata, l.clientidstr⟩
  have hclear : step (.checkNotify k) (σ.holding k l.psw (.clear l)) =
      { σ.holding k l.psw (.unlock l true) with shared := cleared } := by
    simp [step, hlt, checkNotifyStep, State.holding, cleared]
  have hunlock : step (.checkNotify k)
      { σ.holding k l.psw (.unlock l true) with shared := cleared } =
        { σ with shared := cleared, tasks := σ.tasks.set k (.inform l) } := by
    simp [step, hlt, checkNotifyStep, State.holding, release_pswmtx hfree]
  have hinform : step (.checkNotify k)
      { σ with shared := cleared, tasks := σ.tasks.set k (.inform l) } =
        { σ with shared := cleared, tasks := σ.tasks.set k (.push l ninfo) } := by
    simp [step, hlt, checkNotifyStep, ninfo, cleared, Shared.modify, hheap]
  have hpush : step (.checkNotify k)
      { σ with shared := cleared, tasks := σ.tasks.set k (.push l ninfo) } =
        { σ with
          shared := cleared
          tasks := σ.tasks.set k (.delete l)
          notifyQueue := σ.notifyQueue ++ [ninfo]
          pushed := σ.pushed ++ [(l.psw, ninfo)] } := by
    simp [step, hlt, checkNotifyStep]
  refine Alone.head hclear (Alone.head hunlock (Alone.head hinform (Alone.head hpush
    (Alone.head ?_ (.refl _ _)))))
  simp [step, hlt, checkNotifyStep, cleared, ninfo, Shared.modify_modify]

/-- **A task that runs alone** leaves the wrappers and the queue of `runTask`. -/
theorem checkNotify_alone {s : Store} (hk : σ.tasks[k]? = some (.queued (some p)))
    (hw : s.wrapper? p.1 p.2 = some w) (hshared : σ.shared = .ofStore s)
    (hfree : σ.pswmtx p = false) :
    Moves (.checkNotify k) σ
      { σ with
        shared := .ofStore (runTask p s).1
        tasks := σ.tasks.set k .done
        notifyQueue := σ.notifyQueue ++ (runTask p s).2.map Prod.snd
        pushed := σ.pushed ++ (runTask p s).2 } := by
  have hlt : k < σ.tasks.length := (List.getElem?_eq_some_iff.1 hk).1
  have hheap : σ.shared.heap p = some w := by
    rw [hshared]
    exact hw
  have hrun : runTask p s = (s.modifyWrapper p.1 p.2 fun _ => (checkNotify w).1,
      (checkNotify w).2.toList.map fun ninfo => (p, ninfo)) := by
    rw [runTask, hw]
  rw [hrun, ofStore_modifyWrapper, ← hshared]
  refine (moves_test hk hheap hfree).trans ?_
  rcases Bool.eq_false_or_eq_true w.iftrigure with hon | hoff
  · have htest : step (.checkNotify k) (σ.holding k p (.test ⟨p, w.clientID, w.peerURL⟩)) =
        σ.holding k p (.clear ⟨p, w.clientID, w.peerURL⟩) := by
      simp [step, hlt, checkNotifyStep, State.holding, hheap, hon]
    have hdelete : (σ.shared.modify p fun _ => (checkNotify w).1) =
        σ.shared.modify p fun psw =>
          if psw.matchType = "NAME" then deletePubEvent { psw with iftrigure := false }
          else { psw with iftrigure := false } := by
      refine Shared.modify_congr fun psw hpsw => ?_
      obtain rfl := Option.some.inj (hheap.symm.trans hpsw)
      simp [checkNotify, hon]
    have hinfo : (checkNotify w).2 = some ⟨w.peerURL, w.pubMetadata, w.clientID⟩ := by
      simp [checkNotify, hon]
    rw [hdelete, hinfo]
    exact Alone.head htest (moves_clear hlt hheap hfree ⟨p, w.clientID, w.peerURL⟩ rfl)
  · have htest : step (.checkNotify k) (σ.holding k p (.test ⟨p, w.clientID, w.peerURL⟩)) =
        σ.holding k p (.unlock ⟨p, w.clientID, w.peerURL⟩ false) := by
      simp [step, hlt, checkNotifyStep, State.holding, hheap, hoff]
    rw [checkNotify_of_not_iftrigure hoff, Shared.modify_eq_self hheap]
    refine Alone.head htest (Alone.head ?_ (.refl _ _))
    simp [step, hlt, checkNotifyStep, State.holding, release_pswmtx hfree]

end Task

end Alone

end Delivering

end TPST
