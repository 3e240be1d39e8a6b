import TPST.Foundations.Threads
import TPST.Server.StartTask

/-!
# Every notification is delivered

The handlers, the `checkNotify` tasks and the consumer of `TPST.Server.Delivering`, under a schedule
in which every thread moves again. The maps stay what they were, so a handler has a bounded number
of steps ahead, those of its tasks included, and a task that waits for a `pswmtx` waits for another
task that goes on. So everything comes to rest, with an empty queue (`fair_runs_start`).
-/

namespace TPST

open Std Schedule

/-! ## The maps -/

/-- The maps are those of the store, and its wrappers are where they lead. -/
structure Shared.Leads (m : Shared Place) (s : Store) : Prop where
  index : m.getIndexMap = s.getIndexMap
  rows : ∀ ix, OMap.rowEntries m.subtoClient ix = (s.clients ix).map fun c => (c, some (ix, c))
  heap : ∀ p, (m.heap p).isSome = true ↔ p.2 ∈ s.clients p.1

namespace Shared.Leads

variable {m : Shared Place} {s : Store}

theorem ofStore (s : Store) : (Shared.ofStore s).Leads s where
  index := rfl
  rows := rowEntries_ofStore s
  heap p := by
    rw [Store.mem_clients, Option.isSome_iff_exists]
    rfl

theorem indexEvents (h : m.Leads s) (event : String) :
    m.indexEvents event = s.indexEvents event := by
  rw [Shared.indexEvents, h.index, Store.indexEvents]

theorem cell (h : m.Leads s) {ix c : String} {psw : Option Place} :
    OMap.cell m.subtoClient ix c = some psw ↔ c ∈ s.clients ix ∧ psw = some (ix, c) := by
  rw [← OMap.mem_rowEntries, h.rows, List.mem_map]
  constructor
  · rintro ⟨c', hc', heq⟩
    obtain ⟨rfl, rfl⟩ := Prod.mk.inj heq
    exact ⟨hc', rfl⟩
  · rintro ⟨hc, rfl⟩
    exact ⟨c, hc, rfl⟩

theorem modify (h : m.Leads s) (p : Place) (f : PubsubWrapper → PubsubWrapper) :
    (m.modify p f).Leads s where
  index := h.index
  rows := h.rows
  heap q := by
    rw [Shared.isSome_heap_modify]
    exact h.heap q

theorem openRow (h : m.Leads s) (ix : String) :
    Shared.Leads { m with subtoClient := OMap.openRow m.subtoClient ix } s where
  index := h.index
  rows ix' := (OMap.rowEntries_openRow _ _ _).trans (h.rows ix')
  heap := h.heap

end Shared.Leads

namespace Delivering

/-! ## A walk -/

section Walk

variable {s : Store} {P : String → Prop} {walk : Walk Place} {m : Shared Place}

/-- The pointers of a row, as they are in the store. -/
def PointersOf (s : Store) (ix : String) (innermap : List (String × Option Place)) : Prop :=
  ∀ entry ∈ innermap, entry.1 ∈ s.clients ix ∧ entry.2 = some (ix, entry.1)

/-- All index events of the events satisfy `P`. -/
def EventsOf (s : Store) (P : String → Prop) (eventList : List String) : Prop :=
  ∀ event ∈ eventList, ∀ ix ∈ s.indexEvents event, P ix

/-- What the walk has copied is what the store has, and the index events that it comes to
satisfy `P`. -/
def Reads (s : Store) (P : String → Prop) : Walk Place → Prop
  | .events eventList => EventsOf s P eventList
  | .registered event eventList => EventsOf s P (event :: eventList)
  | .indexEvents _ indexEventSet eventList =>
    (∀ ix ∈ indexEventSet, P ix) ∧ EventsOf s P eventList
  | .row _ indexEvent indexEventSet eventList =>
    (∀ ix ∈ indexEvent :: indexEventSet, P ix) ∧ EventsOf s P eventList
  | .clients _ indexEvent innermap indexEventSet eventList =>
    PointersOf s indexEvent innermap ∧ (∀ ix ∈ indexEvent :: indexEventSet, P ix) ∧
      EventsOf s P eventList
  | .trigger _ indexEvent clientId innermap indexEventSet eventList =>
    PointersOf s indexEvent ((clientId, some (indexEvent, clientId)) :: innermap) ∧
      (∀ ix ∈ indexEvent :: indexEventSet, P ix) ∧ EventsOf s P eventList
  | .done | .raised => True
  | .crashed => False

/-- What the rows of some index events are counted for. -/
def rowsAhead (s : Store) (indexEventSet : List String) : ℕ :=
  (indexEventSet.map fun ix => 2 * (s.clients ix).length + 3).sum

/-- What the rows of the index events of some events are counted for. -/
def eventsAhead (s : Store) (eventList : List String) : ℕ :=
  (eventList.map fun event => rowsAhead s (s.indexEvents event) + 3).sum

/-- A bound on the steps that a walk has ahead. -/
def walkAhead (s : Store) : Walk Place → ℕ
  | .events eventList => eventsAhead s eventList + 1
  | .registered event eventList => rowsAhead s (s.indexEvents event) + eventsAhead s eventList + 3
  | .indexEvents _ indexEventSet eventList =>
    rowsAhead s indexEventSet + eventsAhead s eventList + 2
  | .row _ indexEvent indexEventSet eventList =>
    2 * (s.clients indexEvent).length + 2 + rowsAhead s indexEventSet + eventsAhead s eventList + 2
  | .clients _ _ innermap indexEventSet eventList =>
    2 * innermap.length + 1 + rowsAhead s indexEventSet + eventsAhead s eventList + 2
  | .trigger _ _ _ innermap indexEventSet eventList =>
    2 * innermap.length + 2 + rowsAhead s indexEventSet + eventsAhead s eventList + 2
  | .done | .raised | .crashed => 0

theorem rowsAhead_cons (ix : String) (indexEventSet : List String) :
    rowsAhead s (ix :: indexEventSet) =
      2 * (s.clients ix).length + 3 + rowsAhead s indexEventSet := List.sum_cons

theorem eventsAhead_cons (event : String) (eventList : List String) :
    eventsAhead s (event :: eventList) =
      rowsAhead s (s.indexEvents event) + 3 + eventsAhead s eventList := List.sum_cons

/-- What a step of a walk comes to: it goes on, with fewer steps ahead, and the maps stay. -/
structure Goes (s : Store) (P : String → Prop) (mt : String) (walk : Walk Place)
    (next : Walk Place × Shared Place) : Prop where
  reads : Reads s P next.1
  leads : next.2.Leads s
  ahead : walkAhead s next.1 < walkAhead s walk
  raised : mt = "NAME" → next.1 ≠ .raised

theorem testWrapper_NAME (md event : String) (psw : PubsubWrapper) :
    ∃ r, testWrapper "NAME" md event psw = .ok r := ⟨_, if_pos rfl⟩

/-- **A walk goes on** until it is done or raised. -/
theorem walkStep_goes (h : Reads s P walk) (hm : m.Leads s) (hdone : walk ≠ .done)
    (hraised : walk ≠ .raised) (mt md : String) :
    Goes s P mt walk (walkStep mt md false (walk, m)) := by
  cases walk with
  | events eventList =>
    cases eventList with
    | nil => exact ⟨trivial, hm, Nat.succ_pos _, fun _ => by simp [walkStep]⟩
    | cons event eventList =>
      simp only [walkStep]
      split
      · exact ⟨h, hm, by simp only [walkAhead, eventsAhead_cons]; omega, fun _ => by simp⟩
      · exact ⟨fun e he => h e (.tail _ he), hm,
          by simp only [walkAhead, eventsAhead_cons]; omega, fun _ => by simp⟩
  | registered event eventList =>
    refine ⟨⟨?_, fun e he => h e (.tail _ he)⟩, hm, ?_, fun _ => by simp [walkStep]⟩
    · rw [hm.indexEvents]
      exact h event (.head _)
    · simp only [walkStep, walkAhead, hm.indexEvents]
      omega
  | indexEvents event indexEventSet eventList =>
    cases indexEventSet with
    | nil => exact ⟨h.2, hm, by simp only [walkStep, walkAhead]; omega, fun _ => by simp [walkStep]⟩
    | cons indexEvent indexEventSet =>
      simp only [walkStep]
      split
      · exact ⟨h, hm, by simp only [walkAhead, rowsAhead_cons]; omega, fun _ => by simp⟩
      · exact ⟨trivial, hm, by simp only [walkAhead]; omega, fun _ => by simp⟩
  | row event indexEvent indexEventSet eventList =>
    refine ⟨⟨?_, h⟩, hm, ?_, fun _ => by simp [walkStep]⟩
    · rw [hm.rows]
      intro entry hentry
      obtain ⟨c, hc, rfl⟩ := List.mem_map.1 hentry
      exact ⟨hc, rfl⟩
    · simp only [walkStep, walkAhead, hm.rows, List.length_map]
      omega
  | clients event indexEvent innermap indexEventSet eventList =>
    cases innermap with
    | nil =>
      exact ⟨⟨fun ix hix => h.2.1 ix (.tail _ hix), h.2.2⟩, hm,
        by simp only [walkStep, walkAhead]; omega, fun _ => by simp [walkStep]⟩
    | cons entry innermap =>
      obtain ⟨clientId, clientWrapper⟩ := entry
      obtain ⟨hclient, hpointer⟩ := h.1 _ (.head _)
      dsimp only at hclient hpointer
      subst hpointer
      obtain ⟨psw, hpsw⟩ := Option.isSome_iff_exists.1
        ((hm.heap (indexEvent, clientId)).2 hclient)
      have hinner : PointersOf s indexEvent innermap :=
        fun entry hentry => h.1 entry (.tail _ hentry)
      simp only [walkStep, hpsw]
      cases htest : testWrapper mt md event psw with
      | error fault =>
        refine ⟨trivial, hm, by simp only [walkAhead]; omega, ?_⟩
        rintro rfl
        obtain ⟨r, hr⟩ := testWrapper_NAME md event psw
        rw [hr] at htest
        cases htest
      | ok r =>
        obtain ⟨psw', tempiftrigure⟩ := r
        cases tempiftrigure with
        | false =>
          exact ⟨⟨hinner, h.2⟩, hm.modify _ _,
            by simp only [walkAhead, List.length_cons, Bool.false_eq_true, if_false]; omega,
            fun _ => by simp⟩
        | true =>
          exact ⟨h, hm.modify _ _,
            by simp only [walkAhead, List.length_cons, if_true]; omega, fun _ => by simp⟩
  | trigger event indexEvent clientId innermap indexEventSet eventList =>
    have hcell := hm.cell.2 ⟨(h.1 _ (.head _)).1, rfl⟩
    simp only [walkStep, hcell]
    exact ⟨⟨fun entry hentry => h.1 entry (.tail _ hentry), h.2⟩, hm.modify _ _,
      by simp only [walkAhead]; omega, fun _ => by simp⟩
  | done => exact absurd rfl hdone
  | raised => exact absurd rfl hraised
  | crashed => exact h.elim

end Walk

/-! ## The threads -/

/-- The thread has copied what the store has, and its walk comes to index events that
satisfy `P`. -/
def Handler.Reads (s : Store) (P : String → Prop) : Handler → Prop
  | .walk w => Delivering.Reads s P w
  | .enqueue subscribedMap _ => ∃ ix, PointersOf s ix subscribedMap
  | _ => True

/-- The number of clients filed under some index events. -/
def clientsOf (s : Store) (indexEventSet : List String) : ℕ :=
  (indexEventSet.map fun ix => (s.clients ix).length).sum

/-- What the notify phase for some index events is counted for, the tasks included. -/
def notifyAhead (s : Store) (indexEventSet : List String) : ℕ :=
  (indexEventSet.map fun ix => 17 * (s.clients ix).length + 2).sum + 1

/-- A bound on the steps that a handler and the tasks it will enqueue have ahead. -/
def Handler.ahead (s : Store) (call : PublishCall) : Handler → ℕ
  | .walk w => walkAhead s w + notifyAhead s (notifiedIndexEvents call.eventList s) + 3
  | .lookup => notifyAhead s (notifiedIndexEvents call.eventList s) + 2
  | .registered eventStr => notifyAhead s (s.indexEvents eventStr) + 1
  | .startNotify indexEventSet => notifyAhead s indexEventSet
  | .enqueue subscribedMap indexEventSet =>
    17 * subscribedMap.length + 1 + notifyAhead s indexEventSet
  | .done => 0

/-- The tasks that a handler will enqueue at most. -/
def Handler.toCome (s : Store) (call : PublishCall) : Handler → ℕ
  | .walk _ | .lookup => clientsOf s (notifiedIndexEvents call.eventList s)
  | .registered eventStr => clientsOf s (s.indexEvents eventStr)
  | .startNotify indexEventSet => clientsOf s indexEventSet
  | .enqueue subscribedMap indexEventSet => subscribedMap.length + clientsOf s indexEventSet
  | .done => 0

/-- The wrapper of a task is one of the store. -/
def Task.Reads (s : Store) : Task → Prop
  | .queued psw => ∃ p, psw = some p ∧ p.2 ∈ s.clients p.1
  | .lock l | .test l | .clear l | .unlock l _ | .inform l | .push l _ | .delete l =>
    l.psw.2 ∈ s.clients l.psw.1
  | .done => True
  | .crashed => False

/-- A bound on the steps that a task has ahead, those of the consumer for its push included. -/
def Task.ahead : Task → ℕ
  | .queued _ => 16
  | .lock _ => 15
  | .test _ => 14
  | .clear _ => 13
  | .unlock _ true => 12
  | .inform _ => 11
  | .push _ _ => 10
  | .delete _ => 1
  | .unlock _ false => 1
  | .done | .crashed => 0

/-- The task has pushed, or will not. -/
def Task.past : Task → Bool
  | .delete _ | .done => true
  | _ => false

/-- The rounds that the consumer has left find an element each. -/
def Consumer.Knows (notifyQueue : List NotifyInfo) : Consumer → Prop
  | .poll => True
  | .round rounds => rounds ≤ notifyQueue.length
  | .front rounds | .start _ rounds | .pop rounds => rounds < notifyQueue.length
  | .crashed => False

def Consumer.ahead : Consumer → ℕ
  | .round 0 => 8
  | .poll => 7
  | .round (_ + 1) => 5
  | .front _ => 4
  | .start _ _ => 3
  | .pop _ => 2
  | .crashed => 0

/-- A bound on the steps that are left. -/
def State.ahead (s : Store) (σ : State) : ℕ :=
  (σ.handlers.map fun h => h.2.ahead s h.1).sum + (σ.tasks.map Task.ahead).sum +
    8 * σ.notifyQueue.length + σ.consumer.ahead

/-- What the threads know, and the account of the tasks. -/
structure Sound (s : Store) (P : PublishCall → String → Prop) (total : ℕ) (σ : State) : Prop where
  leads : σ.shared.Leads s
  handlers : ∀ h ∈ σ.handlers, h.2.Reads s (P h.1)
  tasks : ∀ task ∈ σ.tasks, task.Reads s
  /-- A `pswmtx` that is held is held by a task. -/
  held : ∀ p, σ.pswmtx p = true → ∃ task ∈ σ.tasks, task.holds p = true
  rounds : σ.consumer.Knows σ.notifyQueue
  enqueued : (σ.handlers.map fun h => h.2.toCome s h.1).sum + σ.tasks.length ≤ total
  pushed : σ.pushed.length ≤ σ.tasks.countP Task.past

theorem Consumer.Knows.append {consumer : Consumer} {notifyQueue : List NotifyInfo}
    (h : consumer.Knows notifyQueue) (ninfo : NotifyInfo) :
    consumer.Knows (notifyQueue ++ [ninfo]) := by
  cases consumer with
  | poll => trivial
  | crashed => exact h
  | _ => exact Nat.le_trans h (by simp)

section Moves

variable {s : Store} {P : PublishCall → String → Prop} {total i k : ℕ} {σ : State}
  {call : PublishCall} {handler : Handler} {task : Task} {m' : Shared Place}

/-- The step leaves what is known, and fewer steps ahead. -/
def Progress (s : Store) (P : PublishCall → String → Prop) (total : ℕ) (σ σ' : State) : Prop :=
  Sound s P total σ' ∧ σ'.ahead s < σ.ahead s

/-- A task goes on. -/
theorem Sound.task_move (h : Sound s P total σ) (hk : σ.tasks[k]? = some task) (task' : Task)
    {pswmtx' : Place → Bool} {notifyQueue' : List NotifyInfo} {pushed' : List (Place × NotifyInfo)}
    (hleads : m'.Leads s) (hreads : task'.Reads s)
    (hheld : ∀ p, pswmtx' p = true →
      task'.holds p = true ∨ (σ.pswmtx p = true ∧ task.holds p = false))
    (hqueue : σ.consumer.Knows notifyQueue')
    (hpushed : pushed'.length + task.past.toNat ≤ σ.pushed.length + task'.past.toNat)
    (hahead : 8 * notifyQueue'.length + task'.ahead < 8 * σ.notifyQueue.length + task.ahead) :
    Progress s P total σ { σ with
      shared := m'
      tasks := σ.tasks.set k task'
      pswmtx := pswmtx'
      notifyQueue := notifyQueue'
      pushed := pushed' } where
  left :=
    { leads := hleads
      handlers := h.handlers
      tasks := forall_mem_set h.tasks hreads
      held := by
        intro p hp
        have hlt := (List.getElem?_eq_some_iff.1 hk).1
        rcases hheld p hp with hholds | ⟨hbefore, hother⟩
        · exact ⟨task', List.mem_set hlt task', hholds⟩
        · exact exists_mem_set hk (fun hholds => by simp [hother] at hholds) (h.held p hbefore)
      rounds := hqueue
      enqueued := by simpa using h.enqueued
      pushed := by
        have hset := countP_set_add (b := task') Task.past hk
        have := h.pushed
        dsimp only
        omega }
  right := by
    have hset := sum_map_set Task.ahead task' hk
    simp only [State.ahead] at *
    omega

/-- A handler goes on, and enqueues some tasks. -/
theorem Sound.handler_move (h : Sound s P total σ) (hi : σ.handlers[i]? = some (call, handler))
    (handler' : Handler) (hleads : m'.Leads s) (hreads : handler'.Reads s (P call))
    (new : List Task) (hnew : ∀ task ∈ new, task.Reads s ∧ task.ahead = 16 ∧ task.past = false)
    (hcome : handler'.toCome s call + new.length ≤ handler.toCome s call)
    (hahead : handler'.ahead s call + 16 * new.length < handler.ahead s call)
    (found' : List Place) :
    Progress s P total σ { σ with
      shared := m'
      handlers := σ.handlers.set i (call, handler')
      tasks := σ.tasks ++ new
      found := found' } where
  left :=
    { leads := hleads
      handlers := forall_mem_set h.handlers hreads
      tasks := by
        intro task htask
        exact (List.mem_append.1 htask).elim (h.tasks task) fun hmem => (hnew task hmem).1
      held := fun p hp =>
        have ⟨task, htask, hholds⟩ := h.held p hp
        ⟨task, List.mem_append_left _ htask, hholds⟩
      rounds := h.rounds
      enqueued := by
        have hset := sum_map_set (fun h : PublishCall × Handler => h.2.toCome s h.1)
          (call, handler') hi
        have := h.enqueued
        simp only [List.length_append] at *
        omega
      pushed := by
        rw [List.countP_append]
        exact Nat.le_trans h.pushed (Nat.le_add_right _ _) }
  right := by
    have hset := sum_map_set (fun h : PublishCall × Handler => h.2.ahead s h.1) (call, handler') hi
    have hsum : (new.map Task.ahead).sum = 16 * new.length := by
      rw [List.map_congr_left fun task htask => (hnew task htask).2.1, List.map_const',
        List.sum_replicate_nat, Nat.mul_comm]
    simp only [State.ahead, List.map_append, List.sum_append] at *
    omega

/-- A handler goes on, and enqueues nothing. -/
theorem Sound.handler_goto (h : Sound s P total σ) (hi : σ.handlers[i]? = some (call, handler))
    (handler' : Handler) (hleads : m'.Leads s) (hreads : handler'.Reads s (P call))
    (hcome : handler'.toCome s call ≤ handler.toCome s call)
    (hahead : handler'.ahead s call < handler.ahead s call) (found' : List Place) :
    Progress s P total σ { σ with
      shared := m'
      handlers := σ.handlers.set i (call, handler')
      found := found' } := by
  have hmove := h.handler_move hi handler' hleads hreads []
    (fun _ hmem => absurd hmem List.not_mem_nil) hcome hahead found'
  rwa [List.append_nil] at hmove

end Moves

section Steps

variable {s : Store} {P : PublishCall → String → Prop} {total i k : ℕ} {σ : State}
  {call : PublishCall} {handler : Handler} {task : Task}

theorem notifyAhead_cons (ix : String) (indexEventSet : List String) :
    notifyAhead s (ix :: indexEventSet) =
      17 * (s.clients ix).length + 2 + notifyAhead s indexEventSet := by
  rw [notifyAhead, notifyAhead, List.map_cons, List.sum_cons, Nat.add_assoc]

theorem clientsOf_cons (ix : String) (indexEventSet : List String) :
    clientsOf s (ix :: indexEventSet) = (s.clients ix).length + clientsOf s indexEventSet :=
  List.sum_cons

/-- **A handler goes on** until it has returned or an exception has left it. -/
theorem Sound.handler_goes (h : Sound s P total σ) (hi : σ.handlers[i]? = some (call, handler)) :
    ((handler = .done ∨ handler = .walk .raised) ∧ publishStep i call handler σ = σ) ∨
      Progress s P total σ (publishStep i call handler σ) := by
  have hreads := h.handlers _ (List.mem_of_getElem? hi)
  have hstays {handler' : Handler} (heq : handler = handler') :
      σ.handlers.set i (call, handler') = σ.handlers := by
    rw [← heq]
    exact set_of_getElem? hi
  cases handler with
  | walk walk =>
    by_cases hdone : walk = .done
    · subst hdone
      refine .inr (h.handler_goto hi .lookup h.leads trivial le_rfl ?_ _)
      simp only [Handler.ahead, walkAhead]
      omega
    by_cases hraised : walk = .raised
    · subst hraised
      refine .inl ⟨.inr rfl, ?_⟩
      simp only [publishStep, walkStep, Walk.marks, Option.toList_none, List.append_nil]
      rw [hstays rfl]
    · have hgoes := walkStep_goes hreads h.leads hdone hraised (requestMatchType call.matchType)
        call.metadata
      rw [publishStep_walk hdone]
      refine .inr (h.handler_goto hi (.walk _) hgoes.leads hgoes.reads le_rfl ?_ _)
      simp only [Handler.ahead]
      have := hgoes.ahead
      omega
  | lookup =>
    right
    simp only [publishStep]
    cases hlast : call.eventList.getLast? with
    | none => exact h.handler_goto hi .done h.leads trivial (Nat.zero_le _) (Nat.succ_pos _) _
    | some eventStr =>
      have hnotified : notifiedIndexEvents call.eventList s = s.indexEvents eventStr := by
        rw [notifiedIndexEvents, hlast]
      dsimp only
      split
      · refine h.handler_goto hi (.registered eventStr) h.leads trivial ?_ ?_ _
        · simp only [Handler.toCome, hnotified, Nat.le_refl]
        · simp only [Handler.ahead, hnotified]
          omega
      · exact h.handler_goto hi .done h.leads trivial (Nat.zero_le _) (Nat.succ_pos _) _
  | registered eventStr =>
    refine .inr (h.handler_goto hi (.startNotify _) h.leads trivial ?_ ?_ _)
    · rw [h.leads.indexEvents]
      exact le_rfl
    · rw [h.leads.indexEvents]
      exact Nat.lt_succ_self _
  | startNotify indexEventSet =>
    cases indexEventSet with
    | nil => exact .inr (h.handler_goto hi .done h.leads trivial (Nat.zero_le _) (Nat.succ_pos _) _)
    | cons indexEvent indexEventSet =>
      refine .inr (h.handler_goto hi (.enqueue _ indexEventSet) (h.leads.openRow indexEvent)
        ⟨indexEvent, ?_⟩ ?_ ?_ _)
      · rw [h.leads.rows]
        intro entry hentry
        obtain ⟨c, hc, rfl⟩ := List.mem_map.1 hentry
        exact ⟨hc, rfl⟩
      · simp only [Handler.toCome, h.leads.rows, clientsOf_cons, List.length_map, Nat.le_refl]
      · simp only [Handler.ahead, h.leads.rows, notifyAhead_cons, List.length_map]
        omega
  | enqueue subscribedMap indexEventSet =>
    obtain ⟨ix, hpointers⟩ := hreads
    cases subscribedMap with
    | nil =>
      refine .inr (h.handler_goto hi (.startNotify indexEventSet) h.leads trivial ?_ ?_ _)
      · simp only [Handler.toCome, List.length_nil, Nat.zero_add, Nat.le_refl]
      · simp only [Handler.ahead, List.length_nil]
        omega
    | cons entry subscribedMap =>
      obtain ⟨c, psw⟩ := entry
      obtain ⟨hc, hpsw⟩ := hpointers _ (.head _)
      refine .inr (h.handler_move hi (.enqueue subscribedMap indexEventSet) h.leads
        ⟨ix, fun entry hentry => hpointers entry (.tail _ hentry)⟩ [.queued psw]
        (fun task htask => ?_) ?_ ?_ _)
      · rw [List.mem_singleton.1 htask]
        exact ⟨⟨(ix, c), hpsw, hc⟩, rfl, rfl⟩
      · simp only [Handler.toCome, List.length_cons, List.length_nil]
        omega
      · simp only [Handler.ahead, List.length_cons, List.length_nil]
        omega
  | done =>
    refine .inl ⟨.inl rfl, rfl⟩

/-- **A task goes on** until it is done, or it waits for a `pswmtx`. -/
theorem Sound.task_goes (h : Sound s P total σ) (hk : σ.tasks[k]? = some task) :
    ((task = .done ∨ ∃ l, task = .lock l ∧ σ.pswmtx l.psw = true) ∧
        checkNotifyStep k task σ = σ) ∨
      Progress s P total σ (checkNotifyStep k task σ) := by
  have hreads := h.tasks _ (List.mem_of_getElem? hk)
  have hheap {p : Place} (hp : p.2 ∈ s.clients p.1) : ∃ psw, σ.shared.heap p = some psw :=
    Option.isSome_iff_exists.1 ((h.leads.heap p).2 hp)
  have hsame {task' : Task} (hholds : ∀ p, task.holds p = true → task'.holds p = true) (p : Place)
      (hp : σ.pswmtx p = true) :
      task'.holds p = true ∨ (σ.pswmtx p = true ∧ task.holds p = false) := by
    cases hbefore : task.holds p with
    | true => exact .inl (hholds p hbefore)
    | false => exact .inr ⟨hp, rfl⟩
  have hnone {P : Place → Prop} (p : Place) : false = true → P p := Bool.noConfusion
  cases task with
  | queued psw =>
    obtain ⟨p, rfl, hp⟩ := hreads
    obtain ⟨psw, hpsw⟩ := hheap hp
    simp only [checkNotifyStep, hpsw]
    exact .inr (h.task_move hk (.lock _) h.leads hp (hsame hnone) h.rounds le_rfl
      (by simp [Task.ahead]))
  | lock l =>
    by_cases hlocked : σ.pswmtx l.psw = true
    · exact .inl ⟨.inr ⟨l, rfl, hlocked⟩, if_pos hlocked⟩
    · simp only [checkNotifyStep, if_neg hlocked]
      refine .inr (h.task_move hk (.test l) h.leads hreads (fun p hp => ?_) h.rounds le_rfl
        (by simp [Task.ahead]))
      by_cases heq : p = l.psw
      · exact .inl (decide_eq_true heq.symm)
      · rw [Function.update_of_ne heq] at hp
        exact .inr ⟨hp, rfl⟩
  | test l =>
    obtain ⟨psw, hpsw⟩ := hheap hreads
    simp only [checkNotifyStep, hpsw]
    split
    · exact .inr (h.task_move hk (.clear l) h.leads hreads (hsame fun _ hp => hp) h.rounds le_rfl
        (by simp [Task.ahead]))
    · exact .inr (h.task_move hk (.unlock l false) h.leads hreads (hsame fun _ hp => hp) h.rounds
        le_rfl (by simp [Task.ahead]))
  | clear l =>
    exact .inr (h.task_move hk (.unlock l true) (h.leads.modify _ _) hreads
      (hsame fun _ hp => hp) h.rounds le_rfl (by simp [Task.ahead]))
  | unlock l triggered =>
    have hreleased : ∀ p, Function.update σ.pswmtx l.psw false p = true →
        σ.pswmtx p = true ∧ (Task.unlock l triggered).holds p = false := by
      intro p hp
      by_cases heq : p = l.psw
      · subst heq
        simp at hp
      · rw [Function.update_of_ne heq] at hp
        exact ⟨hp, decide_eq_false (Ne.symm heq)⟩
    cases triggered with
    | false =>
      exact .inr (h.task_move hk .done h.leads trivial (fun p hp => .inr (hreleased p hp)) h.rounds
        (by simp [Task.past]) (by simp [Task.ahead]))
    | true =>
      exact .inr (h.task_move hk (.inform l) h.leads hreads (fun p hp => .inr (hreleased p hp))
        h.rounds (by simp [Task.past]) (by simp [Task.ahead]))
  | inform l =>
    obtain ⟨psw, hpsw⟩ := hheap hreads
    simp only [checkNotifyStep, hpsw]
    exact .inr (h.task_move hk (.push l _) h.leads hreads (hsame hnone) h.rounds le_rfl
      (by simp [Task.ahead]))
  | push l ninfo =>
    exact .inr (h.task_move hk (.delete l) h.leads hreads (hsame hnone) (h.rounds.append ninfo)
      (by simp [Task.past]) (by simp [Task.ahead]; omega))
  | delete l =>
    exact .inr (h.task_move hk .done (h.leads.modify _ _) trivial (hsame hnone) h.rounds
      (by simp [Task.past]) (by simp [Task.ahead]))
  | done => exact .inl ⟨.inl rfl, rfl⟩
  | crashed => exact hreads.elim

/-- **The consumer goes on**, unless it sees an empty queue. -/
theorem Sound.consumer_goes (h : Sound s P total σ) :
    ((σ.consumer = .poll ∧ (σ.notifyQueue.length : Int).bmod (2 ^ 32) ≤ 0) ∧ consumeStep σ = σ) ∨
      Progress s P total σ (consumeStep σ) := by
  have hrounds := h.rounds
  have hgoes {consumer : Consumer} {notifyQueue : List NotifyInfo} {started : List NotifyInfo}
      (hknows : consumer.Knows notifyQueue)
      (hahead : 8 * notifyQueue.length + consumer.ahead <
        8 * σ.notifyQueue.length + σ.consumer.ahead) :
      Progress s P total σ { σ with
        consumer := consumer
        notifyQueue := notifyQueue
        started := started } :=
    ⟨{ h with rounds := hknows }, by simp only [State.ahead]; omega⟩
  cases hpos : σ.consumer with
  | poll =>
    generalize hsize : (σ.notifyQueue.length : Int).bmod (2 ^ 32) = size
    by_cases hpositive : 0 < size
    · right
      have hle := toNat_bmod_le σ.notifyQueue.length
      rw [hsize] at hle
      obtain ⟨rounds, hround, hpos', hrounds'⟩ : ∃ rounds,
          (if size < 512 then size.toNat else 512) = rounds + 1 ∧ 0 < size ∧
            rounds + 1 ≤ σ.notifyQueue.length := by
        split
        · exact ⟨size.toNat - 1, by omega, hpositive, by omega⟩
        · exact ⟨511, rfl, hpositive, by omega⟩
      simp only [consumeStep, hpos, hsize, if_pos hpositive, hround]
      refine hgoes hrounds' ?_
      simp only [hpos, Consumer.ahead]
      omega
    · refine .inl ⟨⟨rfl, Int.not_lt.1 hpositive⟩, ?_⟩
      simp only [consumeStep, hpos, hsize, if_neg hpositive]
      rw [← hpos]
  | round rounds =>
    rw [hpos] at hrounds
    cases rounds with
    | zero =>
      simp only [consumeStep, hpos]
      refine .inr (hgoes trivial ?_)
      simp only [hpos, Consumer.ahead]
      omega
    | succ rounds =>
      have hne : σ.notifyQueue ≠ [] := List.ne_nil_of_length_pos (Nat.lt_of_lt_of_le
        (Nat.succ_pos _) hrounds)
      simp only [consumeStep, hpos, if_neg hne]
      refine .inr (hgoes hrounds ?_)
      simp only [hpos, Consumer.ahead]
      omega
  | front rounds =>
    rw [hpos] at hrounds
    cases hqueue : σ.notifyQueue with
    | nil =>
      rw [hqueue] at hrounds
      exact absurd hrounds (Nat.not_lt_zero _)
    | cons ninfo rest =>
      simp only [consumeStep, hpos, hqueue]
      refine .inr (hgoes (hqueue ▸ hrounds) ?_)
      simp only [hpos, hqueue, Consumer.ahead]
      omega
  | start ninfo rounds =>
    rw [hpos] at hrounds
    simp only [consumeStep, hpos]
    refine .inr (hgoes hrounds ?_)
    simp only [hpos, Consumer.ahead]
    omega
  | pop rounds =>
    rw [hpos] at hrounds
    have hlength : rounds < σ.notifyQueue.length := hrounds
    have hknows : rounds ≤ σ.notifyQueue.tail.length := by
      rw [List.length_tail]
      omega
    simp only [consumeStep, hpos]
    refine .inr (hgoes hknows ?_)
    rw [hpos, List.length_tail]
    cases rounds with
    | zero =>
      simp only [Consumer.ahead]
      omega
    | succ rounds =>
      simp only [Consumer.ahead]
      omega
  | crashed =>
    rw [hpos] at hrounds
    exact hrounds.elim

end Steps

/-! ## Every run comes to rest -/

section Rest

variable {s : Store} {P : PublishCall → String → Prop} {total : ℕ} {σ : State}

/-- The threads of the server. -/
inductive Thread
  | handler (i : ℕ)
  | task (k : ℕ)
  | consumer
  deriving DecidableEq, Repr

/-- A thread is there. -/
def Live : Thread → State → Prop
  | .handler i, σ => i < σ.handlers.length
  | .task k, σ => k < σ.tasks.length
  | .consumer, _ => True

/-- The event is a step of the thread. -/
def Thread.Takes : Thread → Event → Prop
  | .handler i, e => e = .publish i
  | .task k, e => e = .checkNotify k
  | .consumer, e => e = .consume

/-- **A step changes nothing, or fewer are left.** -/
theorem Sound.goes (h : Sound s P total σ) (event : Event) :
    step event σ = σ ∨ Progress s P total σ (step event σ) := by
  cases event with
  | publish i =>
    cases hi : σ.handlers[i]? with
    | none => exact .inl (by simp only [step, hi])
    | some handler =>
      simp only [step, hi]
      exact (h.handler_goes hi).imp_left And.right
  | checkNotify k =>
    cases hk : σ.tasks[k]? with
    | none => exact .inl (by simp only [step, hk])
    | some task =>
      simp only [step, hk]
      exact (h.task_goes hk).imp_left And.right
  | consume => exact h.consumer_goes.imp_left And.right

theorem sound_step (event : Event) (σ : State) (h : Sound s P total σ) :
    Sound s P total (step event σ) := by
  rcases h.goes event with heq | hgoes
  · rwa [heq]
  · exact hgoes.1

/-- The tasks that the handlers will enqueue for one call. -/
def tasksOf (s : Store) (call : PublishCall) : ℕ :=
  clientsOf s (notifiedIndexEvents call.eventList s)

theorem sound_start {calls : List PublishCall}
    (hP : ∀ call ∈ calls, EventsOf s (P call) call.eventList) :
    Sound s P (calls.map (tasksOf s)).sum (start calls s) where
  leads := .ofStore s
  handlers := by
    intro h hh
    obtain ⟨call, hcall, rfl⟩ := List.mem_map.1 hh
    exact hP call hcall
  tasks := fun _ hmem => absurd hmem List.not_mem_nil
  held := fun _ hp => Bool.noConfusion hp
  rounds := trivial
  enqueued := by
    rw [start, List.map_map]
    exact Nat.le_refl _
  pushed := Nat.le_refl _

/-- **At rest** the handlers have returned or were left by an exception, the tasks are done, and the
consumer sees an empty queue. -/
theorem Sound.rest (h : Sound s P total σ) (htotal : total < 2 ^ 31) (horder : σ.InOrder)
    (hrest : AtRest step Live Thread.Takes σ) :
    (∀ h ∈ σ.handlers, h.2 = .done ∨ h.2 = .walk .raised) ∧ (∀ task ∈ σ.tasks, task = .done) ∧
      σ.consumer = .poll ∧ σ.notifyQueue = [] ∧ σ.started = σ.pushed.map Prod.snd := by
  have hstuck : ∀ {σ' : State}, σ' = σ → ¬ Progress s P total σ σ' := by
    rintro σ' rfl hgoes
    exact Nat.lt_irrefl _ hgoes.2
  have hhandlers : ∀ h ∈ σ.handlers, h.2 = .done ∨ h.2 = .walk .raised := by
    rintro ⟨call, handler⟩ hmem
    obtain ⟨i, hi⟩ := List.mem_iff_getElem?.1 hmem
    obtain ⟨e, rfl, he⟩ := hrest (.handler i) (List.getElem?_eq_some_iff.1 hi).1
    simp only [step, hi] at he
    exact ((h.handler_goes hi).resolve_right (hstuck he)).1
  have htasks : ∀ task ∈ σ.tasks, task = .done ∨ ∃ l, task = .lock l ∧ σ.pswmtx l.psw = true := by
    intro task hmem
    obtain ⟨k, hk⟩ := List.mem_iff_getElem?.1 hmem
    obtain ⟨e, rfl, he⟩ := hrest (.task k) (List.getElem?_eq_some_iff.1 hk).1
    simp only [step, hk] at he
    exact ((h.task_goes hk).resolve_right (hstuck he)).1
  -- a task that holds a `pswmtx` is neither done nor waiting
  have hfree : ∀ p, σ.pswmtx p ≠ true := by
    intro p hp
    obtain ⟨task, hmem, hholds⟩ := h.held p hp
    rcases htasks task hmem with rfl | ⟨l, rfl, -⟩
    · exact Bool.noConfusion hholds
    · exact Bool.noConfusion hholds
  have hdone : ∀ task ∈ σ.tasks, task = .done := by
    intro task hmem
    refine (htasks task hmem).resolve_right ?_
    rintro ⟨l, -, hlocked⟩
    exact hfree l.psw hlocked
  obtain ⟨e, rfl, he⟩ := hrest .consumer trivial
  obtain ⟨⟨hpoll, hsize⟩, -⟩ := h.consumer_goes.resolve_right (hstuck he)
  rw [State.InOrder, hpoll] at horder
  have hqueue : σ.notifyQueue = [] := by
    refine eq_nil_of_bmod_le hsize ?_
    have hlength := congrArg List.length horder
    rw [List.length_map, List.length_append] at hlength
    have := h.pushed
    have := h.enqueued
    have := List.countP_le_length (p := Task.past) (l := σ.tasks)
    omega
  refine ⟨hhandlers, hdone, hpoll, hqueue, ?_⟩
  rw [hqueue, List.append_nil] at horder
  exact horder.symm

/-- **Every notification is delivered**, whatever the schedule in which every thread moves again:
from some moment on every handler has returned, or was left by an exception of its match, every task
is done, the queue is empty, and all that was pushed was started, in its order. The commands fit in
their buffers, since the metadata of the publishes is short enough. -/
theorem fair_runs_start (subscriptions : List SubscribeCall) (calls : List PublishCall)
    (hcalls : (calls.map (tasksOf (handleAll subscriptions .empty))).sum < 2 ^ 31)
    (hmetadata : ∀ call ∈ calls, call.metadata.utf8ByteSize ≤ 138) (f : ℕ → Event)
    (hfair : Fair step Live Thread.Takes f (start calls (handleAll subscriptions .empty))) :
    ∃ N, ∀ n, N ≤ n →
      let σ := states step f (start calls (handleAll subscriptions .empty)) n
      (∀ h ∈ σ.handlers, h.2 = .done ∨ h.2 = .walk .raised) ∧ (∀ task ∈ σ.tasks, task = .done) ∧
        σ.consumer = .poll ∧ σ.notifyQueue = [] ∧ σ.started = σ.pushed.map Prod.snd ∧
        ∀ ninfo ∈ σ.started, ∃ command, startTask ninfo = .ok command := by
  set s := handleAll subscriptions .empty
  have hsound : Sound s (fun _ _ => True) _ (start calls s) :=
    sound_start fun _ _ _ _ _ _ => trivial
  have hempty : Reachable .empty := .empty
  obtain ⟨hfiled, hquiet⟩ :=
    filed_untriggered_handleAll subscriptions ⟨hempty.filed, untriggered_empty⟩
  have hlower (e : Event) (σ : State) (h : Sound s (fun _ _ => True) (calls.map (tasksOf s)).sum σ)
      (_ : True) : step e σ = σ ∨ (step e σ).ahead s < σ.ahead s :=
    (h.goes e).imp_right And.right
  obtain ⟨N, hrest, hstill⟩ :=
    eventually_atRest sound_step hlower hsound ⟨0, fun _ _ => trivial⟩ hfair
  refine ⟨N, fun n hn => ?_⟩
  have hN : Sound s _ _ (states step f (start calls s) N) :=
    states_induction (fun e σ h => sound_step e σ h) hsound N
  have horder : Inv (states step f (start calls s) N) :=
    states_induction (fun e σ h => h.step e) (inv_start calls hfiled hquiet) N
  have hcarried : Carried (fun metadata => metadata.utf8ByteSize ≤ 138)
      (states step f (start calls s) N) :=
    states_induction (fun e σ h => h.step e) (carried_start (by decide) hmetadata) N
  rw [hstill n hn]
  obtain ⟨hhandlers, htasks, hconsumer, hqueue, hstarted⟩ :=
    hN.rest hcalls horder.order hrest
  refine ⟨hhandlers, htasks, hconsumer, hqueue, hstarted, fun ninfo hmem => ?_⟩
  rw [hstarted, List.mem_map] at hmem
  obtain ⟨push, hpush, rfl⟩ := hmem
  exact startTask_of_le (hcarried.pushed push hpush)

/-- The steps of all threads, one of each. -/
def inTurn (k : ℕ) : Event :=
  if k % 3 = 0 then .publish (k / 3) else if k % 3 = 1 then .checkNotify (k / 3) else .consume

/-- Threads that take turns are scheduled fairly. -/
theorem fair_inTurn (σ : State) : Fair step Live Thread.Takes (rounds inTurn) σ := by
  intro t n _
  have hrecurs {e : Event} (k : ℕ) (he : inTurn k = e) : ∃ m, n ≤ m ∧ rounds inTurn m = e := by
    obtain ⟨m, hm, heq⟩ := rounds_recurs inTurn k n
    exact ⟨m, hm, heq.trans he⟩
  cases t with
  | handler i => exact hrecurs (3 * i) (by rw [inTurn, if_pos (by omega)]; congr 1; omega)
  | task k =>
    refine hrecurs (3 * k + 1) ?_
    rw [inTurn, if_neg (by omega), if_pos (by omega)]
    congr 1
    omega
  | consumer => exact hrecurs 2 rfl

/-- One subscriber and two publishes, in turn. -/
theorem inTurn_start :
    ∃ N, ∀ n, N ≤ n →
      let σ := states step (rounds inTurn) (start [⟨["a"], "", "m"⟩, ⟨["a", "b"], "NAME", "m'"⟩]
        (handleAll [⟨"server", ["a"], "c", "addr", "CLIENT", "NAME", "md"⟩] .empty)) n
      σ.notifyQueue = [] ∧ σ.started = σ.pushed.map Prod.snd := by
  obtain ⟨N, hN⟩ := fair_runs_start [⟨"server", ["a"], "c", "addr", "CLIENT", "NAME", "md"⟩]
    [⟨["a"], "", "m"⟩, ⟨["a", "b"], "NAME", "m'"⟩] (by decide +kernel) (by decide) (rounds inTurn)
    (fair_inTurn _)
  refine ⟨N, fun n hn => ?_⟩
  obtain ⟨-, -, -, hqueue, hstarted, -⟩ := hN n hn
  exact ⟨hqueue, hstarted⟩

end Rest

end Delivering

end TPST
