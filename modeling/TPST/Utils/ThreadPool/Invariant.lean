import Mathlib.Tactic.Abel
import TPST.Utils.ThreadPool

/-!
# The invariant of the thread pool

Every step keeps `Inv` (`inv_step`). A step moves one thread and, if this has the mutex, may change
the queue or `stop`. What the other threads know of these, they know under the mutex, which they do
not have then, or it stays true (`Worker.Knows.of_not_holds`). A notification wakes workers up, and
changes nothing else (`Inv.wake`).
-/

namespace TPST

open Schedule

namespace ThreadPool

section Moves

variable {α : Type*} {σ : State α} {i : ℕ} {w w' : Worker α} {tasks tasks' : List α}
  {stop stop' : Bool}

theorem Worker.Knows.of_not_holds (h : w.Knows tasks stop) (hholds : ¬ w.Holds)
    (hdone : tasks = [] ∧ stop = true → tasks' = [] ∧ stop' = true) : w.Knows tasks' stop' := by
  cases w with
  | block | decide | leave | front | pop => exact absurd trivial hholds
  | exited => exact hdone h
  | crashed => exact h
  | _ => trivial

theorem Caller.Knows.of_not_holds {c : Caller} (h : c.Knows stop) (hholds : ¬ c.Holds)
    (hstop : stop = true → stop' = true) : c.Knows stop' := by
  cases c with
  | emplace | raise => exact absurd trivial hholds
  | thrown => exact hstop h
  | _ => trivial

/-- Some of the workers that wait are woken up. -/
def Woken : List (Worker α) → List (Worker α) → Prop :=
  List.Forall₂ fun w w' => w' = w ∨ w = .waiting ∧ w' = .lock

theorem Woken.refl (ws : List (Worker α)) : Woken ws ws := List.forall₂_same.2 fun _ _ => .inl rfl

theorem Woken.set {ws : List (Worker α)} (hi : ws[i]? = some .waiting) :
    Woken ws (ws.set i .lock) := by
  induction ws generalizing i with
  | nil => exact .nil
  | cons w ws ih =>
    cases i with
    | zero => exact .cons (.inr ⟨Option.some.inj hi, rfl⟩) (Woken.refl ws)
    | succ i => exact .cons (.inl rfl) (ih hi)

theorem woken_notifyAll (ws : List (Worker α)) : Woken ws (notifyAll ws) := by
  refine List.forall₂_map_right_iff.2 (List.forall₂_same.2 fun w _ => ?_)
  cases w with
  | waiting => exact .inr ⟨rfl, rfl⟩
  | _ => exact .inl rfl

theorem isWaiting_iff : w.isWaiting = true ↔ w = .waiting := by
  cases w <;> simp [Worker.isWaiting]

/-- A notification wakes one worker, unless none waits. -/
theorem notifyOne_cases (woken : ℕ) (ws : List (Worker α)) :
    (∃ i, ws[i]? = some .waiting ∧ notifyOne woken ws = ws.set i .lock) ∨
      (∀ w ∈ ws, w ≠ .waiting) ∧ notifyOne woken ws = ws := by
  unfold notifyOne
  split
  · rename_i hwoken
    exact .inl ⟨woken, hwoken, rfl⟩
  · split
    · rename_i i hfirst
      obtain ⟨hi, hwaiting, -⟩ := List.findIdx?_eq_some_iff_getElem.1 hfirst
      exact .inl ⟨i, by rw [List.getElem?_eq_getElem hi, isWaiting_iff.1 hwaiting], rfl⟩
    · rename_i hnone
      refine .inr ⟨fun w hw hwaiting => ?_, rfl⟩
      have hfalse := List.findIdx?_eq_none_iff.1 hnone w hw
      rw [isWaiting_iff.2 hwaiting] at hfalse
      cases hfalse

theorem woken_notifyOne (woken : ℕ) (ws : List (Worker α)) : Woken ws (notifyOne woken ws) := by
  rcases notifyOne_cases woken ws with ⟨i, hi, heq⟩ | ⟨-, heq⟩
  · rw [heq]
    exact .set hi
  · rw [heq]
    exact .refl ws

section Woken

variable {ws ws' : List (Worker α)}

theorem Woken.mem (h : Woken ws ws') (hw : w ∈ ws) : w ∈ ws' ∨ w = .waiting ∧ .lock ∈ ws' := by
  induction h with
  | nil => cases hw
  | @cons v v' _ _ hv _ ih =>
    rcases List.mem_cons.1 hw with rfl | hw
    · rcases hv with rfl | ⟨rfl, rfl⟩
      · exact .inl List.mem_cons_self
      · exact .inr ⟨rfl, List.mem_cons_self⟩
    · exact (ih hw).imp (List.mem_cons_of_mem _) (And.imp_right (List.mem_cons_of_mem _))

theorem Woken.of_mem (h : Woken ws ws') (hw : w ∈ ws') : w ∈ ws ∨ w = .lock := by
  induction h with
  | nil => cases hw
  | @cons v v' _ _ hv _ ih =>
    rcases List.mem_cons.1 hw with rfl | hw
    · rcases hv with rfl | ⟨-, rfl⟩
      · exact .inl List.mem_cons_self
      · exact .inr rfl
    · exact (ih hw).imp_left (List.mem_cons_of_mem _)

theorem Woken.eq_self (h : Woken ws ws') (hnone : ∀ w ∈ ws, w ≠ .waiting) : ws' = ws := by
  induction h with
  | nil => rfl
  | cons hv _ ih =>
    rw [ih fun w hw => hnone w (List.mem_cons_of_mem _ hw)]
    rcases hv with rfl | ⟨rfl, -⟩
    · rfl
    · exact absurd rfl (hnone _ List.mem_cons_self)

theorem Woken.holds_iff (h : Woken ws ws') (i : ℕ) :
    (∃ w, ws'[i]? = some w ∧ w.Holds) ↔ ∃ w, ws[i]? = some w ∧ w.Holds := by
  induction h generalizing i with
  | nil => rfl
  | cons hv _ ih =>
    cases i with
    | zero =>
      rcases hv with rfl | ⟨rfl, rfl⟩
      · rfl
      · simp [Worker.Holds]
    | succ i => simpa using ih i

theorem Woken.inHand (h : Woken ws ws') : ws'.map Worker.inHand = ws.map Worker.inHand := by
  induction h with
  | nil => rfl
  | cons hv _ ih =>
    rw [List.map_cons, List.map_cons, ih]
    rcases hv with rfl | ⟨rfl, rfl⟩ <;> rfl

/-- Waking workers up keeps the invariant. -/
theorem Inv.wake (h : Inv σ) (hws : Woken σ.workers ws') : Inv { σ with workers := ws' } where
  owned := h.owned.move (t := .destroy) (.keep Iff.rfl) fun t _ => by
    cases t with
    | worker i => exact hws.holds_iff i
    | _ => rfl
  workers w hw := by
    rcases hws.of_mem hw with hw | rfl
    · exact h.workers w hw
    · trivial
  callers := h.callers
  destructor := by
    have hd := h.destructor
    cases hpos : σ.destructor with
    | join i =>
      rw [hpos] at hd
      rw [hws.eq_self hd.2.1]
      exact hd
    | done =>
      rw [hpos] at hd
      rw [hws.eq_self fun w hw => by rw [hd.2 w hw]; exact nofun]
      exact hd
    | _ => exact (hpos ▸ hd :)
  awake := by
    rcases h.awake with htasks | hnone | ⟨w, hw, hawake⟩ | hpending
    · exact .inl htasks
    · exact .inr (.inl (by cases (hnone ▸ hws : Woken [] ws'); rfl))
    · rcases hws.mem hw with hw | ⟨-, hlock⟩
      · exact .inr (.inr (.inl ⟨w, hw, hawake⟩))
      · exact .inr (.inr (.inl ⟨.lock, hlock, trivial⟩))
    · exact .inr (.inr (.inr hpending))
  order := h.order
  hands := by
    change (ws'.map Worker.inHand).sum + _ = _
    rw [hws.inHand]
    exact h.hands
  sent := h.sent

end Woken

theorem holds_worker (hi : σ.workers[i]? = some w) : σ.Holds (.worker i) ↔ w.Holds := by
  simp only [State.Holds, hi, Option.some.injEq, exists_eq_left']

/-- The worker `i` goes on, with what it does to the mutex and the queue. -/
theorem Inv.worker_move (h : Inv σ) (hi : σ.workers[i]? = some w) {mutex : Option Thread}
    {taken finished : List α}
    (hmutex : Handover (.worker i) w.Holds w'.Holds σ.queue_mutex mutex)
    (hknows : w'.Knows tasks' σ.stop) (hexited : w ≠ .exited)
    (hwaiting : w' = .waiting → σ.stop = false)
    (htasks : tasks' = σ.tasks ∨ w.Holds ∧ σ.tasks ≠ [])
    (hawake : w'.Awake ∨ tasks' = []) (horder : taken ++ tasks' = σ.taken ++ σ.tasks)
    (hhands : w'.inHand + finished + σ.taken = w.inHand + σ.finished + taken) :
    Inv { σ with
      workers := σ.workers.set i w'
      queue_mutex := mutex
      tasks := tasks'
      taken := taken
      finished := finished } where
  owned := by
    have hlt : i < σ.workers.length := (List.getElem?_eq_some_iff.1 hi).1
    refine h.owned.move (t := .worker i) ?_ fun t ht => ?_
    · rw [holds_worker hi, holds_worker (List.getElem?_set_self hlt)]
      exact hmutex
    · cases t with
      | worker k =>
        have hk : i ≠ k := fun heq => ht (heq ▸ rfl)
        simp [State.Holds, List.getElem?_set_ne hk]
      | _ => rfl
  workers v hv := by
    obtain ⟨k, hk⟩ := List.mem_iff_getElem?.1 hv
    by_cases hki : i = k
    · subst hki
      rw [List.getElem?_set_self (List.getElem?_eq_some_iff.1 hi).1] at hk
      obtain rfl := Option.some.inj hk
      exact hknows
    · rw [List.getElem?_set_ne hki] at hk
      have hmem := List.mem_of_getElem? hk
      rcases htasks with rfl | ⟨hholds, htasks⟩
      · exact h.workers v hmem
      · refine (h.workers v hmem).of_not_holds (fun hv' => ?_) fun hnone => absurd hnone.1 htasks
        have heq := h.owned.eq ((holds_worker hi).2 hholds) ((holds_worker hk).2 hv')
        exact hki (Thread.worker.inj heq)
  callers := h.callers
  destructor := by
    have hd := h.destructor
    cases hpos : σ.destructor with
    | join k =>
      rw [hpos] at hd
      refine ⟨hd.1, forall_mem_set hd.2.1 fun heq => ?_, fun v hv => ?_⟩
      · exact Bool.false_ne_true ((hwaiting heq).symm.trans hd.1)
      · -- a worker that has been joined does not move
        refine hd.2.2 v ?_
        rw [List.take_set] at hv
        rwa [List.set_eq_of_length_le] at hv
        by_contra hlt
        have hmem : w ∈ σ.workers.take k := by
          rw [List.mem_iff_getElem?]
          exact ⟨i, by rw [List.getElem?_take_of_lt (by simp at hlt; omega), hi]⟩
        exact hexited (hd.2.2 w hmem)
    | done =>
      rw [hpos] at hd
      exact absurd (hd.2 w (List.mem_of_getElem? hi)) hexited
    | _ => exact (hpos ▸ hd :)
  awake := by
    rcases hawake with hawake | hnone
    · have hlt : i < σ.workers.length := (List.getElem?_eq_some_iff.1 hi).1
      exact .inr (.inr (.inl ⟨w', List.mem_set hlt w', hawake⟩))
    · exact .inl hnone
  order := horder.trans h.order
  hands := sum_map_set_add hi h.hands hhands
  sent := h.sent

/-- The worker `i` goes on and leaves the queue as it is. -/
theorem Inv.worker_goto (h : Inv σ) (hi : σ.workers[i]? = some w) {mutex : Option Thread}
    (hmutex : Handover (.worker i) w.Holds w'.Holds σ.queue_mutex mutex)
    (hknows : w'.Knows σ.tasks σ.stop) (hexited : w ≠ .exited)
    (hwaiting : w' = .waiting → σ.stop = false) (hawake : w'.Awake ∨ σ.tasks = [])
    (hhands : w'.inHand = w.inHand) :
    Inv { σ with workers := σ.workers.set i w', queue_mutex := mutex } :=
  h.worker_move hi hmutex hknows hexited hwaiting (.inl rfl) hawake rfl (by rw [hhands])

theorem inv_workerStep (h : Inv σ) (hi : σ.workers[i]? = some w) : Inv (workerStep i w σ) := by
  have hknows := h.workers w (List.mem_of_getElem? hi)
  cases w with
  | lock =>
    by_cases hfree : σ.queue_mutex = none
    · rw [workerStep, if_pos hfree]
      exact h.worker_goto hi (hfree ▸ .acquire trivial) trivial nofun nofun (.inl trivial) rfl
    · rw [workerStep, if_neg hfree]
      exact h
  | test =>
    by_cases htest : (σ.stop || !σ.tasks.isEmpty) = true
    · have hseen : σ.tasks ≠ [] ∨ σ.stop = true := by
        rcases Bool.or_eq_true_iff.1 htest with hstop | htasks
        · exact .inr hstop
        · exact .inl (by simpa using htasks)
      simp only [workerStep, htest, if_true]
      exact h.worker_goto hi (.keep Iff.rfl) hseen nofun nofun (.inl trivial) rfl
    · have hseen : σ.tasks = [] ∧ σ.stop = false := by simpa [and_comm] using htest
      simp only [workerStep, htest]
      exact h.worker_goto hi (.keep Iff.rfl) hseen nofun nofun (.inl trivial) rfl
  | block =>
    exact h.worker_goto hi (.release trivial id) trivial nofun (fun _ => hknows.2)
      (.inr hknows.1) rfl
  | waiting => exact h
  | decide =>
    by_cases htest : (σ.stop && σ.tasks.isEmpty) = true
    · have hseen : σ.tasks = [] ∧ σ.stop = true := by simpa [and_comm] using htest
      simp only [workerStep, htest, if_true]
      exact h.worker_goto hi (.keep Iff.rfl) hseen nofun nofun (.inl trivial) rfl
    · -- a stopped pool has tasks left here, and one that is not stopped woke the worker for one
      have hseen : σ.tasks ≠ [] := by
        rcases hknows with htasks | hstop
        · exact htasks
        · simpa [hstop] using htest
      simp only [workerStep, htest]
      exact h.worker_goto hi (.keep Iff.rfl) hseen nofun nofun (.inl trivial) rfl
  | leave =>
    exact h.worker_goto hi (.release trivial id) hknows nofun nofun (.inr hknows.1) rfl
  | exited => exact h
  | front =>
    cases htasks : σ.tasks with
    | nil => exact absurd htasks hknows
    | cons task rest =>
      have hgoto : workerStep i .front σ =
          { σ with workers := σ.workers.set i (.pop task) } := by
        rw [workerStep, htasks]
      rw [hgoto]
      refine h.worker_goto hi (.keep Iff.rfl) ?_ nofun nofun (.inl trivial) rfl
      rw [htasks]
      rfl
  | pop task =>
    obtain ⟨rest, htasks⟩ := List.head?_eq_some_iff.1 hknows
    refine h.worker_move hi (.keep Iff.rfl) trivial nofun nofun (.inr ⟨trivial, ?_⟩)
      (.inl trivial) ?_ ?_
    · rw [htasks]
      exact nofun
    · simp [htasks]
    · simp only [Worker.inHand, ← Multiset.coe_add, Multiset.coe_singleton]
      abel
  | unlock task =>
    exact h.worker_goto hi (.release trivial id) trivial nofun nofun (.inl trivial) rfl
  | run task =>
    refine h.worker_move hi (.keep Iff.rfl) trivial nofun nofun (.inl rfl) (.inl trivial) rfl ?_
    simp only [Worker.inHand, ← Multiset.coe_add, Multiset.coe_singleton]
    abel
  | crashed => exact h

section Caller

variable {j : ℕ} {task : α} {c c' : Caller} {mutex : Option Thread}

theorem holds_enqueue (hj : σ.callers[j]? = some (task, c)) :
    σ.Holds (.enqueue j) ↔ c.Holds := by
  simp only [State.Holds, hj, Option.some.injEq, exists_eq_left']

/-- While a call has the mutex no worker does. -/
theorem Inv.not_holds_of_caller (h : Inv σ) (hj : σ.callers[j]? = some (task, c)) (hc : c.Holds)
    (hw : w ∈ σ.workers) : ¬ w.Holds := by
  intro hholds
  obtain ⟨i, hi⟩ := List.mem_iff_getElem?.1 hw
  cases h.owned.eq ((holds_worker hi).2 hholds) ((holds_enqueue hj).2 hc)

/-- The call `j` goes on, with what it does to the mutex and the queue. -/
theorem Inv.caller_move (h : Inv σ) (hj : σ.callers[j]? = some (task, c)) {pushed : List α}
    (hmutex : Handover (.enqueue j) c.Holds c'.Holds σ.queue_mutex mutex)
    (hknows : c'.Knows σ.stop) (hworkers : ∀ w ∈ σ.workers, w.Knows tasks' σ.stop)
    (hawake : tasks' = [] ∨ σ.workers = [] ∨ (∃ w ∈ σ.workers, w.Awake) ∨
      ∃ d ∈ σ.callers.set j (task, c'), d.2.Pending)
    (horder : σ.taken ++ tasks' = pushed)
    (hsent : Caller.sent (task, c') + σ.pushed = Caller.sent (task, c) + pushed) :
    Inv { σ with
      callers := σ.callers.set j (task, c')
      queue_mutex := mutex
      tasks := tasks'
      pushed := pushed } where
  owned := by
    have hlt : j < σ.callers.length := (List.getElem?_eq_some_iff.1 hj).1
    refine h.owned.move (t := .enqueue j) ?_ fun t ht => ?_
    · rw [holds_enqueue hj, holds_enqueue (List.getElem?_set_self hlt)]
      exact hmutex
    · cases t with
      | enqueue k =>
        have hk : j ≠ k := fun heq => ht (heq ▸ rfl)
        simp [State.Holds, List.getElem?_set_ne hk]
      | _ => rfl
  workers := hworkers
  callers := forall_mem_set h.callers hknows
  destructor := h.destructor
  awake := hawake
  order := horder
  hands := h.hands
  sent := by
    have hsum := sum_map_set Caller.sent (task, c') hj
    rw [h.sent, add_comm (σ.pushed : Multiset α), hsent, add_comm] at hsum
    exact add_left_cancel hsum

/-- The call `j` goes on and leaves the queue as it is. -/
theorem Inv.caller_goto (h : Inv σ) (hj : σ.callers[j]? = some (task, c))
    (hmutex : Handover (.enqueue j) c.Holds c'.Holds σ.queue_mutex mutex)
    (hknows : c'.Knows σ.stop) (hpending : c.Pending → c'.Pending)
    (hsent : Caller.sent (task, c') = Caller.sent (task, c)) :
    Inv { σ with callers := σ.callers.set j (task, c'), queue_mutex := mutex } := by
  refine h.caller_move hj hmutex hknows h.workers ?_ h.order (by rw [hsent])
  exact h.awake.imp_right (Or.imp_right (Or.imp_right (exists_mem_set hj hpending)))

/-- After a notification some worker is awake, unless nothing is left to do. -/
theorem Inv.awake_notifyOne (h : Inv σ) (woken : ℕ) :
    σ.tasks = [] ∨ notifyOne woken σ.workers = [] ∨
      ∃ w ∈ notifyOne woken σ.workers, w.Awake := by
  rcases notifyOne_cases woken σ.workers with ⟨i, hi, heq⟩ | ⟨hnone, heq⟩
  · have hlt : i < σ.workers.length := (List.getElem?_eq_some_iff.1 hi).1
    rw [heq]
    exact .inr (.inr ⟨.lock, List.mem_set hlt _, trivial⟩)
  · rw [heq]
    cases hws : σ.workers with
    | nil => exact .inr (.inl rfl)
    | cons w ws =>
      have hw : w ∈ σ.workers := hws ▸ List.mem_cons_self
      have hknows := h.workers w hw
      cases w with
      | waiting => exact absurd rfl (hnone _ hw)
      | exited => exact .inl hknows.1
      | crashed => exact hknows.elim
      | _ => exact .inr (.inr ⟨_, List.mem_cons_self, trivial⟩)

theorem inv_callerStep (h : Inv σ) (hj : σ.callers[j]? = some (task, c)) (woken : ℕ) :
    Inv (callerStep j woken task c σ) := by
  have hknows := h.callers _ (List.mem_of_getElem? hj)
  cases c with
  | lock =>
    by_cases hfree : σ.queue_mutex = none
    · rw [callerStep, if_pos hfree]
      exact h.caller_goto hj (hfree ▸ .acquire trivial) trivial id rfl
    · rw [callerStep, if_neg hfree]
      exact h
  | test =>
    by_cases hstop : σ.stop = true
    · simp only [callerStep, if_pos hstop]
      exact h.caller_goto hj (.keep Iff.rfl) hstop id rfl
    · simp only [callerStep, if_neg hstop]
      exact h.caller_goto hj (.keep Iff.rfl) (Bool.eq_false_iff.2 hstop) id rfl
  | emplace =>
    have hlt : j < σ.callers.length := (List.getElem?_eq_some_iff.1 hj).1
    refine h.caller_move hj (.keep Iff.rfl) trivial (fun w hw => ?_)
      (.inr (.inr (.inr ⟨(task, .unlock), List.mem_set hlt _, trivial⟩))) ?_ ?_
    · -- no worker looks at the queue, and none has returned from a pool that is not stopped
      refine (h.workers w hw).of_not_holds (h.not_holds_of_caller hj trivial hw) fun hdone => ?_
      exact absurd (hknows.symm.trans hdone.2) Bool.false_ne_true
    · rw [← List.append_assoc, h.order]
    · simp only [Caller.sent, ← Multiset.coe_add, Multiset.coe_singleton]
      abel
  | unlock => exact h.caller_goto hj (.release trivial id) trivial id rfl
  | notify =>
    refine (h.wake (woken_notifyOne woken σ.workers)).caller_move hj (.keep Iff.rfl) trivial
      (h.wake (woken_notifyOne woken σ.workers)).workers ?_ h.order rfl
    exact (h.awake_notifyOne woken).imp_right (Or.imp_right .inl)
  | done => exact h
  | raise => exact h.caller_goto hj (.release trivial id) hknows id rfl
  | thrown => exact h

end Caller

/-- The destructor goes on, with what it does to the mutex and `stop`. -/
theorem Inv.destructor_move (h : Inv σ) {d : Destructor} {mutex : Option Thread}
    (hmutex : Handover .destroy σ.destructor.Holds d.Holds σ.queue_mutex mutex)
    (hstop : stop' = σ.stop ∨ σ.destructor.Holds ∧ stop' = true)
    (hknows : d.Knows stop' σ.workers) :
    Inv { σ with destructor := d, queue_mutex := mutex, stop := stop' } where
  owned := h.owned.move (t := .destroy) hmutex fun t ht => by
    cases t with
    | destroy => exact absurd rfl ht
    | _ => rfl
  workers w hw := by
    rcases hstop with rfl | ⟨hholds, rfl⟩
    · exact h.workers w hw
    · refine (h.workers w hw).of_not_holds (fun hw' => ?_) fun hdone => ⟨hdone.1, rfl⟩
      obtain ⟨i, hi⟩ := List.mem_iff_getElem?.1 (show w ∈ σ.workers from hw)
      cases h.owned.eq ((holds_worker hi).2 hw') (show σ.Holds .destroy from hholds)
  callers c hc := by
    rcases hstop with rfl | ⟨hholds, rfl⟩
    · exact h.callers c hc
    · refine (h.callers c hc).of_not_holds (fun hc' => ?_) fun _ => rfl
      obtain ⟨j, hj⟩ := List.mem_iff_getElem?.1 (show c ∈ σ.callers from hc)
      cases h.owned.eq ((holds_enqueue hj).2 hc') (show σ.Holds .destroy from hholds)
  destructor := hknows
  awake := h.awake
  order := h.order
  hands := h.hands
  sent := h.sent

theorem inv_destructorStep (h : Inv σ) : Inv (destructorStep σ) := by
  have hknows := h.destructor
  cases hpos : σ.destructor with
  | idle =>
    rw [destructorStep, hpos]
    exact h
  | lock =>
    rw [hpos] at hknows
    by_cases hfree : σ.queue_mutex = none
    · simp only [destructorStep, hpos, hfree, if_true]
      exact h.destructor_move (hfree ▸ .acquire trivial) (.inl rfl) hknows
    · simp only [destructorStep, hpos, hfree, if_false]
      exact h
  | stop =>
    simp only [destructorStep, hpos]
    exact h.destructor_move (hpos ▸ .keep Iff.rfl) (.inr ⟨hpos ▸ trivial, rfl⟩) rfl
  | unlock =>
    rw [hpos] at hknows
    simp only [destructorStep, hpos]
    exact h.destructor_move (hpos ▸ .release trivial id) (.inl rfl) hknows
  | notify =>
    rw [hpos] at hknows
    simp only [destructorStep, hpos]
    refine (h.wake (woken_notifyAll σ.workers)).destructor_move (hpos ▸ .keep Iff.rfl) (.inl rfl)
      ⟨hknows, fun w hw heq => ?_, by simp⟩
    obtain ⟨v, -, rfl⟩ := List.mem_map.1 hw
    split at heq
    · cases heq
    · exact absurd (isWaiting_iff.2 heq) ‹_›
  | join i =>
    rw [hpos] at hknows
    cases hi : σ.workers[i]? with
    | none =>
      simp only [destructorStep, hpos, hi]
      refine h.destructor_move (hpos ▸ .keep Iff.rfl) (.inl rfl) ⟨hknows.1, fun w hw => ?_⟩
      refine hknows.2.2 w ?_
      rwa [List.take_of_length_le (List.getElem?_eq_none_iff.1 hi)]
    | some w =>
      by_cases hexited : w = .exited
      · subst hexited
        simp only [destructorStep, hpos, hi]
        refine h.destructor_move (hpos ▸ .keep Iff.rfl) (.inl rfl)
          ⟨hknows.1, hknows.2.1, fun v hv => ?_⟩
        rw [List.take_add_one, hi] at hv
        rcases List.mem_append.1 hv with hv | hv
        · exact hknows.2.2 v hv
        · exact List.mem_singleton.1 hv
      · have hstay : destructorStep σ = σ := by
          cases w with
          | exited => exact absurd rfl hexited
          | _ => simp only [destructorStep, hpos, hi]
        rw [hstay]
        exact h
  | done =>
    rw [destructorStep, hpos]
    exact h

theorem inv_step (h : Inv σ) (event : Event) : Inv (step event σ) := by
  cases event with
  | worker i =>
    cases hi : σ.workers[i]? with
    | none => simpa only [step, hi] using h
    | some w => simpa only [step, hi] using inv_workerStep h hi
  | enqueue j woken =>
    cases hj : σ.callers[j]? with
    | none => simpa only [step, hj] using h
    | some c => simpa only [step, hj] using inv_callerStep h hj woken
  | destroy => exact inv_destructorStep h
  | spurious i =>
    simp only [step]
    split
    · rename_i hi
      exact h.wake (.set hi)
    · exact h

theorem inv_start (threads : ℕ) (calls : List α) (destroyed : Bool) :
    Inv (start threads calls destroyed) where
  owned t := by
    refine iff_of_false (fun ht => ?_) nofun
    cases t with
    | worker i =>
      obtain ⟨w, hi, hw⟩ := ht
      obtain rfl := List.eq_of_mem_replicate (List.mem_of_getElem? hi)
      exact hw
    | enqueue j =>
      obtain ⟨c, hj, hc⟩ := ht
      obtain ⟨task, -, rfl⟩ := List.mem_map.1 (List.mem_of_getElem? hj)
      exact hc
    | destroy => cases destroyed <;> exact ht
  workers w hw := by
    obtain rfl := List.eq_of_mem_replicate hw
    trivial
  callers c hc := by
    obtain ⟨task, -, rfl⟩ := List.mem_map.1 hc
    trivial
  destructor := by cases destroyed <;> rfl
  awake := .inl rfl
  order := rfl
  hands := by simp [start, Worker.inHand]
  sent := by simp [start, Caller.sent, Function.comp_def]

theorem inv_run (threads : ℕ) (calls : List α) (destroyed : Bool) (events : List Event) :
    Inv (run step events (start threads calls destroyed)) := by
  have hstep : ∀ e (σ : State α), Inv σ → Inv (step e σ) := fun e _ h => inv_step h e
  exact (always_of_invariant hstep (fun _ h => h) (inv_start threads calls destroyed) events).run

end Moves

end ThreadPool

end TPST
