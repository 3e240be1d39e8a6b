import TPST.Utils.ThreadPool.Invariant

/-!
# Progress of the thread pool

* `ahead_step`: a step that does anything lowers `State.ahead`, which bounds the steps that are
  still to come, unless a worker wakes up by itself.
* `Inv.mutex_free`, `Inv.tasks_rest`: where no thread gets anywhere, none is in the middle of its
  work, and no task is left.
-/

namespace TPST

open Schedule

namespace ThreadPool

/-! ## Every task is run -/

section Progress

variable {α : Type*} {σ : State α} {i j : ℕ} {w w' : Worker α} {task : α} {c c' : Caller}

/-- How many steps a worker may take before it needs another task or another notification. -/
def Worker.ahead : Worker α → ℕ
  | .exited | .crashed => 0
  | .waiting | .leave | .pop _ => 1
  | .block | .front => 2
  | .decide => 3
  | .test => 4
  | .lock => 5
  | .run _ => 6
  | .unlock _ => 7

/-- What a call may take, with what its task and its notification add for the workers. -/
def Caller.ahead : Caller → ℕ
  | .done | .thrown => 0
  | .raise => 1
  | .notify => 5
  | .unlock => 6
  | .emplace => 14
  | .test => 15
  | .lock => 16

/-- What the destructor of a pool with `n` workers may take, with what its notification adds. -/
def Destructor.ahead (n : ℕ) : Destructor → ℕ
  | .idle | .done => 0
  | .join i => n - i + 1
  | .notify => 5 * n + 2
  | .unlock => 5 * n + 3
  | .stop => 5 * n + 4
  | .lock => 5 * n + 5

/-- A bound on the steps that are left, unless a worker wakes up by itself. -/
def State.ahead (σ : State α) : ℕ :=
  (σ.workers.map Worker.ahead).sum + 7 * σ.tasks.length +
    (σ.callers.map fun c => c.2.ahead).sum + σ.destructor.ahead σ.workers.length

/-- The event is a step of a thread. -/
def Event.Own : Event → Prop
  | .spurious _ => False
  | _ => True

theorem length_notifyOne (woken : ℕ) (ws : List (Worker α)) :
    (notifyOne woken ws).length = ws.length :=
  (woken_notifyOne woken ws).length_eq.symm

theorem ahead_notifyOne (woken : ℕ) (ws : List (Worker α)) :
    ((notifyOne woken ws).map Worker.ahead).sum ≤ (ws.map Worker.ahead).sum + 4 := by
  rcases notifyOne_cases woken ws with ⟨i, hi, heq⟩ | ⟨-, heq⟩
  · have hsum := sum_map_set Worker.ahead .lock hi
    simp only [Worker.ahead] at hsum
    rw [heq]
    omega
  · rw [heq]
    omega

theorem ahead_notifyAll (ws : List (Worker α)) :
    ((notifyAll ws).map Worker.ahead).sum ≤ (ws.map Worker.ahead).sum + 4 * ws.length := by
  induction ws with
  | nil => exact Nat.le_refl 0
  | cons w ws ih =>
    have hhead : Worker.ahead (if w.isWaiting then .lock else w) ≤ w.ahead + 4 := by
      cases w <;> simp [Worker.isWaiting, Worker.ahead]
    simp only [notifyAll, List.map_cons, List.sum_cons, List.length_cons] at ih ⊢
    omega

theorem ahead_workerStep (h : Inv σ) (hi : σ.workers[i]? = some w) :
    workerStep i w σ = σ ∨ (workerStep i w σ).ahead < σ.ahead := by
  have hsum (w' : Worker α) := sum_map_set Worker.ahead w' hi
  have hknows := h.workers w (List.mem_of_getElem? hi)
  cases w with
  | waiting | exited | crashed => exact .inl rfl
  | lock =>
    by_cases hfree : σ.queue_mutex = none
    · have := hsum .test
      simp only [workerStep, hfree, if_true, State.ahead, Worker.ahead, List.length_set] at *
      omega
    · exact .inl (if_neg hfree)
  | test =>
    right
    have := hsum .decide
    have := hsum .block
    simp only [workerStep, State.ahead, Worker.ahead, List.length_set] at *
    split <;> omega
  | decide =>
    right
    have := hsum .leave
    have := hsum .front
    simp only [workerStep, State.ahead, Worker.ahead, List.length_set] at *
    split <;> omega
  | front =>
    obtain ⟨task, rest, htasks⟩ := List.exists_cons_of_ne_nil hknows
    have := hsum (.pop task)
    simp only [workerStep, htasks, State.ahead, Worker.ahead, List.length_set] at *
    omega
  | pop task =>
    obtain ⟨rest, htasks⟩ := List.head?_eq_some_iff.1 hknows
    have := hsum (.unlock task)
    simp only [workerStep, htasks, State.ahead, Worker.ahead, List.length_set, List.tail_cons,
      List.length_cons] at *
    omega
  | block =>
    have := hsum .waiting
    simp only [workerStep, State.ahead, Worker.ahead, List.length_set] at *
    omega
  | leave =>
    have := hsum .exited
    simp only [workerStep, State.ahead, Worker.ahead, List.length_set] at *
    omega
  | unlock task =>
    have := hsum (.run task)
    simp only [workerStep, State.ahead, Worker.ahead, List.length_set] at *
    omega
  | run task =>
    have := hsum .lock
    simp only [workerStep, State.ahead, Worker.ahead, List.length_set] at *
    omega

theorem ahead_callerStep (hj : σ.callers[j]? = some (task, c)) (woken : ℕ) :
    callerStep j woken task c σ = σ ∨ (callerStep j woken task c σ).ahead < σ.ahead := by
  have hsum (c' : Caller) := sum_map_set (fun c => Caller.ahead c.2) (task, c') hj
  cases c with
  | done | thrown => exact .inl rfl
  | lock =>
    by_cases hfree : σ.queue_mutex = none
    · have := hsum .test
      simp only [callerStep, hfree, if_true, State.ahead, Caller.ahead] at *
      omega
    · exact .inl (if_neg hfree)
  | test =>
    right
    have := hsum .raise
    have := hsum .emplace
    simp only [callerStep, State.ahead, Caller.ahead] at *
    split <;> omega
  | emplace =>
    have := hsum .unlock
    simp only [callerStep, State.ahead, Caller.ahead, List.length_append,
      List.length_singleton] at *
    omega
  | unlock =>
    have := hsum .notify
    simp only [callerStep, State.ahead, Caller.ahead] at *
    omega
  | notify =>
    have := hsum .done
    have := ahead_notifyOne woken σ.workers
    simp only [callerStep, State.ahead, Caller.ahead, length_notifyOne] at *
    omega
  | raise =>
    have := hsum .thrown
    simp only [callerStep, State.ahead, Caller.ahead] at *
    omega

theorem ahead_destructorStep (σ : State α) :
    destructorStep σ = σ ∨ (destructorStep σ).ahead < σ.ahead := by
  cases hpos : σ.destructor with
  | idle | done => exact .inl (by rw [destructorStep, hpos])
  | lock =>
    by_cases hfree : σ.queue_mutex = none
    · simp only [destructorStep, hpos, hfree, if_true, State.ahead, Destructor.ahead]
      omega
    · exact .inl (by simp only [destructorStep, hpos, hfree, if_false])
  | stop | unlock =>
    simp only [destructorStep, hpos, State.ahead, Destructor.ahead]
    omega
  | notify =>
    have := ahead_notifyAll σ.workers
    have hlength : (notifyAll σ.workers).length = σ.workers.length := List.length_map _
    simp only [destructorStep, hpos, State.ahead, Destructor.ahead, hlength]
    omega
  | join i =>
    cases hi : σ.workers[i]? with
    | none =>
      simp only [destructorStep, hpos, hi, State.ahead, Destructor.ahead]
      omega
    | some w =>
      have hlt : i < σ.workers.length := (List.getElem?_eq_some_iff.1 hi).1
      cases w with
      | exited =>
        simp only [destructorStep, hpos, hi, State.ahead, Destructor.ahead]
        omega
      | _ => exact .inl (by simp only [destructorStep, hpos, hi])

theorem ahead_step (h : Inv σ) {event : Event} (hown : event.Own) :
    step event σ = σ ∨ (step event σ).ahead < σ.ahead := by
  cases event with
  | worker i =>
    cases hi : σ.workers[i]? with
    | none => exact .inl (by simp only [step, hi])
    | some w => simpa only [step, hi] using ahead_workerStep h hi
  | enqueue j woken =>
    cases hj : σ.callers[j]? with
    | none => exact .inl (by simp only [step, hj])
    | some c => simpa only [step, hj] using ahead_callerStep hj woken
  | destroy => exact ahead_destructorStep σ
  | spurious i => exact hown.elim

end Progress

/-! ## At rest -/

section Rest

variable {α : Type*} {σ : State α} {i j : ℕ} {w : Worker α} {task : α} {c : Caller}

/-- A worker that gets nowhere sleeps or has returned, unless another thread has the mutex. -/
theorem Inv.worker_stuck (h : Inv σ) (hi : σ.workers[i]? = some w)
    (hstuck : step (.worker i) σ = σ) :
    w = .waiting ∨ w = .exited ∨ w = .lock ∧ σ.queue_mutex ≠ none := by
  have hknows := h.workers w (List.mem_of_getElem? hi)
  have hlt : i < σ.workers.length := (List.getElem?_eq_some_iff.1 hi).1
  have hstay : (workerStep i w σ).workers[i]? = some w := by
    have hstep : workerStep i w σ = σ := by simpa only [step, hi] using hstuck
    rw [hstep, hi]
  cases w with
  | waiting => exact .inl rfl
  | exited => exact .inr (.inl rfl)
  | crashed => exact hknows.elim
  | lock =>
    refine .inr (.inr ⟨rfl, fun hfree => ?_⟩)
    simp [workerStep, hfree, hlt] at hstay
  | front =>
    obtain ⟨task, rest, htasks⟩ := List.exists_cons_of_ne_nil hknows
    simp [workerStep, htasks, hlt] at hstay
  | test | decide =>
    simp only [workerStep, List.getElem?_set_self hlt] at hstay
    split at hstay <;> cases hstay
  | _ => simp [workerStep, hlt] at hstay

/-- A call that gets nowhere has returned, unless another thread has the mutex. -/
theorem caller_stuck (hj : σ.callers[j]? = some (task, c)) {woken : ℕ}
    (hstuck : step (.enqueue j woken) σ = σ) :
    c = .done ∨ c = .thrown ∨ c = .lock ∧ σ.queue_mutex ≠ none := by
  have hlt : j < σ.callers.length := (List.getElem?_eq_some_iff.1 hj).1
  have hstay : (callerStep j woken task c σ).callers[j]? = some (task, c) := by
    have hstep : callerStep j woken task c σ = σ := by simpa only [step, hj] using hstuck
    rw [hstep, hj]
  cases c with
  | done => exact .inl rfl
  | thrown => exact .inr (.inl rfl)
  | lock =>
    refine .inr (.inr ⟨rfl, fun hfree => ?_⟩)
    simp [callerStep, hfree, hlt] at hstay
  | test =>
    simp only [callerStep, List.getElem?_set_self hlt] at hstay
    split at hstay <;> cases hstay
  | _ => simp [callerStep, hlt] at hstay

/-- A destructor that gets nowhere is not called, has returned or joins a worker, unless another
thread has the mutex. -/
theorem destructor_stuck (hstuck : step .destroy σ = σ) :
    σ.destructor = .idle ∨ σ.destructor = .done ∨
      (σ.destructor = .lock ∧ σ.queue_mutex ≠ none) ∨
      ∃ i w, σ.destructor = .join i ∧ σ.workers[i]? = some w ∧ w ≠ .exited := by
  have hstay : (destructorStep σ).destructor = σ.destructor := congrArg State.destructor hstuck
  cases hpos : σ.destructor with
  | idle => exact .inl rfl
  | done => exact .inr (.inl rfl)
  | lock =>
    refine .inr (.inr (.inl ⟨rfl, fun hfree => ?_⟩))
    simp [destructorStep, hpos, hfree] at hstay
  | join i =>
    refine .inr (.inr (.inr ?_))
    cases hi : σ.workers[i]? with
    | none => simp [destructorStep, hpos, hi] at hstay
    | some w =>
      refine ⟨i, w, rfl, hi, fun hexited => ?_⟩
      simp [destructorStep, hpos, hi, hexited] at hstay
  | _ => simp [destructorStep, hpos] at hstay

/-- Somebody gets on while the mutex is taken. -/
theorem Inv.mutex_free (h : Inv σ) (hworkers : ∀ i, step (.worker i) σ = σ)
    (hcallers : ∀ j c, σ.callers[j]? = some c → c.2.Holds → ∃ woken, step (.enqueue j woken) σ = σ)
    (hdestructor : step .destroy σ = σ) : σ.queue_mutex = none := by
  cases hmutex : σ.queue_mutex with
  | none => rfl
  | some t =>
    have hholds := (h.owned t).2 hmutex
    cases t with
    | worker i =>
      obtain ⟨w, hi, hw⟩ := hholds
      rcases h.worker_stuck hi (hworkers i) with rfl | rfl | ⟨rfl, -⟩ <;> exact hw.elim
    | enqueue j =>
      obtain ⟨⟨task, c⟩, hj, hc⟩ := hholds
      obtain ⟨woken, hstuck⟩ := hcallers j _ hj hc
      rcases caller_stuck hj hstuck with rfl | rfl | ⟨rfl, -⟩ <;> exact hc.elim
    | destroy =>
      change σ.destructor.Holds at hholds
      rcases destructor_stuck hdestructor with hd | hd | ⟨hd, -⟩ | ⟨i, w, hd, -⟩ <;>
        rw [hd] at hholds <;> exact False.elim hholds

/-- At rest the workers sleep or have returned. -/
theorem Inv.workers_rest (h : Inv σ) (hfree : σ.queue_mutex = none)
    (hworkers : ∀ i, step (.worker i) σ = σ) (hw : w ∈ σ.workers) :
    w = .waiting ∨ w = .exited := by
  obtain ⟨i, hi⟩ := List.mem_iff_getElem?.1 hw
  rcases h.worker_stuck hi (hworkers i) with hwaiting | hexited | ⟨-, hne⟩
  · exact .inl hwaiting
  · exact .inr hexited
  · exact absurd hfree hne

/-- **No wake-up is lost**: when the workers rest and no call is going to notify one, there is
nothing left in the queue. -/
theorem Inv.tasks_rest (h : Inv σ) (hsome : σ.workers ≠ [])
    (hworkers : ∀ w ∈ σ.workers, w = .waiting ∨ w = .exited)
    (hcallers : ∀ c ∈ σ.callers, ¬ c.2.Pending) : σ.tasks = [] := by
  rcases h.awake with hnone | hnone | ⟨w, hw, hawake⟩ | ⟨c, hc, hpending⟩
  · exact hnone
  · exact absurd hnone hsome
  · rcases hworkers w hw with rfl | rfl <;> exact hawake.elim
  · exact absurd hpending (hcallers c hc)

/-- What the resting workers have taken is finished. -/
theorem Inv.finished_perm (h : Inv σ) (hworkers : ∀ w ∈ σ.workers, w = .waiting ∨ w = .exited)
    (htasks : σ.tasks = []) : σ.finished.Perm σ.pushed := by
  have hhands : (σ.workers.map Worker.inHand).sum = 0 := by
    refine List.sum_eq_zero fun m hm => ?_
    obtain ⟨w, hw, rfl⟩ := List.mem_map.1 hm
    rcases hworkers w hw with rfl | rfl <;> rfl
  have htaken := h.hands
  rw [hhands, zero_add] at htaken
  rw [← h.order, htasks, List.append_nil]
  exact Multiset.coe_eq_coe.1 htaken

/-- What was put into the queue are the tasks of the calls that have returned. -/
theorem sent_of_returned {callers : List (α × Caller)}
    (hreturned : ∀ c ∈ callers, c.2 = .done ∨ c.2 = .thrown) :
    (callers.map Caller.sent).sum = ((callers.filter (·.2 = .done)).map Prod.fst : List α) := by
  induction callers with
  | nil => rfl
  | cons c callers ih =>
    obtain ⟨task, c⟩ := c
    have hrest := ih fun c hc => hreturned c (List.mem_cons_of_mem _ hc)
    rcases hreturned _ List.mem_cons_self with rfl | rfl
    · simp [hrest, Caller.sent]
    · simp [hrest, Caller.sent]

end Rest

end ThreadPool

end TPST
