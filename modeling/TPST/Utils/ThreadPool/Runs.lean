import TPST.Utils.ThreadPool.Progress

/-!
# Runs of the thread pool

* `tasks_in_order`: at every moment of every run, where the tasks are.
* `finished_of_destructor`: what a destructor that has returned leaves behind.
* `fair_runs_finish`: under a fair schedule the workers come to the end of the queue.
-/

namespace TPST

open Schedule

namespace ThreadPool

section Runs

variable {α : Type*} {σ : State α}

/-- What no step changes: how many workers there are, which calls, and whether the destructor is
one of the threads. -/
def State.shape (σ : State α) : ℕ × List α × Bool :=
  (σ.workers.length, σ.callers.map Prod.fst, σ.destructor = .idle)

theorem shape_step (event : Event) (σ : State α) : (step event σ).shape = σ.shape := by
  cases event with
  | worker i =>
    simp only [step]
    split
    · rfl
    · rename_i w _
      cases w <;> simp only [workerStep] <;> (try split) <;> simp [State.shape]
  | enqueue j woken =>
    simp only [step]
    split
    · rfl
    · rename_i task c hj
      have hcallers (c' : Caller) : (σ.callers.set j (task, c')).map Prod.fst =
          σ.callers.map Prod.fst := map_set_of_eq Prod.fst hj rfl
      cases c <;> simp only [callerStep] <;> (try split) <;>
        simp [State.shape, hcallers, length_notifyOne]
  | destroy =>
    cases hpos : σ.destructor <;> simp only [step, destructorStep, hpos] <;> (try split) <;>
      simp [State.shape, hpos, notifyAll]
  | spurious i =>
    simp only [step]
    split <;> simp [State.shape]

theorem shape_start (threads : ℕ) (calls : List α) (destroyed : Bool) :
    (start threads calls destroyed).shape = (threads, calls, !destroyed) := by
  cases destroyed <;> simp [State.shape, start, Function.comp_def]

theorem shape_run (threads : ℕ) (calls : List α) (destroyed : Bool) (events : List Event) :
    (run step events (start threads calls destroyed)).shape = (threads, calls, !destroyed) := by
  rw [← shape_start]
  generalize start threads calls destroyed = σ
  induction events generalizing σ with
  | nil => rfl
  | cons e events ih => rw [run_cons, ih, shape_step]

/-- **Each task is taken in its turn and once.** In every run the tasks are taken in the order in
which they were put into the queue; those that were taken are finished or in the hands of one
worker; those that were put there are the tasks of the calls that came so far; and no worker takes
from an empty queue. -/
theorem tasks_in_order (threads : ℕ) (calls : List α) (destroyed : Bool) (events : List Event) :
    let σ := run step events (start threads calls destroyed)
    σ.taken ++ σ.tasks = σ.pushed ∧
      (σ.workers.map Worker.inHand).sum + σ.finished = σ.taken ∧
      (σ.callers.map Caller.sent).sum = σ.pushed ∧
      (∀ w ∈ σ.workers, w ≠ .crashed) ∧ ∀ t t', σ.Holds t → σ.Holds t' → t = t' := by
  have h := inv_run threads calls destroyed events
  refine ⟨h.order, h.hands, h.sent, fun w hw heq => ?_, fun t t' => h.owned.eq⟩
  exact (heq ▸ h.workers w hw : Worker.Knows _ _ .crashed)

/-- Nothing is put into the queue of a pool that is stopped, and it stays stopped. -/
theorem pushed_of_stop (h : Inv σ) (hstop : σ.stop = true) (event : Event) :
    (step event σ).stop = true ∧ (step event σ).pushed = σ.pushed := by
  cases event with
  | worker i =>
    simp only [step]
    split
    · exact ⟨hstop, rfl⟩
    · rename_i w _
      cases w <;> simp only [workerStep] <;> (try split) <;> simp [hstop]
  | enqueue j woken =>
    simp only [step]
    split
    · exact ⟨hstop, rfl⟩
    · rename_i task c hj
      have hknows := h.callers _ (List.mem_of_getElem? hj)
      cases c with
      | emplace => exact absurd (hknows.symm.trans hstop) Bool.false_ne_true
      | lock => simp only [callerStep]; split <;> exact ⟨hstop, rfl⟩
      | _ => exact ⟨hstop, rfl⟩
  | destroy =>
    cases hpos : σ.destructor <;> simp only [step, destructorStep, hpos] <;> (try split) <;>
      simp [hstop]
  | spurious i =>
    simp only [step]
    split <;> exact ⟨hstop, rfl⟩

/-- **The destructor waits for every task.** When it has returned, all workers have, every task that
was ever put into the queue is finished, and none will be put there. -/
theorem finished_of_destructor {threads : ℕ} (hthreads : 0 < threads) (calls : List α)
    (events : List Event)
    (hdone : (run step events (start threads calls true)).destructor = .done)
    (later : List Event) :
    let σ := run step events (start threads calls true)
    (∀ w ∈ σ.workers, w = .exited) ∧ σ.tasks = [] ∧ σ.finished.Perm σ.pushed ∧
      (run step later σ).pushed = σ.pushed := by
  intro σ
  have h : Inv σ := inv_run threads calls true events
  have hdone : σ.destructor = .done := hdone
  have hknows := h.destructor
  rw [hdone] at hknows
  have hlength : σ.workers.length = threads :=
    congrArg Prod.fst (shape_run threads calls true events)
  have htasks : σ.tasks = [] := by
    obtain ⟨w, hw⟩ := List.exists_mem_of_length_pos (hlength ▸ hthreads)
    have hw' := h.workers w hw
    rw [hknows.2 w hw] at hw'
    exact hw'.1
  refine ⟨hknows.2, htasks, h.finished_perm (fun w hw => .inr (hknows.2 w hw)) htasks, ?_⟩
  let Closed (σ' : State α) : Prop := Inv σ' ∧ σ'.stop = true ∧ σ'.pushed = σ.pushed
  have hstep : ∀ e σ', Closed σ' → Closed (step e σ') := by
    intro e σ' h'
    obtain ⟨hstop, hpushed⟩ := pushed_of_stop h'.1 h'.2.1 e
    exact ⟨inv_step h'.1 e, hstop, hpushed.trans h'.2.2⟩
  have hlater : Closed (run step later σ) :=
    (always_of_invariant hstep (fun _ h' => h') ⟨h, hknows.1, rfl⟩ later).run
  exact hlater.2.2

/-- A call that comes before the destructor. -/
theorem finished_of_destructor_one :
    let events : List Event := .replicate 5 (.enqueue 0 0) ++ .replicate 4 .destroy ++
      .replicate 11 (.worker 0) ++ .replicate 2 .destroy
    let σ := run step events (start 1 ["a"] true)
    σ.finished.Perm σ.pushed ∧ (run step [.enqueue 0 0] σ).pushed = σ.pushed := by
  have h := finished_of_destructor (by decide : 0 < 1) ["a"]
    (.replicate 5 (.enqueue 0 0) ++ .replicate 4 .destroy ++ .replicate 11 (.worker 0) ++
      .replicate 2 .destroy) (by decide) [.enqueue 0 0]
  exact h.2.2

/-- A thread is there. -/
def Live : Thread → State α → Prop
  | .worker i, σ => i < σ.workers.length
  | .enqueue j, σ => j < σ.callers.length
  | .destroy, _ => True

/-- The event is a step of the thread. -/
def Moves : Thread → Event → Prop
  | .worker i, e => e = .worker i
  | .enqueue j, e => ∃ woken, e = .enqueue j woken
  | .destroy, e => e = .destroy

/-- At rest every call has returned and its task is finished, and so has the destructor if it is
called. -/
theorem Inv.rest (h : Inv σ) (hrest : AtRest step Live Moves σ) (hsome : σ.workers ≠ []) :
    σ.tasks = [] ∧ (∀ c ∈ σ.callers, c.2 = .done ∨ c.2 = .thrown) ∧
      σ.finished.Perm ((σ.callers.filter (·.2 = .done)).map Prod.fst) ∧
      (∀ w ∈ σ.workers, w = .waiting ∨ w = .exited) ∧
      (σ.destructor = .idle ∨ σ.destructor = .done) := by
  have hworkers : ∀ i, step (.worker i) σ = σ := by
    intro i
    by_cases hlt : i < σ.workers.length
    · obtain ⟨_, rfl, hstuck⟩ := hrest (.worker i) hlt
      exact hstuck
    · simp only [step, List.getElem?_eq_none (Nat.not_lt.1 hlt)]
  have hcallers : ∀ j c, σ.callers[j]? = some c → ∃ woken, step (.enqueue j woken) σ = σ := by
    intro j c hj
    obtain ⟨_, ⟨woken, rfl⟩, hstuck⟩ := hrest (.enqueue j) (List.getElem?_eq_some_iff.1 hj).1
    exact ⟨woken, hstuck⟩
  obtain ⟨_, rfl, hdestructor⟩ := hrest .destroy trivial
  have hfree := h.mutex_free hworkers (fun j c hj _ => hcallers j c hj) hdestructor
  have hasleep := fun w (hw : w ∈ σ.workers) => h.workers_rest hfree hworkers hw
  have hreturned : ∀ c ∈ σ.callers, c.2 = .done ∨ c.2 = .thrown := by
    intro c hc
    obtain ⟨j, hj⟩ := List.mem_iff_getElem?.1 hc
    obtain ⟨woken, hstuck⟩ := hcallers j c hj
    exact (caller_stuck hj hstuck).imp_right (Or.resolve_right · fun hne => hne.2 hfree)
  have htasks : σ.tasks = [] := by
    refine h.tasks_rest hsome hasleep fun c hc hpending => ?_
    rcases hreturned c hc with heq | heq <;> rw [heq] at hpending <;> exact False.elim hpending
  refine ⟨htasks, hreturned, ?_, hasleep, ?_⟩
  · refine (h.finished_perm hasleep htasks).trans (Multiset.coe_eq_coe.1 ?_)
    rw [← h.sent, sent_of_returned hreturned]
  · rcases destructor_stuck hdestructor with hd | hd | ⟨-, hne⟩ | ⟨i, w, hd, hi, hne⟩
    · exact .inl hd
    · exact .inr hd
    · exact absurd hfree hne
    · -- a worker that is to be joined does not sleep any more
      have hknows := h.destructor
      rw [hd] at hknows
      have hw := List.mem_of_getElem? hi
      exact absurd (hasleep w hw) (not_or.2 ⟨hknows.2.1 w hw, hne⟩)

/-- **No wake-up is lost, and nobody waits for ever.** A pool with at least one worker, under a
schedule in which every thread moves again and the workers wake up by themselves only finitely
often: from some moment on the queue is empty, every call has returned and its task is finished;
without the destructor no call has thrown, and the destructor returns when all workers have. -/
theorem fair_runs_finish {threads : ℕ} (hthreads : 0 < threads) (calls : List α) (destroyed : Bool)
    (f : ℕ → Event) (hfair : Fair step Live Moves f (start threads calls destroyed))
    (hown : ∃ N, ∀ n, N ≤ n → (f n).Own) :
    ∃ N, ∀ n, N ≤ n → let σ := states step f (start threads calls destroyed) n
      σ.tasks = [] ∧ σ.callers.map Prod.fst = calls ∧
        (∀ c ∈ σ.callers, c.2 = .done ∨ destroyed = true ∧ c.2 = .thrown) ∧
        σ.finished.Perm ((σ.callers.filter (·.2 = .done)).map Prod.fst) ∧
        if destroyed then σ.destructor = .done ∧ ∀ w ∈ σ.workers, w = .exited
        else ∀ w ∈ σ.workers, w = .waiting := by
  have hstep : ∀ e (σ : State α), Inv σ → Inv (step e σ) := fun e _ h => inv_step h e
  have hlower : ∀ (e : Event) (σ : State α), Inv σ → e.Own →
      step e σ = σ ∨ (step e σ).ahead < σ.ahead := fun e σ h => ahead_step h
  obtain ⟨N, hrest, hstill⟩ := eventually_atRest hstep hlower
    (inv_start threads calls destroyed) hown hfair
  refine ⟨N, fun n hn => ?_⟩
  rw [hstill n hn]
  generalize hσ : states step f (start threads calls destroyed) N = σ at hrest ⊢
  have h : Inv σ := hσ ▸ states_induction hstep (inv_start threads calls destroyed) N
  have hshape : σ.shape = (threads, calls, !destroyed) := by
    rw [← hσ, states_eq_run, shape_run]
  obtain ⟨hlength, hcalls, hidle⟩ : σ.workers.length = threads ∧
      σ.callers.map Prod.fst = calls ∧ decide (σ.destructor = .idle) = !destroyed := by
    simpa [State.shape] using hshape
  have hsome : σ.workers ≠ [] := List.length_pos_iff.1 (hlength ▸ hthreads)
  obtain ⟨htasks, hreturned, hfinished, hasleep, hdestructor⟩ := h.rest hrest hsome
  have hknows := h.destructor
  cases destroyed with
  | true =>
    have hdone : σ.destructor = .done := hdestructor.resolve_left (by simpa using hidle)
    rw [hdone] at hknows
    refine ⟨htasks, hcalls, fun c hc => ?_, hfinished, ?_⟩
    · exact (hreturned c hc).imp_right fun hthrown => ⟨rfl, hthrown⟩
    · exact ⟨hdone, hknows.2⟩
  | false =>
    -- the pool is not stopped, so no call has thrown and no worker has returned
    have hrunning : σ.stop = false := by
      rw [show σ.destructor = .idle by simpa using hidle] at hknows
      exact hknows
    refine ⟨htasks, hcalls, fun c hc => ?_, hfinished, fun w hw => ?_⟩
    · refine .inl ((hreturned c hc).resolve_right fun hthrown => ?_)
      have hstop := h.callers c hc
      rw [hthrown] at hstop
      exact absurd (hrunning.symm.trans hstop) Bool.false_ne_true
    · refine (hasleep w hw).resolve_right fun hexited => ?_
      have hstop := h.workers w hw
      rw [hexited] at hstop
      exact absurd (hrunning.symm.trans hstop.2) Bool.false_ne_true

/-- The steps of all threads, one of each. -/
def inTurn (k : ℕ) : Event :=
  if k % 3 = 0 then .worker (k / 3) else if k % 3 = 1 then .enqueue (k / 3) 0 else .destroy

/-- Threads that take turns are scheduled fairly. -/
theorem fair_inTurn (σ : State α) : Fair step Live Moves (rounds inTurn) σ := by
  intro t n _
  cases t with
  | worker i =>
    obtain ⟨m, hm, heq⟩ := rounds_recurs inTurn (3 * i) n
    refine ⟨m, hm, ?_⟩
    rw [heq, inTurn, if_pos (by omega), show 3 * i / 3 = i by omega]
    rfl
  | enqueue j =>
    obtain ⟨m, hm, heq⟩ := rounds_recurs inTurn (3 * j + 1) n
    refine ⟨m, hm, 0, ?_⟩
    rw [heq, inTurn, if_neg (by omega), if_pos (by omega), show (3 * j + 1) / 3 = j by omega]
  | destroy =>
    obtain ⟨m, hm, heq⟩ := rounds_recurs inTurn 2 n
    exact ⟨m, hm, heq⟩

/-- Three calls and the destructor of a pool with two workers, in turn. -/
theorem inTurn_finish :
    ∃ N, ∀ n, N ≤ n →
      let σ := states step (rounds inTurn) (start 2 ["a", "b", "a"] true) n
      σ.destructor = .done ∧ ∀ w ∈ σ.workers, w = .exited := by
  obtain ⟨N, hN⟩ := fair_runs_finish (by decide : 0 < 2) ["a", "b", "a"] true (rounds inTurn)
    (fair_inTurn _) ⟨0, fun n _ => by
      unfold rounds inTurn
      split
      · trivial
      · split <;> trivial⟩
  exact ⟨N, fun n hn => (hN n hn).2.2.2.2⟩

end Runs

/-! ## A call among others -/

section Calls

variable {α : Type*} {σ : State α} {j : ℕ}

/-- A call moves by its own steps only. -/
theorem callers_step_of_ne {event : Event} (h : ∀ woken, event ≠ .enqueue j woken) :
    (step event σ).callers[j]? = σ.callers[j]? := by
  cases event with
  | worker i =>
    simp only [step]
    split
    · rfl
    · rename_i w _
      cases w <;> simp only [workerStep] <;> (try split) <;> rfl
  | enqueue k woken =>
    have hkj : k ≠ j := fun heq => h woken (heq ▸ rfl)
    simp only [step]
    split
    · rfl
    · rename_i task c _
      cases c <;> simp only [callerStep] <;> (try split) <;> simp [List.getElem?_set_ne hkj]
  | destroy =>
    cases hpos : σ.destructor <;> simp only [step, destructorStep, hpos] <;> (try split) <;> rfl
  | spurious i =>
    simp only [step]
    split <;> rfl

/-- A call that has returned stays where it is. -/
theorem callers_step_of_done {task : α} (hj : σ.callers[j]? = some (task, .done)) (event : Event) :
    (step event σ).callers[j]? = some (task, .done) := by
  by_cases h : ∃ woken, event = .enqueue j woken
  · obtain ⟨woken, rfl⟩ := h
    simp only [step, hj, callerStep]
  · rw [callers_step_of_ne fun woken heq => h ⟨woken, heq⟩]
    exact hj

end Calls

end ThreadPool

end TPST
