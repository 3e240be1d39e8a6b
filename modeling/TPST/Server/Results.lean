import Mathlib.Algebra.Order.BigOperators.Group.List
import Mathlib.Data.Multiset.OrderedMonoid
import TPST.Utils.ThreadPool.Runs

/-!
# The results of the tasks

`startNotify` enqueues a task for every client of a row in the thread pool, and puts the future that
it gets into `resultQueue`, under `resultmutex`. The thread of `check` takes the futures from the
queue and waits for each, and it keeps `resultmutex` while it waits.

This is a model of the thread pool, of any number of threads in `startNotify` and of `check`, under
any interleaving of their steps. The tasks are numbered in the order of the calls. `check` reads the
size of the queue without the mutex, as an `int`.

The pool takes its own steps here (`inv_run`), a call of `enqueue` those that its thread gives it.
No thread waits for ever, although `check` waits with the mutex (`fair_runs_collect`): a task never
takes `resultmutex`, and its future is in the queue only behind the task in the pool.
-/

namespace TPST

open Schedule ThreadPool

namespace Results

/-- Where a thread in `startNotify` is, with the calls of `enqueue` that are left. -/
inductive Handler
  /-- In the call `j` of `enqueue`. -/
  | enqueue (j : ℕ) (rest : List ℕ)
  /-- Taking `resultmutex`. -/
  | lock (j : ℕ) (rest : List ℕ)
  | push (j : ℕ) (rest : List ℕ)
  | unlock (rest : List ℕ)
  | done
  /-- The pool was stopped. -/
  | raised
  deriving DecidableEq, Repr

/-- Where `check` is, with the rounds its loop has left. -/
inductive Checker
  /-- Reading the size of the queue. -/
  | poll
  /-- Testing the counter, and taking `resultmutex`. -/
  | round (rounds : ℕ)
  | front (rounds : ℕ)
  /-- Waiting for the result. -/
  | get (j rounds : ℕ)
  | pop (j rounds : ℕ)
  | unlock (rounds : ℕ)
  /-- The first element of an empty queue was read. -/
  | crashed
  deriving DecidableEq, Repr

/-- The threads that use `resultmutex`. -/
inductive User
  | handler (i : ℕ)
  | check
  deriving DecidableEq, Repr

/-- The pool, the queue and the threads, and the history. -/
structure State where
  pool : ThreadPool.State ℕ
  handlers : List Handler
  checker : Checker
  resultmutex : Option User
  resultQueue : List ℕ
  /-- The calls whose futures were put into the queue. -/
  recorded : List ℕ
  /-- Those whose results `check` has got. -/
  collected : List ℕ
  deriving DecidableEq

/-- What happens next: a worker, a thread in `startNotify` or `check` takes its next step, or a
worker wakes up by itself. -/
inductive Event
  | worker (i : ℕ)
  | handler (i woken : ℕ)
  | check
  | spurious (i : ℕ)
  deriving DecidableEq, Repr

/-- The next call of `enqueue`, if one is left. -/
def Handler.next : List ℕ → Handler
  | [] => .done
  | j :: rest => .enqueue j rest

/-- The next step of the thread `i` in `startNotify`. -/
def handlerStep (i woken : ℕ) (handler : Handler) (σ : State) : State :=
  let goto : Handler → List Handler := σ.handlers.set i
  match handler with
  | .enqueue j rest =>
    match σ.pool.callers[j]? with
    | some (_, .done) => { σ with handlers := goto (.lock j rest) }
    | some (_, .thrown) => { σ with handlers := goto .raised }
    | _ => { σ with pool := ThreadPool.step (.enqueue j woken) σ.pool }
  | .lock j rest =>
    if σ.resultmutex = none then
      { σ with handlers := goto (.push j rest), resultmutex := some (.handler i) }
    else σ
  | .push j rest =>
    { σ with
      handlers := goto (.unlock rest)
      resultQueue := σ.resultQueue ++ [j]
      recorded := σ.recorded ++ [j] }
  | .unlock rest => { σ with handlers := goto (.next rest), resultmutex := none }
  | .done => σ
  | .raised => σ

/-- The next step of `check`. -/
def checkStep (σ : State) : State :=
  match σ.checker with
  | .poll =>
    let size : Int := (σ.resultQueue.length : Int).bmod (2 ^ 32)
    { σ with checker := if 0 < size then .round size.toNat else .poll }
  | .round 0 => { σ with checker := .poll }
  | .round (rounds + 1) =>
    if σ.resultmutex = none then
      { σ with checker := .front rounds, resultmutex := some .check }
    else σ
  | .front rounds =>
    match σ.resultQueue with
    | [] => { σ with checker := .crashed }
    | j :: _ => { σ with checker := .get j rounds }
  | .get j rounds =>
    if j ∈ σ.pool.finished then { σ with checker := .pop j rounds } else σ
  | .pop j rounds =>
    { σ with
      checker := .unlock rounds
      resultQueue := σ.resultQueue.tail
      collected := σ.collected ++ [j] }
  | .unlock rounds => { σ with checker := .round rounds, resultmutex := none }
  | .crashed => σ

/-- One step. -/
def step (event : Event) (σ : State) : State :=
  match event with
  | .worker i => { σ with pool := ThreadPool.step (.worker i) σ.pool }
  | .handler i woken =>
    match σ.handlers[i]? with
    | none => σ
    | some handler => handlerStep i woken handler σ
  | .check => checkStep σ
  | .spurious i => { σ with pool := ThreadPool.step (.spurious i) σ.pool }

/-- The calls of `enqueue` of threads that make `sizes` calls each, numbered from `k` on. -/
def numbered (k : ℕ) : List ℕ → List (List ℕ)
  | [] => []
  | size :: sizes => List.range' k size :: numbered (k + size) sizes

/-- A pool with some workers, a thread in `startNotify` for each row of clients, by the size of the
row, and `check`. -/
def start (threads : ℕ) (sizes : List ℕ) : State where
  pool := ThreadPool.start threads (List.range sizes.sum) false
  handlers := (numbered 0 sizes).map .next
  checker := .poll
  resultmutex := none
  resultQueue := []
  recorded := []
  collected := []

/-! ## What the positions say -/

/-- The thread has `resultmutex`. -/
def Handler.Holds : Handler → Prop
  | .push _ _ | .unlock _ => True
  | _ => False

def Checker.Holds : Checker → Prop
  | .front _ | .get _ _ | .pop _ _ | .unlock _ => True
  | _ => False

def State.Holds (σ : State) : User → Prop
  | .handler i => ∃ handler, σ.handlers[i]? = some handler ∧ handler.Holds
  | .check => σ.checker.Holds

/-- The calls whose futures the thread has not put into the queue yet. -/
def Handler.left : Handler → Multiset ℕ
  | .enqueue j rest | .lock j rest | .push j rest => ↑(j :: rest)
  | .unlock rest => ↑rest
  | .done | .raised => 0

/-- A call of `enqueue` has returned its future. -/
def State.Returned (σ : State) (j : ℕ) : Prop :=
  ∃ task, σ.pool.callers[j]? = some (task, .done)

/-- What a thread knows of its call. -/
def Handler.Knows (σ : State) : Handler → Prop
  | .lock j _ | .push j _ => σ.Returned j
  | .raised => False
  | _ => True

/-- What `check` knows of the queue: nobody else takes elements from it. -/
def Checker.Knows (resultQueue : List ℕ) : Checker → Prop
  | .round rounds | .unlock rounds => rounds ≤ resultQueue.length
  | .front rounds => rounds < resultQueue.length
  | .get j rounds | .pop j rounds =>
    resultQueue.head? = some j ∧ rounds < resultQueue.length
  | .poll => True
  | .crashed => False

/-- The invariant of the system. -/
structure Inv (threads total : ℕ) (σ : State) : Prop where
  pool : ThreadPool.Inv σ.pool
  shape : σ.pool.shape = (threads, List.range total, true)
  /-- A call that is under way is the call of a thread. -/
  under_way : ∀ j task c, σ.pool.callers[j]? = some (task, c) →
    c = .lock ∨ c = .done ∨ ∃ handler ∈ σ.handlers, ∃ rest, handler = .enqueue j rest
  handlers : ∀ handler ∈ σ.handlers, handler.Knows σ
  checker : σ.checker.Knows σ.resultQueue
  owned : Owned σ.Holds σ.resultmutex
  recorded : ∀ j ∈ σ.recorded, σ.Returned j
  calls : (σ.handlers.map Handler.left).sum + σ.recorded = List.range total
  order : σ.collected ++ σ.resultQueue = σ.recorded

/-! ## Every step keeps the invariant -/

section Moves

variable {threads total i : ℕ} {σ : State} {handler handler' : Handler}

theorem Handler.Knows.of_returned {σ' : State} (h : handler.Knows σ)
    (hreturned : ∀ j, σ.Returned j → σ'.Returned j) : handler.Knows σ' := by
  cases handler with
  | lock j _ | push j _ => exact hreturned j h
  | raised => exact h
  | _ => trivial

theorem Checker.Knows.append {checker : Checker} {resultQueue : List ℕ}
    (h : checker.Knows resultQueue) (j : ℕ) : checker.Knows (resultQueue ++ [j]) := by
  have hlength : (resultQueue ++ [j]).length = resultQueue.length + 1 := by simp
  have hhead {k : ℕ} (hk : resultQueue.head? = some k) :
      (resultQueue ++ [j]).head? = some k := by simp [hk]
  cases checker with
  | round _ | unlock _ | front _ =>
    simp only [Checker.Knows, hlength] at h ⊢
    omega
  | get _ _ | pop _ _ => exact ⟨hhead h.1, by have := h.2; omega⟩
  | poll => trivial
  | crashed => exact h

/-- The pool takes a step that a worker or a thread in `enqueue` gives it. -/
theorem Inv.pool_move (h : Inv threads total σ) {event : ThreadPool.Event}
    (hevent : ∀ j woken, event = .enqueue j woken →
      ∃ handler ∈ σ.handlers, ∃ rest, handler = .enqueue j rest) :
    Inv threads total { σ with pool := ThreadPool.step event σ.pool } := by
  have hreturned : ∀ j, σ.Returned j →
      { σ with pool := ThreadPool.step event σ.pool : State }.Returned j := by
    rintro j ⟨task, hj⟩
    exact ⟨task, callers_step_of_done hj event⟩
  exact {
    pool := ThreadPool.inv_step h.pool event
    shape := (shape_step event σ.pool).trans h.shape
    under_way := by
      intro j task c hj
      by_cases hown : ∃ woken, event = .enqueue j woken
      · obtain ⟨woken, heq⟩ := hown
        exact .inr (.inr (hevent j woken heq))
      · refine h.under_way j task c ?_
        rwa [← callers_step_of_ne fun woken heq => hown ⟨woken, heq⟩]
    handlers := fun handler hmem => (h.handlers handler hmem).of_returned hreturned
    checker := h.checker
    owned := h.owned
    recorded := fun j hj => hreturned j (h.recorded j hj)
    calls := h.calls
    order := h.order }

theorem holds_handler (hi : σ.handlers[i]? = some handler) :
    σ.Holds (.handler i) ↔ handler.Holds := by
  simp only [State.Holds, hi, Option.some.injEq, exists_eq_left']

/-- A thread in `startNotify` goes on outside of `enqueue`. -/
theorem Inv.handler_move (h : Inv threads total σ) (hi : σ.handlers[i]? = some handler)
    {mutex : Option User} {resultQueue recorded : List ℕ}
    (hmutex : Handover (.handler i) handler.Holds handler'.Holds σ.resultmutex mutex)
    (hcall : ∀ j rest, handler = .enqueue j rest → σ.Returned j)
    (hknows : handler'.Knows σ) (hchecker : σ.checker.Knows resultQueue)
    (hrecorded : ∀ j ∈ recorded, σ.Returned j)
    (hcalls : handler'.left + recorded = handler.left + σ.recorded)
    (horder : σ.collected ++ resultQueue = recorded) :
    Inv threads total { σ with
      handlers := σ.handlers.set i handler'
      resultmutex := mutex
      resultQueue := resultQueue
      recorded := recorded } where
  pool := h.pool
  shape := h.shape
  under_way j task c hj := by
    rcases h.under_way j task c hj with hlock | hdone | ⟨other, hother, rest, heq⟩
    · exact .inl hlock
    · exact .inr (.inl hdone)
    · obtain ⟨k, hk⟩ := List.mem_iff_getElem?.1 hother
      by_cases hki : i = k
      · -- the thread leaves a call that has returned
        subst hki
        obtain rfl := Option.some.inj (hi.symm.trans hk)
        obtain ⟨task', hdone⟩ := hcall j rest heq
        exact .inr (.inl (congrArg Prod.snd (Option.some.inj (hj.symm.trans hdone))))
      · refine .inr (.inr ⟨other, List.mem_iff_getElem?.2 ⟨k, ?_⟩, rest, heq⟩)
        rw [List.getElem?_set_ne hki, hk]
  handlers := forall_mem_set h.handlers hknows
  checker := hchecker
  owned := by
    have hlt : i < σ.handlers.length := (List.getElem?_eq_some_iff.1 hi).1
    refine h.owned.move (t := .handler i) ?_ fun t ht => ?_
    · rw [holds_handler hi, holds_handler (List.getElem?_set_self hlt)]
      exact hmutex
    · cases t with
      | handler k =>
        have hk : i ≠ k := fun heq => ht (heq ▸ rfl)
        simp [State.Holds, List.getElem?_set_ne hk]
      | check => rfl
  recorded := hrecorded
  calls := sum_map_set_add hi h.calls (by rw [hcalls])
  order := horder

end Moves

section Steps

variable {threads total i : ℕ} {σ : State} {handler : Handler}

theorem left_next (rest : List ℕ) : (Handler.next rest).left = rest := by
  cases rest <;> rfl

/-- The pool is never stopped, so no call throws. -/
theorem Inv.stop_eq_false (h : Inv threads total σ) : σ.pool.stop = false := by
  have hidle : σ.pool.destructor = .idle :=
    of_decide_eq_true (congrArg (fun shape => shape.2.2) h.shape)
  have hknows := h.pool.destructor
  rwa [hidle] at hknows

theorem inv_handlerStep (h : Inv threads total σ) (hi : σ.handlers[i]? = some handler)
    (woken : ℕ) : Inv threads total (handlerStep i woken handler σ) := by
  have hmem := List.mem_of_getElem? hi
  have hknows := h.handlers handler hmem
  cases handler with
  | enqueue j rest =>
    have hpool : Inv threads total
        { σ with pool := ThreadPool.step (.enqueue j woken) σ.pool } := by
      refine h.pool_move fun k woken' heq => ?_
      obtain ⟨rfl, -⟩ := ThreadPool.Event.enqueue.inj heq
      exact ⟨_, hmem, rest, rfl⟩
    simp only [handlerStep]
    split
    · rename_i task hj
      exact h.handler_move hi (.keep Iff.rfl)
        (fun k _ heq => (Handler.enqueue.inj heq).1 ▸ ⟨task, hj⟩) ⟨task, hj⟩ h.checker h.recorded
        rfl h.order
    · rename_i task hj
      have hthrown := h.pool.callers _ (List.mem_of_getElem? hj)
      exact absurd (h.stop_eq_false.symm.trans hthrown) Bool.false_ne_true
    · exact hpool
  | lock j rest =>
    by_cases hfree : σ.resultmutex = none
    · rw [handlerStep, if_pos hfree]
      exact h.handler_move hi (hfree ▸ .acquire trivial) nofun hknows h.checker h.recorded rfl
        h.order
    · rw [handlerStep, if_neg hfree]
      exact h
  | push j rest =>
    refine h.handler_move hi (.keep Iff.rfl) nofun trivial (h.checker.append j) ?_ ?_ ?_
    · intro k hk
      rcases List.mem_append.1 hk with hk | hk
      · exact h.recorded k hk
      · exact List.mem_singleton.1 hk ▸ hknows
    · simp only [Handler.left, ← Multiset.coe_add, ← Multiset.cons_coe,
        ← Multiset.singleton_add]
      abel
    · rw [← List.append_assoc, h.order]
  | unlock rest =>
    refine h.handler_move hi (.release trivial ?_) nofun ?_ h.checker h.recorded ?_ h.order
    · cases rest <;> exact id
    · cases rest <;> trivial
    · rw [left_next]
      rfl
  | done => exact h
  | raised => exact h

/-- `check` goes on. -/
theorem Inv.check_move (h : Inv threads total σ) {checker : Checker} {mutex : Option User}
    {resultQueue collected : List ℕ}
    (hmutex : Handover .check σ.checker.Holds checker.Holds σ.resultmutex mutex)
    (hknows : checker.Knows resultQueue)
    (horder : collected ++ resultQueue = σ.collected ++ σ.resultQueue) :
    Inv threads total { σ with
      checker := checker
      resultmutex := mutex
      resultQueue := resultQueue
      collected := collected } where
  pool := h.pool
  shape := h.shape
  under_way := h.under_way
  handlers := h.handlers
  checker := hknows
  owned := h.owned.move (t := .check) hmutex fun t ht => by
    cases t with
    | handler k => rfl
    | check => exact absurd rfl ht
  recorded := h.recorded
  calls := h.calls
  order := horder.trans h.order

theorem inv_checkStep (h : Inv threads total σ) : Inv threads total (checkStep σ) := by
  have hknows := h.checker
  cases hpos : σ.checker with
  | poll =>
    generalize hsize : (σ.resultQueue.length : Int).bmod (2 ^ 32) = size
    have hle : size.toNat ≤ σ.resultQueue.length := hsize ▸ toNat_bmod_le _
    have hstep : checkStep σ =
        { σ with checker := if 0 < size then .round size.toNat else .poll } := by
      simp only [checkStep, hpos, hsize]
    rw [hstep]
    refine h.check_move ?_ ?_ rfl
    · rw [hpos]
      split <;> exact .keep Iff.rfl
    · split
      · exact hle
      · trivial
  | round rounds =>
    rw [hpos] at hknows
    cases rounds with
    | zero =>
      simp only [checkStep, hpos]
      exact h.check_move (hpos ▸ .keep Iff.rfl) trivial rfl
    | succ rounds =>
      by_cases hfree : σ.resultmutex = none
      · simp only [checkStep, hpos, if_pos hfree]
        exact h.check_move (hpos ▸ hfree ▸ .acquire trivial) hknows rfl
      · simp only [checkStep, hpos, if_neg hfree]
        exact h
  | front rounds =>
    rw [hpos] at hknows
    obtain ⟨j, rest, hqueue⟩ := List.exists_cons_of_length_pos (Nat.zero_lt_of_lt hknows)
    have hstep : checkStep σ = { σ with checker := .get j rounds } := by
      simp only [checkStep, hpos, hqueue]
    rw [hstep]
    exact h.check_move (hpos ▸ .keep Iff.rfl) ⟨by rw [hqueue]; rfl, hknows⟩ rfl
  | get j rounds =>
    rw [hpos] at hknows
    simp only [checkStep, hpos]
    split
    · exact h.check_move (hpos ▸ .keep Iff.rfl) hknows rfl
    · exact h
  | pop j rounds =>
    rw [hpos] at hknows
    obtain ⟨rest, hqueue⟩ := List.head?_eq_some_iff.1 hknows.1
    have hlength := hknows.2
    simp only [checkStep, hpos]
    refine h.check_move (hpos ▸ .keep Iff.rfl) ?_ ?_
    · rw [hqueue, List.length_cons] at hlength
      rw [hqueue, List.tail_cons]
      exact Nat.lt_succ_iff.1 hlength
    · rw [hqueue, List.tail_cons, List.append_assoc]
      rfl
  | unlock rounds =>
    rw [hpos] at hknows
    simp only [checkStep, hpos]
    exact h.check_move (hpos ▸ .release trivial id) hknows rfl
  | crashed =>
    rw [hpos] at hknows
    exact hknows.elim

theorem inv_step (h : Inv threads total σ) (event : Event) : Inv threads total (step event σ) := by
  cases event with
  | worker i => exact h.pool_move nofun
  | handler i woken =>
    cases hi : σ.handlers[i]? with
    | none => simpa only [step, hi] using h
    | some handler => simpa only [step, hi] using inv_handlerStep h hi woken
  | check => exact inv_checkStep h
  | spurious i => exact h.pool_move nofun

theorem left_numbered (k : ℕ) (sizes : List ℕ) :
    (((numbered k sizes).map Handler.next).map Handler.left).sum = List.range' k sizes.sum := by
  induction sizes generalizing k with
  | nil => rfl
  | cons size sizes ih =>
    rw [numbered, List.map_cons, List.map_cons, List.sum_cons, List.sum_cons, ih, left_next,
      Multiset.coe_add, List.range'_append_1]

theorem inv_start (threads : ℕ) (sizes : List ℕ) :
    Inv threads sizes.sum (start threads sizes) where
  pool := ThreadPool.inv_start threads _ false
  shape := shape_start threads _ false
  under_way j task c hj := by
    obtain ⟨_, -, heq⟩ := List.mem_map.1 (List.mem_of_getElem? hj)
    exact .inl (congrArg Prod.snd heq).symm
  handlers handler hmem := by
    obtain ⟨calls, -, rfl⟩ := List.mem_map.1 hmem
    cases calls <;> trivial
  checker := trivial
  owned t := by
    refine iff_of_false (fun ht => ?_) nofun
    cases t with
    | handler i =>
      obtain ⟨handler, hi, hholds⟩ := ht
      obtain ⟨calls, -, rfl⟩ := List.mem_map.1 (List.mem_of_getElem? hi)
      cases calls <;> exact hholds
    | check => exact ht
  recorded := nofun
  calls := by
    change (((numbered 0 sizes).map Handler.next).map Handler.left).sum + 0 = _
    rw [left_numbered, add_zero, List.range_eq_range']
  order := rfl

/-- **Every future is waited for once and in its turn**, and `check` never reads an empty queue. -/
theorem collected_in_order (threads : ℕ) (sizes : List ℕ) (events : List Event) :
    let σ := run step events (start threads sizes)
    σ.collected ++ σ.resultQueue = σ.recorded ∧
      (σ.handlers.map Handler.left).sum + σ.recorded = List.range sizes.sum ∧
      σ.checker ≠ .crashed ∧ ∀ handler ∈ σ.handlers, handler ≠ .raised := by
  have hstep : ∀ e σ, Inv threads sizes.sum σ → Inv threads sizes.sum (step e σ) :=
    fun e σ h => inv_step h e
  have h := (always_of_invariant hstep (fun _ h => h) (inv_start threads sizes) events).run
  refine ⟨h.order, h.calls, fun heq => ?_, fun handler hmem heq => ?_⟩
  · have hknows := h.checker
    rw [heq] at hknows
    exact hknows
  · exact (heq ▸ h.handlers handler hmem : Handler.Knows _ .raised)

end Steps

/-! ## Every result is collected -/

section Progress

variable {threads total i : ℕ} {σ : State} {handler : Handler}

/-- What the steps of a thread in `startNotify` outside of the pool are counted for. -/
def Handler.ahead : Handler → ℕ
  | .enqueue _ rest => 14 * rest.length + 14
  | .lock _ rest => 14 * rest.length + 13
  | .push _ rest => 14 * rest.length + 12
  | .unlock rest => 14 * rest.length + 1
  | .done | .raised => 0

def Checker.ahead : Checker → ℕ
  | .unlock _ => 9
  | .round 0 => 8
  | .poll => 7
  | .round (_ + 1) => 5
  | .front _ => 4
  | .get _ _ => 3
  | .pop _ _ => 2
  | .crashed => 0

/-- A bound on the steps that are left, unless a worker wakes up by itself. -/
def State.ahead (σ : State) : ℕ :=
  σ.pool.ahead + (σ.handlers.map Handler.ahead).sum + 8 * σ.resultQueue.length + σ.checker.ahead

/-- The event is a step of a thread. -/
def Event.Own : Event → Prop
  | .spurious _ => False
  | _ => True

/-- When the pool takes a step of a thread, the state stays the same or fewer steps are left. -/
theorem ahead_pool (h : Inv threads total σ) {event : ThreadPool.Event} (hown : event.Own) :
    { σ with pool := ThreadPool.step event σ.pool } = σ ∨
      { σ with pool := ThreadPool.step event σ.pool : State }.ahead < σ.ahead := by
  rcases ThreadPool.ahead_step h.pool hown with heq | hlt
  · rw [heq]
    exact .inl rfl
  · refine .inr ?_
    simp only [State.ahead]
    omega

theorem ahead_handlerStep (h : Inv threads total σ) (hi : σ.handlers[i]? = some handler)
    (woken : ℕ) :
    handlerStep i woken handler σ = σ ∨ (handlerStep i woken handler σ).ahead < σ.ahead := by
  have hsum (handler' : Handler) := sum_map_set Handler.ahead handler' hi
  cases handler with
  | enqueue j rest =>
    have := hsum (.lock j rest)
    have := hsum .raised
    simp only [handlerStep]
    split
    · right
      simp only [State.ahead, Handler.ahead] at *
      omega
    · right
      simp only [State.ahead, Handler.ahead] at *
      omega
    · exact ahead_pool h trivial
  | lock j rest =>
    by_cases hfree : σ.resultmutex = none
    · have := hsum (.push j rest)
      simp only [handlerStep, if_pos hfree, State.ahead, Handler.ahead] at *
      omega
    · exact .inl (if_neg hfree)
  | push j rest =>
    have := hsum (.unlock rest)
    simp only [handlerStep, State.ahead, Handler.ahead, List.length_append,
      List.length_singleton] at *
    omega
  | unlock rest =>
    have := hsum (.next rest)
    cases rest with
    | nil =>
      simp only [handlerStep, State.ahead, Handler.ahead, Handler.next, List.length_nil] at *
      omega
    | cons j rest =>
      simp only [handlerStep, State.ahead, Handler.ahead, Handler.next, List.length_cons] at *
      omega
  | done | raised => exact .inl rfl

theorem ahead_checkStep (h : Inv threads total σ) :
    checkStep σ = σ ∨ (checkStep σ).ahead < σ.ahead := by
  have hknows := h.checker
  cases hpos : σ.checker with
  | poll =>
    generalize hsize : (σ.resultQueue.length : Int).bmod (2 ^ 32) = size
    by_cases hpositive : 0 < size
    · obtain ⟨n, hn⟩ : ∃ n, size.toNat = n + 1 := ⟨size.toNat - 1, by omega⟩
      simp only [checkStep, hpos, hsize, if_pos hpositive, hn, State.ahead, Checker.ahead]
      omega
    · left
      simp only [checkStep, hpos, hsize, if_neg hpositive]
      rw [← hpos]
  | round rounds =>
    cases rounds with
    | zero =>
      simp only [checkStep, hpos, State.ahead, Checker.ahead]
      omega
    | succ rounds =>
      by_cases hfree : σ.resultmutex = none
      · simp only [checkStep, hpos, if_pos hfree, State.ahead, Checker.ahead]
        omega
      · exact .inl (by simp only [checkStep, hpos, if_neg hfree])
  | front rounds =>
    right
    simp only [checkStep, hpos]
    split <;> simp only [State.ahead, Checker.ahead, hpos] <;> omega
  | get j rounds =>
    by_cases hready : j ∈ σ.pool.finished
    · simp only [checkStep, hpos, if_pos hready, State.ahead, Checker.ahead]
      omega
    · exact .inl (by simp only [checkStep, hpos, if_neg hready])
  | pop j rounds =>
    rw [hpos] at hknows
    obtain ⟨rest, hqueue⟩ := List.head?_eq_some_iff.1 hknows.1
    simp only [checkStep, hpos, hqueue, State.ahead, Checker.ahead, List.tail_cons,
      List.length_cons]
    omega
  | unlock rounds =>
    have hround : (Checker.round rounds).ahead ≤ 8 := by
      cases rounds <;> simp [Checker.ahead]
    right
    simp only [checkStep, hpos, State.ahead]
    rw [show (Checker.unlock rounds).ahead = 9 from rfl]
    omega
  | crashed => exact .inl (by simp only [checkStep, hpos])

theorem ahead_step (h : Inv threads total σ) {event : Event} (hown : event.Own) :
    step event σ = σ ∨ (step event σ).ahead < σ.ahead := by
  cases event with
  | worker i => exact ahead_pool h trivial
  | handler i woken =>
    cases hi : σ.handlers[i]? with
    | none => exact .inl (by simp only [step, hi])
    | some handler => simpa only [step, hi] using ahead_handlerStep h hi woken
  | check => exact ahead_checkStep h
  | spurious i => exact hown.elim

end Progress

section Rest

variable {threads total i : ℕ} {σ : State} {handler : Handler}

/-- The threads of the system. -/
inductive Thread
  | worker (i : ℕ)
  | handler (i : ℕ)
  | check
  deriving DecidableEq, Repr

/-- A thread is there. -/
def Live : Thread → State → Prop
  | .worker i, σ => i < σ.pool.workers.length
  | .handler i, σ => i < σ.handlers.length
  | .check, _ => True

/-- The event is a step of the thread. -/
def Moves : Thread → Event → Prop
  | .worker i, e => e = .worker i
  | .handler i, e => ∃ woken, e = .handler i woken
  | .check, e => e = .check

/-- A thread in `startNotify` that gets nowhere has returned, is stuck in `enqueue`, or waits for
`resultmutex`. -/
theorem Inv.handler_stuck (h : Inv threads total σ) (hi : σ.handlers[i]? = some handler)
    {woken : ℕ} (hstuck : step (.handler i woken) σ = σ) :
    handler = .done ∨
      (∃ j rest, handler = .enqueue j rest ∧
        ThreadPool.step (.enqueue j woken) σ.pool = σ.pool ∧ ¬ σ.Returned j) ∨
      (∃ j rest, handler = .lock j rest) ∧ σ.resultmutex ≠ none := by
  have hknows := h.handlers handler (List.mem_of_getElem? hi)
  have hlt : i < σ.handlers.length := (List.getElem?_eq_some_iff.1 hi).1
  have hstep : handlerStep i woken handler σ = σ := by simpa only [step, hi] using hstuck
  have hstay : (handlerStep i woken handler σ).handlers[i]? = some handler := by rw [hstep, hi]
  cases handler with
  | done => exact .inl rfl
  | raised => exact hknows.elim
  | enqueue j rest =>
    refine .inr (.inl ⟨j, rest, rfl, ?_⟩)
    have hleaves {handler' : Handler} (hne : handler' ≠ .enqueue j rest) :
        σ.handlers.set i handler' ≠ σ.handlers := by
      intro heq
      rw [← heq, List.getElem?_set_self hlt] at hi
      exact hne (Option.some.inj hi)
    simp only [handlerStep] at hstep
    split at hstep
    · exact absurd (congrArg State.handlers hstep) (hleaves nofun)
    · exact absurd (congrArg State.handlers hstep) (hleaves nofun)
    · rename_i hdone _
      exact ⟨congrArg State.pool hstep, fun hreturned => hdone _ hreturned.choose_spec⟩
  | lock j rest =>
    refine .inr (.inr ⟨⟨j, rest, rfl⟩, fun hfree => ?_⟩)
    simp [handlerStep, hfree, hlt] at hstay
  | push j rest => simp [handlerStep, hlt] at hstay
  | unlock rest =>
    cases rest <;> simp [handlerStep, Handler.next, hlt] at hstay

/-- `check`, when it gets nowhere, sees an empty queue, waits for a result or for `resultmutex`. -/
theorem Inv.check_stuck (h : Inv threads total σ) (hstuck : step .check σ = σ) :
    σ.checker = .poll ∧ (σ.resultQueue.length : Int).bmod (2 ^ 32) ≤ 0 ∨
      (∃ j rounds, σ.checker = .get j rounds ∧ j ∉ σ.pool.finished) ∨
      (∃ rounds, σ.checker = .round rounds) ∧ σ.resultmutex ≠ none := by
  have hknows := h.checker
  have hstay : (checkStep σ).checker = σ.checker := congrArg State.checker hstuck
  cases hpos : σ.checker with
  | poll =>
    generalize hsize : (σ.resultQueue.length : Int).bmod (2 ^ 32) = size
    refine .inl ⟨rfl, Int.not_lt.1 fun hpositive => ?_⟩
    simp only [checkStep, hpos, hsize, if_pos hpositive] at hstay
    cases hstay
  | round rounds =>
    refine .inr (.inr ⟨⟨rounds, rfl⟩, fun hfree => ?_⟩)
    cases rounds <;> simp [checkStep, hpos, hfree] at hstay
  | get j rounds =>
    refine .inr (.inl ⟨j, rounds, rfl, fun hready => ?_⟩)
    simp [checkStep, hpos, hready] at hstay
  | front rounds =>
    simp only [checkStep, hpos] at hstay
    split at hstay <;> cases hstay
  | crashed =>
    rw [hpos] at hknows
    exact hknows.elim
  | _ => simp [checkStep, hpos] at hstay

/-- The call of a thread is one of the pool, with its number as its task. -/
theorem Inv.caller (h : Inv threads total σ) {j : ℕ} (hj : j < total) :
    ∃ c, σ.pool.callers[j]? = some (j, c) := by
  have hcalls : σ.pool.callers.map Prod.fst = List.range total :=
    congrArg (fun shape => shape.2.1) h.shape
  have hlength : σ.pool.callers.length = total := by
    rw [← List.length_map, hcalls, List.length_range]
  have htask : (σ.pool.callers.map Prod.fst)[j]? = some j := by
    rw [hcalls, List.getElem?_range hj]
  rw [List.getElem?_map, Option.map_eq_some_iff] at htask
  obtain ⟨⟨task, c⟩, hj, rfl⟩ := htask
  exact ⟨c, hj⟩

theorem Inv.lt_of_left (h : Inv threads total σ) (hmem : handler ∈ σ.handlers) {j : ℕ}
    (hj : j ∈ handler.left) : j < total := by
  have hsum : j ∈ (σ.handlers.map Handler.left).sum :=
    Multiset.mem_of_le (List.le_sum_of_mem (List.mem_map_of_mem hmem)) hj
  have hcalls : j ∈ ((List.range total : List ℕ) : Multiset ℕ) := by
    rw [← h.calls]
    exact Multiset.mem_add.2 (.inl hsum)
  simpa using hcalls

/-- The task of a call that has returned is finished when the pool rests. -/
theorem Inv.finished_of_returned (h : Inv threads total σ)
    (hfinished : σ.pool.finished.Perm σ.pool.pushed) {j : ℕ} (hj : σ.Returned j) (hlt : j < total) :
    j ∈ σ.pool.finished := by
  obtain ⟨task, hdone⟩ := hj
  obtain ⟨c, hc⟩ := h.caller hlt
  obtain ⟨rfl, rfl⟩ := Prod.mk.inj (Option.some.inj (hdone.symm.trans hc))
  have hsent : task ∈ (σ.pool.callers.map Caller.sent).sum :=
    Multiset.mem_of_le (List.le_sum_of_mem (List.mem_map_of_mem (List.mem_of_getElem? hc)))
      (Multiset.mem_singleton_self task)
  rw [h.pool.sent] at hsent
  exact hfinished.mem_iff.2 hsent

/-- When no worker and no thread in `enqueue` gets anywhere, the pool has finished its tasks. -/
theorem Inv.pool_rest (h : Inv threads total σ) (hthreads : 0 < threads)
    (hworkers : ∀ i, ThreadPool.step (.worker i) σ.pool = σ.pool)
    (hhandlers : ∀ (i : ℕ) handler, σ.handlers[i]? = some handler →
      ∃ woken, step (.handler i woken) σ = σ) :
    σ.pool.queue_mutex = none ∧ σ.pool.finished.Perm σ.pool.pushed := by
  have hdestructor : ThreadPool.step .destroy σ.pool = σ.pool := by
    have hidle : σ.pool.destructor = .idle :=
      of_decide_eq_true (congrArg (fun shape => shape.2.2) h.shape)
    simp only [ThreadPool.step, destructorStep, hidle]
  have hcallers : ∀ (j : ℕ) c, σ.pool.callers[j]? = some c → c.2 ≠ .lock → c.2 ≠ .done →
      ∃ woken, ThreadPool.step (.enqueue j woken) σ.pool = σ.pool := by
    intro j c hj hlock hdone
    rcases h.under_way j c.1 c.2 hj with heq | heq | ⟨_, hmem, rest, rfl⟩
    · exact absurd heq hlock
    · exact absurd heq hdone
    · obtain ⟨i, hi⟩ := List.mem_iff_getElem?.1 hmem
      obtain ⟨woken, hstuck⟩ := hhandlers i _ hi
      rcases h.handler_stuck hi hstuck with heq | ⟨j', _, heq, hpool, -⟩ | ⟨⟨_, _, heq⟩, -⟩
      · cases heq
      · obtain ⟨rfl, -⟩ := Handler.enqueue.inj heq
        exact ⟨woken, hpool⟩
      · cases heq
  have hfree : σ.pool.queue_mutex = none := by
    refine h.pool.mutex_free hworkers (fun j c hj hholds => hcallers j c hj ?_ ?_) hdestructor
    · exact fun heq => by rw [heq] at hholds; exact hholds
    · exact fun heq => by rw [heq] at hholds; exact hholds
  have hasleep := fun w (hw : w ∈ σ.pool.workers) => h.pool.workers_rest hfree hworkers hw
  have hsome : σ.pool.workers ≠ [] := by
    have hlength : σ.pool.workers.length = threads := congrArg Prod.fst h.shape
    exact List.length_pos_iff.1 (hlength ▸ hthreads)
  have htasks : σ.pool.tasks = [] := by
    refine h.pool.tasks_rest hsome hasleep fun c hc hpending => ?_
    obtain ⟨j, hj⟩ := List.mem_iff_getElem?.1 hc
    obtain ⟨woken, hstuck⟩ := hcallers j c hj
      (fun heq => by rw [heq] at hpending; exact hpending)
      (fun heq => by rw [heq] at hpending; exact hpending)
    rcases caller_stuck hj hstuck with heq | heq | ⟨-, hne⟩
    · rw [heq] at hpending
      exact hpending
    · rw [heq] at hpending
      exact hpending
    · exact hne hfree
  exact ⟨hfree, h.pool.finished_perm hasleep htasks⟩

/-- When the pool has finished its tasks, `resultmutex` is not held by a thread that gets
nowhere. -/
theorem Inv.resultmutex_free (h : Inv threads total σ)
    (hfinished : ∀ j ∈ σ.recorded, j ∈ σ.pool.finished)
    (hhandlers : ∀ (i : ℕ) handler, σ.handlers[i]? = some handler →
      ∃ woken, step (.handler i woken) σ = σ)
    (hcheck : step .check σ = σ) : σ.resultmutex = none := by
  cases hmutex : σ.resultmutex with
  | none => rfl
  | some t =>
    have hholds := (h.owned t).2 hmutex
    cases t with
    | handler i =>
      obtain ⟨handler, hi, hhandler⟩ := hholds
      obtain ⟨woken, hstuck⟩ := hhandlers i handler hi
      rcases h.handler_stuck hi hstuck with rfl | ⟨_, _, rfl, -⟩ | ⟨⟨_, _, rfl⟩, -⟩ <;>
        exact hhandler.elim
    | check =>
      have hholds : σ.checker.Holds := hholds
      have hknows := h.checker
      rcases h.check_stuck hcheck with ⟨heq, -⟩ | ⟨j, rounds, heq, hready⟩ | ⟨⟨rounds, heq⟩, -⟩
      · rw [heq] at hholds
        exact hholds.elim
      · -- the task behind the future that `check` waits for is finished
        rw [heq] at hknows
        refine absurd (hfinished j ?_) hready
        rw [← h.order]
        exact List.mem_append_right _ (List.mem_of_head? hknows.1)
      · rw [heq] at hholds
        exact hholds.elim

/-- At rest every thread in `startNotify` has returned, and `check` has got every result. -/
theorem Inv.rest (h : Inv threads total σ) (hthreads : 0 < threads) (htotal : total < 2 ^ 31)
    (hrest : AtRest step Live Moves σ) :
    (∀ handler ∈ σ.handlers, handler = .done) ∧ σ.checker = .poll ∧ σ.resultQueue = [] ∧
      σ.pool.finished.Perm (List.range total) ∧ σ.recorded.Perm (List.range total) := by
  have hhandlers : ∀ (i : ℕ) handler, σ.handlers[i]? = some handler →
      ∃ woken, step (.handler i woken) σ = σ := by
    intro i handler hi
    obtain ⟨_, ⟨woken, rfl⟩, hstuck⟩ := hrest (.handler i) (List.getElem?_eq_some_iff.1 hi).1
    exact ⟨woken, hstuck⟩
  have hworkers : ∀ i, ThreadPool.step (.worker i) σ.pool = σ.pool := by
    intro i
    by_cases hlt : i < σ.pool.workers.length
    · obtain ⟨_, rfl, hstuck⟩ := hrest (.worker i) hlt
      exact congrArg State.pool hstuck
    · simp only [ThreadPool.step, List.getElem?_eq_none (Nat.not_lt.1 hlt)]
  obtain ⟨_, rfl, hcheck⟩ := hrest .check trivial
  obtain ⟨hfree, hperm⟩ := h.pool_rest hthreads hworkers hhandlers
  have hlt {j : ℕ} (hj : j ∈ σ.recorded) : j < total := by
    have hcalls : j ∈ ((List.range total : List ℕ) : Multiset ℕ) := by
      rw [← h.calls]
      exact Multiset.mem_add.2 (.inr hj)
    simpa using hcalls
  have hfinished : ∀ j ∈ σ.recorded, j ∈ σ.pool.finished := fun j hj =>
    h.finished_of_returned hperm (h.recorded j hj) (hlt hj)
  have hmutex := h.resultmutex_free hfinished hhandlers hcheck
  have hdone : ∀ handler ∈ σ.handlers, handler = .done := by
    intro handler hmem
    obtain ⟨i, hi⟩ := List.mem_iff_getElem?.1 hmem
    obtain ⟨woken, hstuck⟩ := hhandlers i handler hi
    rcases h.handler_stuck hi hstuck with heq | ⟨j, rest, rfl, hpool, hcall⟩ | ⟨-, hne⟩
    · exact heq
    · obtain ⟨c, hj⟩ := h.caller (h.lt_of_left hmem (Multiset.mem_coe.2 List.mem_cons_self))
      rcases caller_stuck hj hpool with rfl | rfl | ⟨-, hne⟩
      · exact absurd ⟨j, hj⟩ hcall
      · have hthrown := h.pool.callers _ (List.mem_of_getElem? hj)
        exact absurd (h.stop_eq_false.symm.trans hthrown) Bool.false_ne_true
      · exact absurd hfree hne
    · exact absurd hmutex hne
  have hrecorded : σ.recorded.Perm (List.range total) := by
    have hnone : (σ.handlers.map Handler.left).sum = 0 := by
      refine List.sum_eq_zero fun m hm => ?_
      obtain ⟨handler, hmem, rfl⟩ := List.mem_map.1 hm
      rw [hdone handler hmem]
      rfl
    have hcalls := h.calls
    rw [hnone, zero_add] at hcalls
    exact Multiset.coe_eq_coe.1 hcalls
  have hall : σ.pool.finished.Perm (List.range total) := by
    have hcalls : σ.pool.callers.map Prod.fst = List.range total :=
      congrArg (fun shape => shape.2.1) h.shape
    have hreturned : ∀ c ∈ σ.pool.callers, c.2 = .done := by
      intro c hc
      obtain ⟨j, hj⟩ := List.mem_iff_getElem?.1 hc
      have hmem : j ∈ σ.recorded := by
        rw [hrecorded.mem_iff, List.mem_range, ← List.length_range (n := total), ← hcalls,
          List.length_map]
        exact (List.getElem?_eq_some_iff.1 hj).1
      obtain ⟨task, hret⟩ := h.recorded j hmem
      exact congrArg Prod.snd (Option.some.inj (hj.symm.trans hret))
    refine hperm.trans (Multiset.coe_eq_coe.1 ?_)
    rw [← h.pool.sent, sent_of_returned fun c hc => .inl (hreturned c hc),
      List.filter_eq_self.2 fun c hc => by simpa using hreturned c hc, hcalls]
  rcases h.check_stuck hcheck with ⟨hpoll, hsize⟩ | ⟨j, rounds, heq, hready⟩ | ⟨-, hne⟩
  · refine ⟨hdone, hpoll, ?_, hall, hrecorded⟩
    have hlength : σ.resultQueue.length ≤ total := by
      rw [← List.length_range (n := total), ← hrecorded.length_eq, ← h.order, List.length_append]
      omega
    exact eq_nil_of_bmod_le hsize (by omega)
  · have hknows := h.checker
    rw [heq] at hknows
    refine absurd (hfinished j ?_) hready
    rw [← h.order]
    exact List.mem_append_right _ (List.mem_of_head? hknows.1)
  · exact absurd hmutex hne

/-- **`check` gets every result**, whatever the schedule in which every thread moves again: from
some moment on all threads in `startNotify` have returned, every task is finished, and `check` has
got the results of all of them and finds the queue empty. -/
theorem fair_runs_collect {threads : ℕ} (hthreads : 0 < threads) (sizes : List ℕ)
    (hsizes : sizes.sum < 2 ^ 31) (f : ℕ → Event)
    (hfair : Fair step Live Moves f (start threads sizes))
    (hown : ∃ N, ∀ n, N ≤ n → (f n).Own) :
    ∃ N, ∀ n, N ≤ n → let σ := states step f (start threads sizes) n
      (∀ handler ∈ σ.handlers, handler = .done) ∧ σ.checker = .poll ∧ σ.resultQueue = [] ∧
        σ.pool.finished.Perm (List.range sizes.sum) ∧
        σ.collected.Perm (List.range sizes.sum) := by
  have hstep : ∀ e σ, Inv threads sizes.sum σ → Inv threads sizes.sum (step e σ) :=
    fun e σ h => inv_step h e
  have hlower : ∀ (e : Event) (σ : State), Inv threads sizes.sum σ → e.Own →
      step e σ = σ ∨ (step e σ).ahead < σ.ahead := fun e σ h => ahead_step h
  obtain ⟨N, hrest, hstill⟩ := eventually_atRest hstep hlower (inv_start threads sizes) hown hfair
  refine ⟨N, fun n hn => ?_⟩
  rw [hstill n hn]
  have h := states_induction (f := f) hstep (inv_start threads sizes) N
  obtain ⟨hdone, hpoll, hqueue, hfinished, hrecorded⟩ := h.rest hthreads hsizes hrest
  refine ⟨hdone, hpoll, hqueue, hfinished, ?_⟩
  have horder := h.order
  rw [hqueue, List.append_nil] at horder
  rwa [horder]

/-- The steps of all threads, one of each. -/
def inTurn (k : ℕ) : Event :=
  if k % 3 = 0 then .worker (k / 3) else if k % 3 = 1 then .handler (k / 3) 0 else .check

/-- Threads that take turns are scheduled fairly. -/
theorem fair_inTurn (σ : State) : Fair step Live Moves (rounds inTurn) σ := by
  intro t n _
  cases t with
  | worker i =>
    obtain ⟨m, hm, heq⟩ := rounds_recurs inTurn (3 * i) n
    refine ⟨m, hm, ?_⟩
    rw [heq, inTurn, if_pos (by omega), show 3 * i / 3 = i by omega]
    rfl
  | handler i =>
    obtain ⟨m, hm, heq⟩ := rounds_recurs inTurn (3 * i + 1) n
    refine ⟨m, hm, 0, ?_⟩
    rw [heq, inTurn, if_neg (by omega), if_pos (by omega), show (3 * i + 1) / 3 = i by omega]
  | check =>
    obtain ⟨m, hm, heq⟩ := rounds_recurs inTurn 2 n
    exact ⟨m, hm, heq⟩

/-- Two rows of clients and a pool with two workers, in turn. -/
theorem inTurn_collect :
    ∃ N, ∀ n, N ≤ n →
      (states step (rounds inTurn) (start 2 [3, 2]) n).collected.Perm [0, 1, 2, 3, 4] := by
  obtain ⟨N, hN⟩ := fair_runs_collect (by decide : 0 < 2) [3, 2] (by decide) (rounds inTurn)
    (fair_inTurn _) ⟨0, fun n _ => by
      unfold rounds inTurn
      split
      · trivial
      · split <;> trivial⟩
  exact ⟨N, fun n hn => (hN n hn).2.2.2.2⟩

end Rest

end Results

end TPST
