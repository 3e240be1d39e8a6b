import Mathlib.Algebra.Order.Group.Multiset
import TPST.Foundations.Threads

/-!
# The thread pool

A `ThreadPool` has a queue of tasks, a mutex and a condition variable. Its workers wait until there
is a task or the pool is stopped, take the first task and run it; `enqueue` puts a task at the end
and notifies one worker; the destructor stops the pool, notifies all workers and joins them.

This is a model of any number of workers and calls of `enqueue` and of the destructor, under any
interleaving of their steps. A waiting worker may also wake up by itself, and a notification wakes
whichever of the waiting workers the schedule says.

What the mutex is for is in `Inv`: a worker that has seen an empty queue and has not gone to sleep
yet still holds it. Hence a task that is left in the queue has a worker that is awake or a call that
is going to notify one (`Inv.awake`).
-/

namespace TPST

open Schedule

namespace ThreadPool

/-- Where a worker is. -/
inductive Worker (α : Type*)
  /-- Taking `queue_mutex`, at the beginning of a round or when woken up. -/
  | lock
  /-- Evaluating the predicate of `wait`. -/
  | test
  /-- Going to sleep. -/
  | block
  /-- Asleep, without the mutex. -/
  | waiting
  /-- Behind `wait`, testing whether to return. -/
  | decide
  /-- Returning, with the mutex. -/
  | leave
  | exited
  /-- Moving the first task out of the queue. -/
  | front
  | pop (task : α)
  /-- Releasing the mutex. -/
  | unlock (task : α)
  | run (task : α)
  /-- The first task of an empty queue was taken. -/
  | crashed
  deriving DecidableEq, Repr

/-- Where a call of `enqueue` is. -/
inductive Caller
  | lock
  /-- Testing `stop`. -/
  | test
  | emplace
  | unlock
  /-- At `notify_one`. -/
  | notify
  | done
  /-- Throwing, with the mutex. -/
  | raise
  | thrown
  deriving DecidableEq, Repr

/-- Where the destructor is. -/
inductive Destructor
  /-- It is not called. -/
  | idle
  | lock
  /-- Setting `stop`. -/
  | stop
  | unlock
  /-- At `notify_all`. -/
  | notify
  /-- Joining a worker. -/
  | join (i : ℕ)
  | done
  deriving DecidableEq, Repr

/-- The threads that use the pool. -/
inductive Thread
  | worker (i : ℕ)
  | enqueue (j : ℕ)
  | destroy
  deriving DecidableEq, Repr

/-- The pool, the threads, and the history. -/
structure State (α : Type*) where
  workers : List (Worker α)
  /-- The calls of `enqueue`, with their tasks. -/
  callers : List (α × Caller)
  destructor : Destructor
  queue_mutex : Option Thread
  tasks : List α
  stop : Bool
  /-- The tasks that were put into the queue. -/
  pushed : List α
  /-- Those that were taken out of it. -/
  taken : List α
  finished : List α
  deriving DecidableEq

/-- What happens next: a thread takes its next step, where a notification is for the worker `woken`;
or a worker wakes up by itself. -/
inductive Event
  | worker (i : ℕ)
  | enqueue (j woken : ℕ)
  | destroy
  | spurious (i : ℕ)
  deriving DecidableEq, Repr

section Steps

variable {α : Type*}

def Worker.isWaiting : Worker α → Bool
  | .waiting => true
  | _ => false

/-- `notify_one` wakes the worker `woken` or, if it does not wait, the first one that does. -/
def notifyOne (woken : ℕ) (workers : List (Worker α)) : List (Worker α) :=
  match workers[woken]? with
  | some .waiting => workers.set woken .lock
  | _ =>
    match workers.findIdx? Worker.isWaiting with
    | some i => workers.set i .lock
    | none => workers

/-- `notify_all`. -/
def notifyAll (workers : List (Worker α)) : List (Worker α) :=
  workers.map fun w => if w.isWaiting then .lock else w

/-- The next step of the worker `i`. -/
def workerStep (i : ℕ) (w : Worker α) (σ : State α) : State α :=
  let goto : Worker α → List (Worker α) := σ.workers.set i
  match w with
  | .lock =>
    if σ.queue_mutex = none then
      { σ with workers := goto .test, queue_mutex := some (.worker i) }
    else σ
  | .test =>
    { σ with workers := goto (if σ.stop || !σ.tasks.isEmpty then .decide else .block) }
  | .block => { σ with workers := goto .waiting, queue_mutex := none }
  | .waiting => σ
  | .decide =>
    { σ with workers := goto (if σ.stop && σ.tasks.isEmpty then .leave else .front) }
  | .leave => { σ with workers := goto .exited, queue_mutex := none }
  | .exited => σ
  | .front =>
    match σ.tasks with
    | [] => { σ with workers := goto .crashed }
    | task :: _ => { σ with workers := goto (.pop task) }
  | .pop task =>
    { σ with
      workers := goto (.unlock task)
      tasks := σ.tasks.tail
      taken := σ.taken ++ [task] }
  | .unlock task => { σ with workers := goto (.run task), queue_mutex := none }
  | .run task => { σ with workers := goto .lock, finished := σ.finished ++ [task] }
  | .crashed => σ

/-- The next step of the call `j` of `enqueue`. -/
def callerStep (j woken : ℕ) (task : α) (caller : Caller) (σ : State α) : State α :=
  let goto (caller : Caller) : List (α × Caller) := σ.callers.set j (task, caller)
  match caller with
  | .lock =>
    if σ.queue_mutex = none then
      { σ with callers := goto .test, queue_mutex := some (.enqueue j) }
    else σ
  | .test => { σ with callers := goto (if σ.stop then .raise else .emplace) }
  | .emplace =>
    { σ with
      callers := goto .unlock
      tasks := σ.tasks ++ [task]
      pushed := σ.pushed ++ [task] }
  | .unlock => { σ with callers := goto .notify, queue_mutex := none }
  | .notify => { σ with callers := goto .done, workers := notifyOne woken σ.workers }
  | .done => σ
  | .raise => { σ with callers := goto .thrown, queue_mutex := none }
  | .thrown => σ

/-- The next step of the destructor. -/
def destructorStep (σ : State α) : State α :=
  match σ.destructor with
  | .idle => σ
  | .lock =>
    if σ.queue_mutex = none then
      { σ with destructor := .stop, queue_mutex := some .destroy }
    else σ
  | .stop => { σ with destructor := .unlock, stop := true }
  | .unlock => { σ with destructor := .notify, queue_mutex := none }
  | .notify => { σ with destructor := .join 0, workers := notifyAll σ.workers }
  | .join i =>
    match σ.workers[i]? with
    | none => { σ with destructor := .done }
    | some .exited => { σ with destructor := .join (i + 1) }
    | some _ => σ
  | .done => σ

/-- One step. -/
def step (event : Event) (σ : State α) : State α :=
  match event with
  | .worker i =>
    match σ.workers[i]? with
    | none => σ
    | some w => workerStep i w σ
  | .enqueue j woken =>
    match σ.callers[j]? with
    | none => σ
    | some (task, caller) => callerStep j woken task caller σ
  | .destroy => destructorStep σ
  | .spurious i =>
    match σ.workers[i]? with
    | some .waiting => { σ with workers := σ.workers.set i .lock }
    | _ => σ

/-- The pool behind its constructor, with calls of `enqueue` to come, and one of the destructor if
it is `destroyed`. -/
def start (threads : ℕ) (calls : List α) (destroyed : Bool) : State α where
  workers := List.replicate threads .lock
  callers := calls.map fun task => (task, .lock)
  destructor := if destroyed then .lock else .idle
  queue_mutex := none
  tasks := []
  stop := false
  pushed := []
  taken := []
  finished := []

end Steps

/-! ## What the positions say -/

section Positions

variable {α : Type*}

/-- The worker has `queue_mutex`. -/
def Worker.Holds : Worker α → Prop
  | .test | .block | .decide | .leave | .front | .pop _ | .unlock _ => True
  | _ => False

/-- The call has `queue_mutex`. -/
def Caller.Holds : Caller → Prop
  | .test | .emplace | .unlock | .raise => True
  | _ => False

/-- The destructor has `queue_mutex`. -/
def Destructor.Holds : Destructor → Prop
  | .stop | .unlock => True
  | _ => False

/-- What a worker knows about the queue and `stop`: under the mutex what it has seen of them, and
when it has returned that nothing is left. -/
def Worker.Knows (tasks : List α) (stop : Bool) : Worker α → Prop
  | .block => tasks = [] ∧ stop = false
  | .decide => tasks ≠ [] ∨ stop = true
  | .front => tasks ≠ []
  | .pop task => tasks.head? = some task
  | .leave | .exited => tasks = [] ∧ stop = true
  | .crashed => False
  | _ => True

/-- What a call knows about `stop`. -/
def Caller.Knows (stop : Bool) : Caller → Prop
  | .emplace => stop = false
  | .raise | .thrown => stop = true
  | _ => True

/-- What the destructor knows about `stop` and the workers. -/
def Destructor.Knows (stop : Bool) (workers : List (Worker α)) : Destructor → Prop
  | .idle | .lock | .stop => stop = false
  | .unlock | .notify => stop = true
  | .join i => stop = true ∧ (∀ w ∈ workers, w ≠ .waiting) ∧ ∀ w ∈ workers.take i, w = .exited
  | .done => stop = true ∧ ∀ w ∈ workers, w = .exited

/-- The worker will come to the test of its loop. -/
def Worker.Awake : Worker α → Prop
  | .waiting | .exited | .crashed => False
  | _ => True

/-- The call has put its task into the queue, and is going to notify a worker. -/
def Caller.Pending : Caller → Prop
  | .unlock | .notify => True
  | _ => False

/-- The task that a worker has taken and not finished. -/
def Worker.inHand : Worker α → Multiset α
  | .unlock task | .run task => {task}
  | _ => 0

/-- The task that a call has put into the queue. -/
def Caller.sent (c : α × Caller) : Multiset α :=
  match c.2 with
  | .unlock | .notify | .done => {c.1}
  | _ => 0

/-- The thread has `queue_mutex`. -/
def State.Holds (σ : State α) : Thread → Prop
  | .worker i => ∃ w, σ.workers[i]? = some w ∧ w.Holds
  | .enqueue j => ∃ c, σ.callers[j]? = some c ∧ c.2.Holds
  | .destroy => σ.destructor.Holds

/-- The invariant of the pool. -/
structure Inv (σ : State α) : Prop where
  owned : Owned σ.Holds σ.queue_mutex
  workers : ∀ w ∈ σ.workers, w.Knows σ.tasks σ.stop
  callers : ∀ c ∈ σ.callers, c.2.Knows σ.stop
  destructor : σ.destructor.Knows σ.stop σ.workers
  /-- A task that is left in the queue has a worker or a call that sees to it. -/
  awake : σ.tasks = [] ∨ σ.workers = [] ∨ (∃ w ∈ σ.workers, w.Awake) ∨
    ∃ c ∈ σ.callers, c.2.Pending
  /-- The queue is first in, first out. -/
  order : σ.taken ++ σ.tasks = σ.pushed
  hands : (σ.workers.map Worker.inHand).sum + σ.finished = σ.taken
  sent : (σ.callers.map Caller.sent).sum = σ.pushed

end Positions

end ThreadPool

end TPST
