import Mathlib.Data.List.ReduceOption
import TPST.Foundations.Views

/-!
# First in, first out

A queue as a system that answers: a `put` appends a value, a `get` takes the first one or finds
that there is none. Nothing is lost, made up or reordered: the values taken, followed by those
still queued, are those queued at the start, followed by those put (`fifo_conserve`).
-/

namespace TPST

/-- An operation on a queue. -/
inductive QueueOp (α : Type*)
  | put (a : α)
  | get
  deriving DecidableEq, Repr

/-- The value that an operation puts. -/
def QueueOp.value? {α : Type*} : QueueOp α → Option α
  | .put a => some a
  | .get => none

/-- One operation, and what a `get` finds. -/
def fifo {α : Type*} : List α → QueueOp α → List α × List (Option α)
  | q, .put a => (q ++ [a], [])
  | [], .get => ([], [none])
  | a :: q, .get => (q, [some a])

section Fifo

variable {α : Type*}

theorem reduceOption_fifo (q : List α) (op : QueueOp α) :
    (fifo q op).2.reduceOption ++ (fifo q op).1 = q ++ op.value?.toList := by
  cases op with
  | put a => rfl
  | get => cases q <;> simp [fifo, QueueOp.value?]

/-- **Conservation**: what is taken and what is left is what was there and what was put, in
order. -/
theorem fifo_conserve (q : List α) (ops : List (QueueOp α)) :
    (answers fifo q ops).2.reduceOption ++ (answers fifo q ops).1 =
      q ++ ops.filterMap QueueOp.value? := by
  induction ops generalizing q with
  | nil => simp [answers]
  | cons op ops ih =>
    rw [answers, List.reduceOption_append, List.append_assoc, ih, ← List.append_assoc,
      reduceOption_fifo, List.append_assoc]
    cases op <;> rfl

/-- The values taken are the first ones put. -/
theorem fifo_taken (ops : List (QueueOp α)) :
    (answers fifo [] ops).2.reduceOption <+: ops.filterMap QueueOp.value? :=
  ⟨(answers fifo [] ops).1, fifo_conserve [] ops⟩

end Fifo

end TPST
