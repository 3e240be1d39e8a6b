import Mathlib.Data.List.Perm.Basic
import TPST.Foundations.Schedules
import TPST.Metadata.Metaserver

/-!
# Metadata requests at the same time

The handlers `Putmeta` and `Getmeta` look up their key, and whether its queue is empty, before they
take `metaMutex`. This is a model of any number of handlers under any interleaving of the lookups
and the locked sections; `putmeta_alone` and `getmeta_alone` say that a handler that runs alone does
what it does in one go.

`queuesBalance_iff`: the queues lose and make up nothing, and no handler takes from an empty queue,
exactly if every handler finds at its locked section what it found at its lookup, as far as it
matters (`Confirmed`): a `Putmeta` that found no queue finds nothing queued, a `Getmeta` that found
a queue with elements finds one still.
-/

namespace TPST

open Std

/-- Where a handler is: a `Putmeta` before its lookup, about to assign a new queue, or about to
push; a `Getmeta` before its lookup, about to test its queue, or about to take from it. -/
inductive MetaHandler
  | put (key value : String)
  | putAssign (key value : String)
  | putPush (key value : String)
  | get (key : String)
  | getEmpty (key : String)
  | getFront (key : String)
  | replied
  deriving DecidableEq, Repr

/-- The queues, the handlers, and the history: what was put and what `Getmeta` replied, by key. A
reply without value is `NULL`. -/
structure MetaServer (ι : Type*) where
  metaMap : MetaMap
  handlers : ι → MetaHandler
  puts : List (String × String)
  replies : List (String × Option String)
  /-- The front of an empty queue was read. What the program does then is undefined. -/
  undefined : Bool

namespace MetaServer

variable {ι : Type*}

/-- The next step of a handler. -/
def step [DecidableEq ι] (i : ι) (σ : MetaServer ι) : MetaServer ι :=
  let goto : MetaHandler → ι → MetaHandler := Function.update σ.handlers i
  if σ.undefined then σ
  else
    match σ.handlers i with
    | .put key value =>
      { σ with
        handlers := goto (if key ∈ σ.metaMap then .putPush key value else .putAssign key value) }
    | .putAssign key value =>
      { σ with
        metaMap := σ.metaMap.assign key value
        handlers := goto .replied
        puts := σ.puts ++ [(key, value)] }
    | .putPush key value =>
      { σ with
        metaMap := σ.metaMap.push key value
        handlers := goto .replied
        puts := σ.puts ++ [(key, value)] }
    | .get key =>
      if key ∈ σ.metaMap then { σ with handlers := goto (.getEmpty key) }
      else { σ with handlers := goto .replied, replies := σ.replies ++ [(key, none)] }
    | .getEmpty key =>
      if σ.metaMap.queue key = [] then
        { σ with handlers := goto .replied, replies := σ.replies ++ [(key, none)] }
      else { σ with handlers := goto (.getFront key) }
    | .getFront key =>
      match σ.metaMap.queue key with
      | [] => { σ with handlers := goto .replied, undefined := true }
      | value :: _ =>
        { σ with
          metaMap := σ.metaMap.pop key
          handlers := goto .replied
          replies := σ.replies ++ [(key, some value)] }
    | .replied => σ

/-- A handler at its beginning. -/
def handle : MetaRequest → MetaHandler
  | .put key value => .put key value
  | .get key => .get key

/-- All requests have come in, and none is served yet. -/
def start (requests : ι → MetaRequest) : MetaServer ι where
  metaMap := .empty
  handlers i := handle (requests i)
  puts := []
  replies := []
  undefined := false

/-- The values put for a key. -/
def putFor (key : String) (σ : MetaServer ι) : List String :=
  σ.puts.filterMap fun put => if put.1 = key then some put.2 else none

/-- The values returned for a key. -/
def returnedFor (key : String) (σ : MetaServer ι) : List String :=
  σ.replies.filterMap fun reply => if reply.1 = key then reply.2 else none

/-- No handler has taken from an empty queue; each value returned for a key was put for it and is
returned at most once for each time it was put; and each value put is queued or was returned. -/
structure Balances (σ : MetaServer ι) : Prop where
  defined : σ.undefined = false
  once : ∀ key value, (σ.returnedFor key).count value ≤ (σ.putFor key).count value
  kept : ∀ key value, (σ.putFor key).count value ≤
    (σ.metaMap.queue key).count value + (σ.returnedFor key).count value

/-- At its locked section a handler finds what it relies on: nothing queued where it found no queue,
an element where it found the queue not empty. -/
def Confirmed (i : ι) (σ : MetaServer ι) : Prop :=
  match σ.handlers i with
  | .putAssign key _ => σ.metaMap.queue key = []
  | .getFront key => σ.metaMap.queue key ≠ []
  | _ => True

instance (i : ι) (σ : MetaServer ι) : Decidable (Confirmed i σ) := by
  unfold Confirmed
  split <;> infer_instance

/-! ## One handler alone -/

section Alone

variable [DecidableEq ι] {σ : MetaServer ι} {i : ι} {key value : String}

theorem putmeta_alone (hdefined : σ.undefined = false) (hi : σ.handlers i = .put key value) :
    Schedule.run step [i, i] σ =
      { σ with
        metaMap := putmeta key value σ.metaMap
        handlers := Function.update σ.handlers i .replied
        puts := σ.puts ++ [(key, value)] } := by
  by_cases hkey : key ∈ σ.metaMap
  · have hfind : step i σ =
        { σ with handlers := Function.update σ.handlers i (.putPush key value) } := by
      simp [step, hdefined, hi, hkey]
    rw [Schedule.run_cons, Schedule.run_cons, Schedule.run_nil, hfind]
    simp [step, hdefined, hkey, putmeta, Function.update_idem]
  · have hfind : step i σ =
        { σ with handlers := Function.update σ.handlers i (.putAssign key value) } := by
      simp [step, hdefined, hi, hkey]
    rw [Schedule.run_cons, Schedule.run_cons, Schedule.run_nil, hfind]
    simp [step, hdefined, hkey, putmeta, Function.update_idem]

/-- A `Getmeta` that runs alone takes up to three steps. -/
theorem getmeta_alone (hdefined : σ.undefined = false) (hi : σ.handlers i = .get key) :
    Schedule.run step [i, i, i] σ =
      { σ with
        metaMap := (getmeta key σ.metaMap).1
        handlers := Function.update σ.handlers i .replied
        replies := σ.replies ++ [(key, (σ.metaMap.queue key).head?)] } := by
  rw [Schedule.run_cons, Schedule.run_cons, Schedule.run_cons, Schedule.run_nil]
  by_cases hkey : key ∈ σ.metaMap
  · have hfind : step i σ =
        { σ with handlers := Function.update σ.handlers i (.getEmpty key) } := by
      simp [step, hdefined, hi, hkey]
    rw [hfind]
    cases hq : σ.metaMap.queue key with
    | nil => simp [step, hdefined, hkey, hq, getmeta, Function.update_idem]
    | cons value q => simp [step, hdefined, hkey, hq, getmeta, Function.update_idem]
  · have hfind : step i σ =
        { σ with
          handlers := Function.update σ.handlers i .replied
          replies := σ.replies ++ [(key, none)] } := by
      simp [step, hdefined, hi, hkey]
    rw [hfind]
    simp [step, hdefined, hkey, getmeta, queue_of_notMem]

end Alone

/-! ## The invariant -/

/-- What was returned and what is queued for a key is what was put for it, in order. -/
structure Inv (σ : MetaServer ι) : Prop where
  defined : σ.undefined = false
  conserve : ∀ key, σ.returnedFor key ++ σ.metaMap.queue key = σ.putFor key

section Inv

variable {σ : MetaServer ι} {i : ι} {key value : String}

theorem Inv.balances (h : Inv σ) : Balances σ where
  defined := h.defined
  once key value := by
    rw [← h.conserve, List.count_append]
    omega
  kept key value := by
    rw [← h.conserve, List.count_append]
    omega

/-- A step that neither puts nor takes keeps the invariant. -/
theorem Inv.pass (h : Inv σ) {σ' : MetaServer ι} (hmap : σ'.metaMap = σ.metaMap)
    (hputs : σ'.puts = σ.puts) (hreplies : ∀ key, σ'.returnedFor key = σ.returnedFor key)
    (hdefined : σ'.undefined = σ.undefined) : Inv σ' where
  defined := hdefined.trans h.defined
  conserve key := by
    rw [hmap, hreplies, h.conserve, putFor, putFor, hputs]

/-- A locked section that appends to a queue, or opens one, keeps the invariant. -/
theorem Inv.put (h : Inv σ) {m : MetaMap}
    (hm : ∀ key', m.queue key' =
      if key = key' then σ.metaMap.queue key' ++ [value] else σ.metaMap.queue key')
    (handlers : ι → MetaHandler) :
    Inv { σ with metaMap := m, handlers := handlers, puts := σ.puts ++ [(key, value)] } where
  defined := h.defined
  conserve key' := by
    have hold := h.conserve key'
    simp only [putFor, returnedFor] at hold ⊢
    rw [List.filterMap_append, ← hold, hm]
    by_cases hkey : key = key'
    · simp [hkey]
    · simp [hkey]

/-- A locked section that takes the first element of a queue keeps the invariant. -/
theorem Inv.take (h : Inv σ) {q : List String} (hq : σ.metaMap.queue key = value :: q)
    (handlers : ι → MetaHandler) :
    Inv { σ with
      metaMap := σ.metaMap.pop key
      handlers := handlers
      replies := σ.replies ++ [(key, some value)] } where
  defined := h.defined
  conserve key' := by
    have hold := h.conserve key'
    simp only [putFor, returnedFor] at hold ⊢
    rw [List.filterMap_append, ← hold, MetaMap.pop, queue_insert]
    by_cases hkey : key = key'
    · subst hkey
      simp [hq]
    · simp [hkey]

variable [DecidableEq ι]

/-- **A step that finds what it relies on keeps the invariant.** -/
theorem Inv.step (h : Inv σ) (hconfirmed : Confirmed i σ) : Inv (step i σ) := by
  unfold MetaServer.step
  rw [if_neg (by simp [h.defined])]
  unfold Confirmed at hconfirmed
  split
  · exact h.pass rfl rfl (fun _ => rfl) rfl
  · rename_i key value hpc
    rw [hpc] at hconfirmed
    refine h.put (fun key' => ?_) _
    rw [MetaMap.assign, queue_insert]
    split
    · rename_i hkey
      rw [← hkey, hconfirmed, List.nil_append]
    · rfl
  · rename_i key value hpc
    refine h.put (fun key' => ?_) _
    rw [MetaMap.push, queue_insert]
    split
    · rename_i hkey
      rw [hkey]
    · rfl
  · split
    · exact h.pass rfl rfl (fun _ => rfl) rfl
    · exact h.pass rfl rfl (fun _ => by simp [returnedFor]) rfl
  · split
    · exact h.pass rfl rfl (fun _ => by simp [returnedFor]) rfl
    · exact h.pass rfl rfl (fun _ => rfl) rfl
  · rename_i key hpc
    rw [hpc] at hconfirmed
    split
    · rename_i hq
      exact absurd hq hconfirmed
    · rename_i value q hq
      exact h.take hq _
  · exact h

/-- **A step that does not, breaks the balance.** -/
theorem confirmed_of_balances (h : Inv σ) (hbalances : Balances (MetaServer.step i σ)) :
    Confirmed i σ := by
  unfold Confirmed
  split
  · rename_i key value hpc
    by_contra hqueued
    obtain ⟨first, q, hq⟩ := List.exists_cons_of_ne_nil hqueued
    have hstep : MetaServer.step i σ =
        { σ with
          metaMap := σ.metaMap.assign key value
          handlers := Function.update σ.handlers i .replied
          puts := σ.puts ++ [(key, value)] } := by
      simp [MetaServer.step, h.defined, hpc]
    -- the first element queued is lost when the new queue is assigned
    have hkept := hbalances.kept key first
    have hold := h.conserve key
    simp only [hstep, putFor, returnedFor, MetaMap.assign] at hkept hold
    rw [queue_insert, if_pos rfl, List.filterMap_append, ← hold, hq] at hkept
    simp [List.count_append] at hkept
    omega
  · rename_i key hpc
    intro hq
    have hdefined := hbalances.defined
    simp [MetaServer.step, h.defined, hpc, hq] at hdefined
  · trivial

end Inv

/-- **When the metadata queues lose and duplicate nothing.** In every state of a run the books
balance, exactly if every handler finds at its locked section what it relies on. -/
theorem queuesBalance_iff [DecidableEq ι] (requests : ι → MetaRequest) (ts : List ι) :
    Schedule.Always step Balances ts (start requests) ↔
      Schedule.Along step Confirmed ts (start requests) := by
  apply Schedule.always_iff_along (fun _ (h : Inv _) => h.balances)
    (fun _ _ h hconfirmed => h.step hconfirmed) (fun _ _ h => confirmed_of_balances h)
  exact ⟨rfl, fun key => by simp [returnedFor, putFor, start]⟩

/-- Two handlers put the first values of a key: each finds no queue, and the second one assigns its
new queue over that of the first. -/
theorem queuesBalance_fails :
    ¬ ∀ (requests : Bool → MetaRequest) (ts : List Bool),
      Schedule.Always step Balances ts (start requests) := by
  intro h
  have hend := (h (fun i => .put "k" (if i then "a" else "b")) [true, false, true, false]).run
  have hkept := hend.kept "k" "a"
  revert hkept
  decide +kernel

end MetaServer

end TPST
