import TPST.Foundations.Fifo
import TPST.Foundations.Maps

/-!
# The metadata queues

`metaserver.cc` keeps a queue of metadata for every key. `Putmeta` appends to the queue of its key,
opening one for a new key; `Getmeta` takes the first element of the queue, and answers `NULL` when
there is no queue or an empty one.

Served one request at a time, a key sees the store as a queue of its own (`keyView`): what its
`Getmeta` requests are answered is what the queue answers, whatever happens to other keys
(`replies_fifo`).
-/

namespace TPST

open Std

/-- `metaMap`. -/
abbrev MetaMap := OMap String (List String)

/-- The queue of a key; a key without queue has nothing queued. -/
def MetaMap.queue (metaMap : MetaMap) (key : String) : List String := metaMap[key]?.getD []

/-- `metaMap[key] = metaQueue` for a new queue that holds `value`. -/
def MetaMap.assign (metaMap : MetaMap) (key value : String) : MetaMap :=
  metaMap.insert key [value]

/-- `metaMap[key].push(value)`. -/
def MetaMap.push (metaMap : MetaMap) (key value : String) : MetaMap :=
  metaMap.insert key (metaMap.queue key ++ [value])

/-- `metaMap[key].pop()`. -/
def MetaMap.pop (metaMap : MetaMap) (key : String) : MetaMap :=
  metaMap.insert key (metaMap.queue key).tail

/-- `Putmeta`. -/
def putmeta (key value : String) (metaMap : MetaMap) : MetaMap :=
  if key ∈ metaMap then metaMap.push key value else metaMap.assign key value

/-- `Getmeta`: the queues it leaves and its reply. -/
def getmeta (key : String) (metaMap : MetaMap) : MetaMap × String :=
  if key ∈ metaMap then
    match metaMap.queue key with
    | [] => (metaMap, "NULL")
    | value :: _ => (metaMap.pop key, value)
  else (metaMap, "NULL")

/-- A request for the metadata queues. -/
inductive MetaRequest
  | put (key value : String)
  | get (key : String)
  deriving DecidableEq, Repr

/-- Handle a request. What comes out is the replies of `Getmeta`, with their keys. -/
def serveMeta (metaMap : MetaMap) : MetaRequest → MetaMap × List (String × String)
  | .put key value => (putmeta key value metaMap, [])
  | .get key => ((getmeta key metaMap).1, [(key, (getmeta key metaMap).2)])

/-- The queues before the first request. -/
def MetaMap.empty : MetaMap := ∅

/-! ## One request -/

section Requests

variable {m : MetaMap} {key key' value : String}

@[simp] theorem queue_empty : MetaMap.empty.queue key = [] := by
  simp [MetaMap.queue, MetaMap.empty]

theorem queue_of_notMem (h : key ∉ m) : m.queue key = [] := by
  simp [MetaMap.queue, ExtTreeMap.getElem?_eq_none h]

theorem queue_insert (q : List String) :
    MetaMap.queue (m.insert key q) key' = if key = key' then q else m.queue key' := by
  rw [MetaMap.queue, ExtTreeMap.getElem?_insert]
  by_cases h : key = key'
  · simp [h]
  · simp [h, MetaMap.queue]

theorem queue_putmeta :
    (putmeta key value m).queue key' =
      if key = key' then m.queue key' ++ [value] else m.queue key' := by
  unfold putmeta
  split
  · rw [MetaMap.push, queue_insert]
    split
    · rename_i h
      rw [h]
    · rfl
  · rename_i hnew
    rw [MetaMap.assign, queue_insert]
    split
    · rename_i h
      subst h
      rw [queue_of_notMem hnew, List.nil_append]
    · rfl

/-- `Getmeta` takes the first element of its queue. -/
theorem queue_getmeta :
    (getmeta key m).1.queue key' = if key = key' then (m.queue key').tail else m.queue key' := by
  unfold getmeta
  by_cases hkey : key ∈ m
  · rw [if_pos hkey]
    cases hq : m.queue key with
    | nil =>
      dsimp only
      split
      · rename_i h
        rw [← h, hq, List.tail_nil]
      · rfl
    | cons value q =>
      dsimp only
      rw [MetaMap.pop, queue_insert]
      split
      · rename_i h
        rw [h]
      · rfl
  · rw [if_neg hkey]
    split
    · rename_i h
      rw [← h, queue_of_notMem hkey, List.tail_nil]
    · rfl

theorem getmeta_snd : (getmeta key m).2 = ((m.queue key).head?).getD "NULL" := by
  unfold getmeta
  by_cases hkey : key ∈ m
  · rw [if_pos hkey]
    cases m.queue key <;> rfl
  · rw [if_neg hkey, queue_of_notMem hkey]
    rfl

end Requests

/-! ## What a key sees -/

/-- The operation of a request on the queue of `key`. -/
def opOn (key : String) : MetaRequest → Option (QueueOp String)
  | .put key' value => if key' = key then some (.put value) else none
  | .get key' => if key' = key then some .get else none

/-- The replies of a queue, as `Getmeta` spells them. -/
def repliesOf (key : String) (found : List (Option String)) : List (String × String) :=
  found.map fun value => (key, value.getD "NULL")

/-- **A key sees the store as a queue of its own.** -/
theorem keyView (key : String) :
    View serveMeta (fun q op => ((fifo q op).1, repliesOf key (fifo q op).2)) (fun _ => True)
      (opOn key) (fun reply => reply.1 = key) (fun m q => m.queue key = q) where
  hidden {m q r} h _ hhidden := by
    cases r with
    | put key' value =>
      have hne : key' ≠ key := by
        rintro rfl
        simp [opOn] at hhidden
      refine ⟨?_, rfl⟩
      rw [serveMeta, queue_putmeta, if_neg hne, h]
    | get key' =>
      have hne : key' ≠ key := by
        rintro rfl
        simp [opOn] at hhidden
      refine ⟨?_, ?_⟩
      · rw [serveMeta, queue_getmeta, if_neg hne, h]
      · simp [serveMeta, hne]
  shown {m q r op} h _ hshown := by
    cases r with
    | put key' value =>
      obtain ⟨rfl, rfl⟩ : key' = key ∧ QueueOp.put value = op := by
        simpa [opOn] using hshown
      refine ⟨?_, rfl⟩
      rw [serveMeta, queue_putmeta, if_pos rfl, h]
      rfl
    | get key' =>
      obtain ⟨rfl, rfl⟩ : key' = key ∧ QueueOp.get = op := by
        simpa [opOn] using hshown
      rw [serveMeta, queue_getmeta, if_pos rfl, getmeta_snd, h]
      cases q <;> exact ⟨rfl, by simp [repliesOf, fifo]⟩

/-- What the `Getmeta` requests for `key` are answered. -/
def repliesFor (key : String) (rs : List MetaRequest) : List String :=
  ((answers serveMeta .empty rs).2.filter fun reply => reply.1 = key).map Prod.snd

/-- The values put for `key`. -/
def putsFor (key : String) (rs : List MetaRequest) : List String :=
  (rs.filterMap (opOn key)).filterMap QueueOp.value?

section Runs

variable {key : String} {rs : List MetaRequest}

theorem answers_repliesOf (q : List String) (ops : List (QueueOp String)) :
    answers (fun q op => ((fifo q op).1, repliesOf key (fifo q op).2)) q ops =
      ((answers fifo q ops).1, repliesOf key (answers fifo q ops).2) := by
  induction ops generalizing q with
  | nil => rfl
  | cons op ops ih =>
    simp only [answers, ih]
    rw [repliesOf, repliesOf, repliesOf, List.map_append]

/-- The queue of a key after a run, and the replies for it. -/
theorem queue_and_replies (key : String) (rs : List MetaRequest) :
    (answers serveMeta .empty rs).1.queue key = (answers fifo [] (rs.filterMap (opOn key))).1 ∧
      repliesFor key rs =
        (answers fifo [] (rs.filterMap (opOn key))).2.map fun value => value.getD "NULL" := by
  obtain ⟨hqueue, hreplies⟩ := (keyView key).outputs_eq (s := .empty) queue_empty
    fun r (_ : r ∈ rs) => trivial
  rw [answers_repliesOf] at hqueue hreplies
  refine ⟨hqueue, ?_⟩
  rw [repliesFor, hreplies, repliesOf, List.map_map]
  rfl

/-- The operations of a run put what its requests put. -/
theorem mem_putsFor {value : String} (h : value ∈ putsFor key rs) : .put key value ∈ rs := by
  obtain ⟨op, hop, hvalue⟩ := List.mem_filterMap.1 h
  obtain ⟨r, hr, hopOn⟩ := List.mem_filterMap.1 hop
  cases r with
  | put key' value' =>
    obtain ⟨rfl, rfl⟩ : key' = key ∧ QueueOp.put value' = op := by simpa [opOn] using hopOn
    obtain rfl : value' = value := by simpa [QueueOp.value?] using hvalue
    exact hr
  | get key' =>
    obtain ⟨-, rfl⟩ : key' = key ∧ QueueOp.get = op := by simpa [opOn] using hopOn
    cases hvalue

/-- The replies other than `NULL` are the values taken, if `NULL` was not put. -/
theorem filter_repliesFor (hnull : .put key "NULL" ∉ rs) :
    (repliesFor key rs).filter (· ≠ "NULL") =
      (answers fifo [] (rs.filterMap (opOn key))).2.reduceOption := by
  rw [(queue_and_replies key rs).2]
  have htaken : "NULL" ∉ (answers fifo [] (rs.filterMap (opOn key))).2.reduceOption :=
    fun hmem => hnull (mem_putsFor ((fifo_taken _).subset hmem))
  generalize (answers fifo [] (rs.filterMap (opOn key))).2 = found at htaken
  induction found with
  | nil => rfl
  | cons value found ih =>
    cases value with
    | none =>
      rw [List.reduceOption_cons_of_none] at htaken ⊢
      rw [List.map_cons, List.filter_cons_of_neg (by simp), ih htaken]
    | some value =>
      rw [List.reduceOption_cons_of_some] at htaken ⊢
      rw [List.mem_cons, not_or] at htaken
      obtain ⟨hhead, htail⟩ := htaken
      rw [List.map_cons, List.filter_cons_of_pos (by simpa using Ne.symm hhead), ih htail]
      rfl

/-- **Served one at a time, the store is a family of queues.** For each key, the replies other than
`NULL` are the first values put, in order; a `Getmeta` is answered `NULL` exactly if all values put
have been returned; and requests for other keys make no difference. -/
theorem replies_fifo (hnull : ∀ key, .put key "NULL" ∉ rs) (key : String) :
    (repliesFor key rs).filter (· ≠ "NULL") <+: putsFor key rs ∧
      ((serveMeta (answers serveMeta .empty rs).1 (.get key)).2 = [(key, "NULL")] ↔
        (repliesFor key rs).filter (· ≠ "NULL") = putsFor key rs) ∧
      repliesFor key rs = repliesFor key (rs.filter fun r => (opOn key r).isSome) := by
  rw [filter_repliesFor (hnull key)]
  refine ⟨fifo_taken _, ?_, ?_⟩
  · -- what is left in the queue was put, and is not `NULL`
    have hconserve := fifo_conserve [] (rs.filterMap (opOn key))
    rw [List.nil_append] at hconserve
    simp only [serveMeta, getmeta_snd, (queue_and_replies key rs).1, List.cons.injEq, and_true,
      Prod.mk.injEq, true_and]
    cases hleft : (answers fifo [] (rs.filterMap (opOn key))).1 with
    | nil =>
      rw [hleft, List.append_nil] at hconserve
      exact iff_of_true rfl hconserve
    | cons value q =>
      rw [hleft] at hconserve
      have hput : value ∈ putsFor key rs := by
        rw [putsFor, ← hconserve]
        simp
      refine iff_of_false ?_ fun hall => ?_
      · rintro rfl
        exact hnull key (mem_putsFor hput)
      · rw [putsFor, ← hconserve] at hall
        simpa using congrArg List.length hall
  · rw [(queue_and_replies key rs).2, (queue_and_replies key _).2, List.filterMap_filter]
    congr 3
    apply List.filterMap_congr
    intro r _
    cases opOn key r <;> rfl

/-- A key that is drained and refilled, with another key in between. -/
theorem replies_fifo_refilled :
    (repliesFor "k" [.put "k" "a", .get "k", .put "j" "x", .get "k", .put "k" "b"]).filter
        (· ≠ "NULL") <+: ["a", "b"] :=
  (replies_fifo (by simp) "k").1

end Runs

end TPST
