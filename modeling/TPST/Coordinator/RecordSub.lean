import TPST.Coordinator.Balance
import TPST.Server.Reach

/-!
# What the coordinator is told

After a subscription a server tells its coordinator how many clients it has for the events of the
list (`RecordSub`). It looks the events up in `subtoClient` as they stand in the list, while the
rows there are filed under names without counts; so of a list it reports the first event, unless
that has a count, and other events only if they head a row of their own.

The coordinator keeps the largest number it is told (`recorded_recordAll_le_iff`), in whatever order
and however often (`recordAll_eq_of_mem_iff`).
-/

namespace TPST

open Std

/-- `subtoClient[event].size()`. -/
def Store.subNum (s : Store) (event : String) : ℕ := (s.clients event).length

/-- `updateStatusMap`, whose `eventRecordMap[event][serverAddr]` opens an entry, at 0, that is not
there. -/
def updateStatusMap (event serverAddr : String) (subNumber : Int) (m : EventRecordMap) :
    EventRecordMap :=
  match m[event]? with
  | none => OMap.insertCell m event serverAddr subNumber
  | some row =>
    let current := row.getD serverAddr 0
    OMap.insertCell m event serverAddr (if current < subNumber then subNumber else current)

/-- `RecordSubRequest`. -/
structure RecordSubRequest where
  serverAddr : String
  subEvent : String
  subNum : Int
  deriving DecidableEq, Repr

/-- `RecordSub` on the coordinator. -/
def recordSub (m : EventRecordMap) (request : RecordSubRequest) : EventRecordMap :=
  updateStatusMap request.subEvent request.serverAddr request.subNum m

/-- The coordinator handles requests, one after the other. -/
def recordAll (requests : List RecordSubRequest) (m : EventRecordMap) : EventRecordMap :=
  requests.foldl recordSub m

/-- What `Subscribe` reports: the events of the list that are keys of `subtoClient`. -/
def recordSubs (serverAddr : String) (eventList : List String) (s : Store) :
    List RecordSubRequest :=
  (eventList.filter (· ∈ s.subtoClient)).map fun eventStr =>
    ⟨serverAddr, eventStr, s.subNum eventStr⟩

/-- `Subscribe` on a server that knows its coordinator: the store it leaves and what it reports. It
refuses an empty client id, and an exception of `pubsubSubscribe` ends it. -/
def handleSubscribe (serverAddr : String) (eventList : List String)
    (clientId notifyAddr matchType metadata : String) (s : Store) :
    Store × List RecordSubRequest :=
  if clientId = "" then (s, [])
  else
    match pubsubSubscribe eventList clientId notifyAddr matchType metadata s with
    | .next s' => (s', recordSubs serverAddr eventList s')
    | .ret s' => (s', recordSubs serverAddr eventList s')
    | .fault _ s' => (s', [])

/-! ## The record -/

section Record

variable {m : EventRecordMap} {e a : String}

@[simp] theorem mem_updateStatusMap {event serverAddr : String} {n : Int} :
    e ∈ updateStatusMap event serverAddr n m ↔ event = e ∨ e ∈ m := by
  unfold updateStatusMap
  cases m[event]? <;> exact OMap.mem_insertCell

/-- The entry of a server for an event becomes the larger of what it was and the number it is told,
and the others stay. -/
theorem cell_updateStatusMap {event serverAddr : String} {n : Int} (hn : 0 ≤ n) :
    OMap.cell (updateStatusMap event serverAddr n m) e a =
      if event = e ∧ serverAddr = a then max (some n) (OMap.cell m e a) else OMap.cell m e a := by
  unfold updateStatusMap
  cases hrow : m[event]? with
  | none =>
    rw [OMap.cell_insertCell]
    split
    · rename_i hplace
      obtain ⟨rfl, rfl⟩ := hplace
      simp [OMap.cell, hrow]
    · rfl
  | some row =>
    rw [OMap.cell_insertCell]
    split
    · rename_i hplace
      obtain ⟨rfl, rfl⟩ := hplace
      rw [OMap.cell, hrow, Option.bind_some, ExtTreeMap.getD_eq_getD_getElem?]
      cases row[serverAddr]? with
      | none =>
        rw [Option.getD_none, Option.max_none_right, Option.some_inj]
        split <;> omega
      | some current =>
        rw [Option.getD_some, Option.max_some_some, Option.some_inj, max_def]
        split <;> split <;> omega
    · rfl

/-- **The coordinator keeps the larger number.** -/
theorem recorded_updateStatusMap {event serverAddr : String} {n : Int} (hn : 0 ≤ n) :
    recorded (updateStatusMap event serverAddr n m) e a =
      if event = e ∧ serverAddr = a then max (recorded m e a) n else recorded m e a := by
  rw [recorded, recorded, cell_updateStatusMap hn]
  split
  · cases OMap.cell m e a with
    | none => rw [Option.max_none_right, Option.getD_some, Option.getD_none, max_eq_right hn]
    | some current => rw [Option.max_some_some, Option.getD_some, Option.getD_some, max_comm]
  · rfl

theorem mem_recordAll {requests : List RecordSubRequest} :
    e ∈ recordAll requests m ↔ (∃ r ∈ requests, r.subEvent = e) ∨ e ∈ m := by
  induction requests generalizing m with
  | nil => simp [recordAll]
  | cons r requests ih =>
    rw [recordAll, List.foldl_cons, ← recordAll, ih, recordSub, mem_updateStatusMap,
      List.exists_mem_cons_iff, ← or_assoc, or_comm (a := r.subEvent = e)]

/-- **What the record shows** is the least number that is not below what was there and what was
reported. -/
theorem recorded_recordAll_le_iff {requests : List RecordSubRequest}
    (hpos : ∀ r ∈ requests, 0 ≤ r.subNum) {y : Int} :
    recorded (recordAll requests m) e a ≤ y ↔
      recorded m e a ≤ y ∧
        ∀ r ∈ requests, r.subEvent = e → r.serverAddr = a → r.subNum ≤ y := by
  induction requests generalizing m with
  | nil => simp [recordAll]
  | cons r requests ih =>
    rw [recordAll, List.foldl_cons, ← recordAll,
      ih fun r' hr' => hpos r' (by simp [hr']), recordSub,
      recorded_updateStatusMap (hpos r (by simp)), List.forall_mem_cons]
    split
    · rename_i hplace
      rw [Int.max_le]
      tauto
    · tauto

/-! ### Order and repetition -/

/-- The counts that the requests report for a server and an event. -/
def countsFor (requests : List RecordSubRequest) (e a : String) : List Int :=
  (requests.filter fun r => r.subEvent = e ∧ r.serverAddr = a).map RecordSubRequest.subNum

theorem mem_countsFor {requests : List RecordSubRequest} {n : Int} :
    n ∈ countsFor requests e a ↔ ⟨a, e, n⟩ ∈ requests := by
  rw [countsFor, List.mem_map]
  constructor
  · rintro ⟨r, hr, rfl⟩
    obtain ⟨hmem, hplace⟩ := List.mem_filter.1 hr
    obtain ⟨rfl, rfl⟩ := of_decide_eq_true hplace
    exact hmem
  · intro hmem
    exact ⟨_, List.mem_filter.2 ⟨hmem, decide_eq_true ⟨rfl, rfl⟩⟩, rfl⟩

/-- **An entry is the maximum** of what it was and the counts reported for it. -/
theorem cell_recordAll {requests : List RecordSubRequest} (hpos : ∀ r ∈ requests, 0 ≤ r.subNum) :
    OMap.cell (recordAll requests m) e a =
      max (countsFor requests e a).max? (OMap.cell m e a) := by
  induction requests generalizing m with
  | nil => exact (Option.max_none_left).symm
  | cons r requests ih =>
    rw [recordAll, List.foldl_cons, ← recordAll, ih fun r' hr' => hpos r' (by simp [hr']),
      recordSub, cell_updateStatusMap (hpos r (by simp)), countsFor, countsFor, List.filter_cons]
    by_cases hplace : r.subEvent = e ∧ r.serverAddr = a
    · rw [if_pos hplace, if_pos (decide_eq_true hplace), List.map_cons, List.max?_cons,
        ← countsFor]
      cases (countsFor requests e a).max? <;> cases OMap.cell m e a <;>
        simp [max_left_comm, max_comm]
    · rw [if_neg hplace, if_neg (by simpa using hplace)]

/-- A maximum depends on the members only. -/
theorem max?_eq_of_mem_iff {l l' : List Int} (h : ∀ n, n ∈ l ↔ n ∈ l') : l.max? = l'.max? := by
  cases hmax : l'.max? with
  | none =>
    rw [List.max?_eq_none_iff] at hmax ⊢
    subst hmax
    exact List.eq_nil_iff_forall_not_mem.2 fun n hn => List.not_mem_nil ((h n).1 hn)
  | some n =>
    rw [List.max?_eq_some_iff] at hmax ⊢
    exact ⟨(h n).2 hmax.1, fun k hk => hmax.2 k ((h k).1 hk)⟩

/-- **The order of the requests does not matter, nor do repetitions**: what is recorded depends on
which requests were handled. Every entry is the maximum of what it was and the counts reported for
it, and there are no other new entries. -/
theorem recordAll_eq_of_mem_iff {requests requests' : List RecordSubRequest}
    (hpos : ∀ r ∈ requests, 0 ≤ r.subNum) (hsame : ∀ r, r ∈ requests ↔ r ∈ requests')
    (m : EventRecordMap) :
    recordAll requests m = recordAll requests' m ∧
      (∀ e a, OMap.cell (recordAll requests m) e a =
        max (countsFor requests e a).max? (OMap.cell m e a)) ∧
      ∀ e, e ∈ recordAll requests m ↔ (∃ r ∈ requests, r.subEvent = e) ∨ e ∈ m := by
  refine ⟨OMap.ext_cell (fun e => ?_) (fun e a => ?_), fun e a => cell_recordAll hpos,
    fun e => mem_recordAll⟩
  · simp only [mem_recordAll, hsame]
  · have hcounts : ∀ n, n ∈ countsFor requests e a ↔ n ∈ countsFor requests' e a := by
      simp only [mem_countsFor, hsame, implies_true]
    rw [cell_recordAll hpos, cell_recordAll fun r hr => hpos r ((hsame r).2 hr),
      max?_eq_of_mem_iff hcounts]

/-- Two servers report an event that a third one has, one of them a smaller number first; the same
requests in another order, one of them twice. -/
theorem recordAll_eq_reordered :
    recordAll [⟨"a", "e", 1⟩, ⟨"a", "e", 3⟩, ⟨"b", "e", 0⟩] (OMap.insertCell ∅ "e" "c" 2) =
      recordAll [⟨"b", "e", 0⟩, ⟨"a", "e", 3⟩, ⟨"a", "e", 1⟩, ⟨"a", "e", 3⟩]
        (OMap.insertCell ∅ "e" "c" 2) :=
  (recordAll_eq_of_mem_iff (by decide) (fun r => by simp only [List.mem_cons]; tauto) _).1

end Record

/-! ## What is reported -/

section Reports

variable {serverAddr c addr mt md : String} {evs : List String} {s : Store}

theorem mem_recordSubs {r : RecordSubRequest} :
    r ∈ recordSubs serverAddr evs s ↔ r.subEvent ∈ evs ∧ r.subEvent ∈ s.subtoClient ∧
      r = ⟨serverAddr, r.subEvent, s.subNum r.subEvent⟩ := by
  rw [recordSubs, List.mem_map]
  constructor
  · rintro ⟨ev, hev, rfl⟩
    obtain ⟨hlist, hrow⟩ := List.mem_filter.1 hev
    exact ⟨hlist, of_decide_eq_true hrow, rfl⟩
  · rintro ⟨hlist, hrow, hr⟩
    exact ⟨r.subEvent, List.mem_filter.2 ⟨hlist, decide_eq_true hrow⟩, hr.symm⟩

/-- An event is reported if it is in the list and heads a row. -/
theorem exists_mem_recordSubs {e : String} :
    (∃ r ∈ recordSubs serverAddr evs s, r.subEvent = e) ↔ e ∈ evs ∧ e ∈ s.subtoClient := by
  constructor
  · rintro ⟨r, hr, rfl⟩
    obtain ⟨hlist, hrow, -⟩ := mem_recordSubs.1 hr
    exact ⟨hlist, hrow⟩
  · rintro ⟨hlist, hrow⟩
    exact ⟨⟨serverAddr, e, s.subNum e⟩, mem_recordSubs.2 ⟨hlist, hrow, rfl⟩, rfl⟩

@[simp] theorem handleSubscribe_fst :
    (handleSubscribe serverAddr evs c addr mt md s).1 = subscribe evs c addr mt md s := by
  unfold handleSubscribe subscribe
  split
  · rfl
  · cases pubsubSubscribe evs c addr mt md s <;> rfl

/-- A subscription that is made is reported as the store shows it. -/
theorem handleSubscribe_ok {req : String × Int} {reqs : List (String × Int)} (hc : c ≠ "")
    (hparse : Parses evs (req :: reqs)) :
    handleSubscribe serverAddr evs c addr mt md s =
      (s.subscribed c addr mt md req reqs,
        recordSubs serverAddr evs (s.subscribed c addr mt md req reqs)) := by
  rw [handleSubscribe, if_neg hc, pubsubSubscribe_ok hparse]

/-- A report comes from the store after the subscription. -/
theorem mem_handleSubscribe_snd {r : RecordSubRequest}
    (hr : r ∈ (handleSubscribe serverAddr evs c addr mt md s).2) :
    r ∈ recordSubs serverAddr evs (subscribe evs c addr mt md s) := by
  unfold handleSubscribe at hr
  unfold subscribe
  split at hr
  · cases hr
  · rename_i hc
    rw [if_neg hc]
    cases hsub : pubsubSubscribe evs c addr mt md s with
    | next s' => rwa [hsub] at hr
    | ret s' => rwa [hsub] at hr
    | fault x s' => simp [hsub] at hr

end Reports

end TPST
