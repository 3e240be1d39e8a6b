import Mathlib.Algebra.Order.Group.Multiset
import Mathlib.Data.Multiset.MapFold
import Mathlib.Tactic.Abel
import TPST.Foundations.Linearization
import TPST.Foundations.Threads
import TPST.Server.Adding
import TPST.Server.FailedSubscribe

/-!
# Subscriptions from many threads

Every request is served by a thread of its own. `addNewClient` enters its index event for one event
of its list after the other, each under `getIndexMtx`, and files the wrapper under `subtoClientMtx`;
`eventUnSubscribe` looks for the row and for the client without a lock before it takes
`subtoClientMtx` and erases; `deleteClient` does all under `subtoClientMtx`.

This is a model of any number of these calls under any interleaving of their atomic steps. Whatever
the interleaving, they leave what they leave one after the other, in the order in which they return
(`serial_order`): the index events that a call has entered so far are there in addition
(`Serial.index`), and it does not matter in which order they come (`enter_comm`). In between the
index map leads to every wrapper that is filed (`filed_run`).
-/

namespace TPST

open Schedule Adding

namespace Subscriptions

/-- A call, with its arguments. -/
inductive Call
  | subscribe (call : AddCall)
  | unSubscribe (event clientId : String)
  | delete (subevent clientid : String)

/-- Where a call is. -/
inductive Pc
  /-- At its beginning. -/
  | call
  /-- In `addNewClient`, with the rest of the list and the new wrapper's required events. -/
  | adding (index : String) (eventList : List String) (requiredeventMap : OMap String (OSet Int))
  /-- In `eventUnSubscribe`, looking for the client in the row. -/
  | findClient
  /-- Erasing the client, under `subtoClientMtx`. -/
  | erase
  | done

/-- What the call does in one go. -/
def Call.exec : Call → Store → Store
  | .subscribe call, s =>
    (pubsubSubscribe call.eventList call.clientid call.notifyAddr call.matchType
      call.subMetadata s).state
  | .unSubscribe event clientId, s => eventUnSubscribe event clientId s
  | .delete subevent clientid, s => deleteClient subevent clientid s

/-- The next step of a call. An exception of `ParseEvent` ends it. -/
def Call.next : Call → Pc × Store → Pc × Store
  | .subscribe call, (.call, s) =>
    match call.eventList with
    | [] => (.done, s)
    | first :: _ =>
      match parseEvent first with
      | .ok (index, _) => (.adding index call.eventList ∅, s)
      | .error _ => (.done, s)
  | .subscribe _, (.adding index (fullEvent :: eventList) requiredeventMap, s) =>
    match parseEvent fullEvent with
    | .ok (event, num) =>
      (.adding index eventList (addRequired requiredeventMap event num),
        { s with getIndexMap := addIndex s.getIndexMap event index })
    | .error _ => (.done, s)
  | .subscribe call, (.adding index [] requiredeventMap, s) =>
    (.done,
      { s with
        subtoClient := OMap.insertCell s.subtoClient index call.clientid (newWrapper call.clientid
          call.notifyAddr call.matchType call.subMetadata requiredeventMap) })
  | .unSubscribe event _, (.call, s) =>
    (if event ∈ s.subtoClient then .findClient else .done, s)
  | .unSubscribe event clientId, (.findClient, s) =>
    (if (s.wrapper? event clientId).isSome then .erase else .done,
      { s with subtoClient := OMap.openRow s.subtoClient event })
  | .unSubscribe event clientId, (.erase, s) => (.done, deleteClient event clientId s)
  | .delete subevent clientid, (.call, s) => (.done, deleteClient subevent clientid s)
  | _, (pc, s) => (pc, s)

/-- The maps and the calls. -/
structure State where
  store : Store
  threads : List (Call × Pc)

/-- The thread `i` takes its next step. -/
def step (i : ℕ) (σ : State) : State :=
  match σ.threads[i]? with
  | none => σ
  | some (call, pc) =>
    let next := call.next (pc, σ.store)
    { store := next.2, threads := σ.threads.set i (call, next.1) }

/-- The calls at their beginning, on a store. -/
def start (calls : List Call) (s : Store) : State where
  store := s
  threads := calls.map fun call => (call, .call)

/-- The call has returned. -/
def Pc.isDone : Pc → Bool
  | .done => true
  | _ => false

/-- The thread `i` has returned. -/
def Over (i : ℕ) (σ : State) : Prop := ∃ call, σ.threads[i]? = some (call, .done)

/-- The next step of the thread `i` is the one by which it returns. -/
def returns (i : ℕ) (σ : State) : Bool :=
  match σ.threads[i]? with
  | none => false
  | some (call, pc) => !pc.isDone && (call.next (pc, σ.store)).1.isDone

/-- What the thread `i` does in one go. -/
def exec (calls : List Call) (i : ℕ) (s : Store) : Store :=
  match calls[i]? with
  | none => s
  | some call => call.exec s

/-! ## The index events of calls that are under way -/

/-- Enter an index event for an event. -/
def enter (m : OMap String (OSet String)) (entry : String × String) : OMap String (OSet String) :=
  addIndex m entry.1 entry.2

/-- The order in which index events are entered does not matter. -/
theorem enter_comm (m : OMap String (OSet String)) (entry entry' : String × String) :
    enter (enter m entry) entry' = enter (enter m entry') entry := by
  obtain ⟨e, ix⟩ := entry
  obtain ⟨e', ix'⟩ := entry'
  have hinsert (set : OSet String) : (set.insert ix).insert ix' = (set.insert ix').insert ix := by
    apply Std.ExtTreeSet.ext_mem
    intro k
    simp only [Std.ExtTreeSet.mem_insert]
    tauto
  apply Std.ExtTreeMap.ext_getElem?
  intro k
  simp only [enter, addIndex, Std.ExtTreeMap.getElem?_alter]
  by_cases he : e = e'
  · subst he
    by_cases hk : e = k
    · subst hk
      cases hset : m[e]? with
      | none =>
        have hnew := hinsert ∅
        simpa [hset] using hnew
      | some set => simp [hinsert]
    · simp [hk]
  · by_cases hk : e = k
    · subst hk
      simp [Ne.symm he]
    · by_cases hk' : e' = k <;> simp [hk, hk']

instance : RightCommutative enter := ⟨enter_comm⟩

/-- The index map with some more index events, in whatever order. -/
def enterAll (m : OMap String (OSet String)) (entries : Multiset (String × String)) :
    OMap String (OSet String) := entries.foldl enter m

theorem enterAll_parsed (m : OMap String (OSet String)) (index : String)
    (reqs : List (String × Int)) :
    enterAll m (reqs.map fun req => (req.1, index)) = indexAll m index reqs := by
  rw [enterAll, Multiset.coe_foldl, List.foldl_map]
  rfl

/-- What a call has entered so far. -/
def entered : Call × Pc → Multiset (String × String)
  | (.subscribe call, .adding index eventList _) =>
    ↑((parsedPrefix (call.eventList.take (call.eventList.length - eventList.length))).map
      fun req => (req.1, index))
  | _ => 0

theorem entered_adding {call : AddCall} {index : String} {consumed eventList : List String}
    {required : OMap String (OSet Int)} (hlist : call.eventList = consumed ++ eventList) :
    entered (.subscribe call, .adding index eventList required) =
      ↑((parsedPrefix consumed).map fun req => (req.1, index)) := by
  have htake : call.eventList.take (call.eventList.length - eventList.length) = consumed := by
    rw [hlist, List.length_append, Nat.add_sub_cancel, List.take_left]
  rw [entered, htake]

theorem parsedPrefix_append {evs : List String} {reqs : List (String × Int)} (h : Parses evs reqs)
    (rest : List String) : parsedPrefix (evs ++ rest) = reqs ++ parsedPrefix rest := by
  induction h with
  | nil => rfl
  | cons hparse _ ih => rw [List.cons_append, parsedPrefix, hparse, List.cons_append, ← ih]

/-- What a call that is under way has done and seen. -/
def Local (s : Store) : Call × Pc → Prop
  | (.subscribe call, .adding index eventList required) =>
    ∃ consumed reqs, call.eventList = consumed ++ eventList ∧ Parses consumed reqs ∧
      required = requiredOf reqs ∧
      ∃ first rest num, call.eventList = first :: rest ∧ parseEvent first = .ok (index, num)
  | (.unSubscribe event _, .findClient) => event ∈ s.subtoClient
  | (.unSubscribe event _, .erase) => event ∈ s.subtoClient
  | _ => True

/-- The state of a run, and the store that the calls that have returned leave one after the
other. -/
structure Serial (σ : State) (s : Store) : Prop where
  subtoClient : σ.store.subtoClient = s.subtoClient
  index : σ.store.getIndexMap = enterAll s.getIndexMap (σ.threads.map entered).sum
  locals : ∀ thread ∈ σ.threads, Local σ.store thread

theorem Local.of_rows {s s' : Store} {thread : Call × Pc} (h : Local s thread)
    (hrows : ∀ ix, ix ∈ s.subtoClient → ix ∈ s'.subtoClient) : Local s' thread := by
  obtain ⟨call, pc⟩ := thread
  cases call with
  | unSubscribe event clientId =>
    cases pc with
    | findClient | erase => exact hrows event h
    | _ => trivial
  | subscribe call =>
    cases pc with
    | adding => exact h
    | _ => trivial
  | delete => trivial

section Next

variable {s : Store} {event clientId : String}

/-- What a step of a call does: it enters some index events, or it returns, and then it has done
what the whole call does to a store with the same subscriptions. -/
structure Advances (call : Call) (pc pc' : Pc) (s s' : Store) : Prop where
  here : Local s' (call, pc')
  rows : ∀ ix, ix ∈ s.subtoClient → ix ∈ s'.subtoClient
  goesOn : pc'.isDone = false → s'.subtoClient = s.subtoClient ∧
    ∃ new, entered (call, pc') = entered (call, pc) + new ∧
      s'.getIndexMap = enterAll s.getIndexMap new
  returns : pc'.isDone = true → s'.getIndexMap = s.getIndexMap ∧
    ∀ a : Store, a.subtoClient = s.subtoClient →
      (call.exec a).subtoClient = s'.subtoClient ∧
        (call.exec a).getIndexMap = enterAll a.getIndexMap (entered (call, pc))

/-- A step that changes nothing but the position. -/
theorem Advances.silent {call : Call} {pc pc' : Pc} (hlocal : Local s (call, pc'))
    (hpc : pc'.isDone = false) (hentered : entered (call, pc') = entered (call, pc)) :
    Advances call pc pc' s s where
  here := hlocal
  rows _ h := h
  goesOn _ := ⟨rfl, 0, by rw [hentered, add_zero], rfl⟩
  returns h := Bool.false_ne_true (hpc.symm.trans h) |>.elim

/-- A call that returns without having changed anything. -/
theorem Advances.unchanged {call : Call} {pc : Pc}
    (hexec : ∀ a : Store, a.subtoClient = s.subtoClient → call.exec a = a)
    (hentered : entered (call, pc) = 0) : Advances call pc .done s s where
  here := by cases call <;> trivial
  rows _ h := h
  goesOn h := Bool.noConfusion h
  returns _ := by
    refine ⟨rfl, fun a ha => ?_⟩
    rw [hexec a ha, hentered]
    exact ⟨ha, rfl⟩

theorem wrapper?_congr {a : Store} (ha : a.subtoClient = s.subtoClient) (ix c : String) :
    a.wrapper? ix c = s.wrapper? ix c := congrArg (fun m => OMap.cell m ix c) ha

theorem eventUnSubscribe_of_none (h : s.wrapper? event clientId = none) :
    eventUnSubscribe event clientId s = s := by
  rw [eventUnSubscribe, h]
  rfl

theorem advances_adding {call : AddCall} {index : String} {eventList : List String}
    {required : OMap String (OSet Int)}
    (h : Local s (.subscribe call, .adding index eventList required)) :
    let next := Call.next (.subscribe call) (.adding index eventList required, s)
    Advances (.subscribe call) (.adding index eventList required) next.1 s next.2 := by
  obtain ⟨consumed, reqs, hlist, hparses, rfl, first, rest, num, hfirst, hindex⟩ := h
  have hentered : entered (.subscribe call, .adding index eventList (requiredOf reqs)) = _ :=
    entered_adding hlist
  have hconsumed : parsedPrefix consumed = reqs := by
    have hprefix := parsedPrefix_append hparses []
    rwa [List.append_nil, parsedPrefix, List.append_nil] at hprefix
  rw [hconsumed] at hentered
  -- the loop up to here, on any store
  have hloop (a : Store) := forEach_requireEvent index hparses a.getIndexMap ∅
  cases eventList with
  | nil =>
    rw [List.append_nil] at hlist
    refine {
      here := trivial
      rows := fun ix hix => OMap.mem_insertCell.2 (.inr hix)
      goesOn := fun h => Bool.noConfusion h
      returns := fun _ => ⟨rfl, fun a ha => ?_⟩ }
    have hexec : Call.exec (.subscribe call) a = ⟨indexAll a.getIndexMap index reqs,
        OMap.insertCell a.subtoClient index call.clientid (newWrapper call.clientid
          call.notifyAddr call.matchType call.subMetadata (requiredOf reqs))⟩ := by
      simp only [Call.exec, pubsubSubscribe, hfirst, addNewClient, hindex]
      rw [← hfirst, hlist, hloop a]
      rfl
    rw [hexec, hentered, enterAll_parsed, ha]
    exact ⟨rfl, rfl⟩
  | cons fullEvent eventList =>
    cases hparse : parseEvent fullEvent with
    | ok req =>
      obtain ⟨event, n⟩ := req
      have hlist' : call.eventList = (consumed ++ [fullEvent]) ++ eventList := by
        rw [hlist, List.append_assoc, List.singleton_append]
      have hparses' : Parses (consumed ++ [fullEvent]) (reqs ++ [(event, n)]) :=
        List.rel_append hparses (.cons hparse .nil)
      have hnext : Call.next (.subscribe call)
          (.adding index (fullEvent :: eventList) (requiredOf reqs), s) =
            (.adding index eventList (addRequired (requiredOf reqs) event n),
              { s with getIndexMap := addIndex s.getIndexMap event index }) := by
        simp only [Call.next, hparse]
      rw [hnext]
      refine {
        here := ⟨consumed ++ [fullEvent], reqs ++ [(event, n)], hlist', hparses', ?_, first, rest,
          num, hfirst, hindex⟩
        rows := fun _ hix => hix
        goesOn := fun _ => ⟨rfl, {(event, index)}, ?_, ?_⟩
        returns := fun h => Bool.noConfusion h }
      · rw [requiredOf, requiredOf, List.foldl_append]
        rfl
      · rw [entered_adding hlist', hentered, parsedPrefix_append hparses, parsedPrefix, hparse,
          List.map_append]
        rfl
      · rw [enterAll, ← Multiset.coe_singleton, Multiset.coe_foldl]
        rfl
    | error e =>
      have hnext : Call.next (.subscribe call)
          (.adding index (fullEvent :: eventList) (requiredOf reqs), s) = (.done, s) := by
        simp only [Call.next, hparse]
      rw [hnext]
      refine {
        here := trivial
        rows := fun _ hix => hix
        goesOn := fun h => Bool.noConfusion h
        returns := fun _ => ⟨rfl, fun a ha => ?_⟩ }
      have hexec : Call.exec (.subscribe call) a =
          { a with getIndexMap := indexAll a.getIndexMap index reqs } := by
        simp only [Call.exec, pubsubSubscribe, hfirst, addNewClient, hindex]
        rw [← hfirst, hlist, Flow.forEach_append, hloop a, Flow.next_andThen, Flow.forEach_cons,
          requireEvent, hparse]
        rfl
      rw [hexec, hentered, enterAll_parsed]
      exact ⟨ha, rfl⟩

end Next

/-- **Every step of a call enters index events or returns.** -/
theorem advances_next {s : Store} {call : Call} {pc : Pc} (hpc : pc.isDone = false)
    (h : Local s (call, pc)) :
    Advances call pc (call.next (pc, s)).1 s (call.next (pc, s)).2 := by
  cases call with
  | subscribe call =>
    cases pc with
    | call =>
      cases hlist : call.eventList with
      | nil =>
        have hnext : Call.next (.subscribe call) (.call, s) = (.done, s) := by
          simp only [Call.next, hlist]
        rw [hnext]
        refine .unchanged (fun a _ => ?_) rfl
        simp only [Call.exec, pubsubSubscribe, hlist, addNewClient, Flow.state_ret]
      | cons first rest =>
        cases hparse : parseEvent first with
        | error e =>
          have hnext : Call.next (.subscribe call) (.call, s) = (.done, s) := by
            simp only [Call.next, hlist, hparse]
          rw [hnext]
          refine .unchanged (fun a _ => ?_) rfl
          simp only [Call.exec, pubsubSubscribe, hlist, addNewClient, hparse, Flow.state_fault]
        | ok req =>
          obtain ⟨index, num⟩ := req
          have hnext : Call.next (.subscribe call) (.call, s) =
              (.adding index call.eventList ∅, s) := by
            simp only [Call.next, hlist, hparse]
          rw [hnext]
          exact .silent ⟨[], [], rfl, .nil, rfl, first, rest, num, hlist, hparse⟩ rfl
            (entered_adding (List.nil_append _).symm)
    | adding index eventList required => exact advances_adding h
    | done => cases hpc
    | _ => exact .silent h rfl rfl
  | unSubscribe event clientId =>
    have hexec {a : Store} (ha : a.subtoClient = s.subtoClient)
        (hnone : s.wrapper? event clientId = none) :
        Call.exec (.unSubscribe event clientId) a = a :=
      eventUnSubscribe_of_none ((wrapper?_congr ha event clientId).trans hnone)
    cases pc with
    | call =>
      by_cases hrow : event ∈ s.subtoClient
      · have hnext : Call.next (.unSubscribe event clientId) (.call, s) = (.findClient, s) := by
          simp only [Call.next, if_pos hrow]
        rw [hnext]
        exact .silent hrow rfl rfl
      · have hnext : Call.next (.unSubscribe event clientId) (.call, s) = (.done, s) := by
          simp only [Call.next, if_neg hrow]
        rw [hnext]
        refine .unchanged (fun a ha => hexec ha ?_) rfl
        exact Option.eq_none_iff_forall_ne_some.2 fun w hw => hrow (OMap.mem_of_cell hw)
    | findClient =>
      have hopen : ({ s with subtoClient := OMap.openRow s.subtoClient event } : Store) = s := by
        rw [OMap.openRow_eq_self (show event ∈ s.subtoClient from h)]
      cases hw : s.wrapper? event clientId with
      | some w =>
        have hnext : Call.next (.unSubscribe event clientId) (.findClient, s) = (.erase, s) := by
          simp only [Call.next, hw, hopen, Option.isSome_some, if_true]
        rw [hnext]
        exact .silent (show event ∈ s.subtoClient from h) rfl rfl
      | none =>
        have hnext : Call.next (.unSubscribe event clientId) (.findClient, s) = (.done, s) := by
          simp only [Call.next, hw, hopen, Option.isSome_none, Bool.false_eq_true, if_false]
        rw [hnext]
        exact .unchanged (fun a ha => hexec ha hw) rfl
    | erase =>
      refine {
        here := trivial
        rows := fun ix hix => OMap.mem_eraseCell.2 (OMap.mem_openRow.2 (.inr hix))
        goesOn := fun h => Bool.noConfusion h
        returns := fun _ => ⟨rfl, fun a ha => ?_⟩ }
      have hopen : OMap.openRow s.subtoClient event = s.subtoClient :=
        OMap.openRow_eq_self (show event ∈ s.subtoClient from h)
      change (eventUnSubscribe event clientId a).subtoClient =
          OMap.eraseCell (OMap.openRow s.subtoClient event) event clientId ∧
        (eventUnSubscribe event clientId a).getIndexMap = a.getIndexMap
      refine ⟨?_, getIndexMap_eventUnSubscribe event clientId a⟩
      rw [hopen, ← ha, eventUnSubscribe]
      split
      · rfl
      · -- another call has erased the client in between
        rename_i hnone
        exact (OMap.eraseCell_eq_self (Option.not_isSome_iff_eq_none.1 hnone)).symm
    | done => cases hpc
    | adding => exact .silent h rfl rfl
  | delete subevent clientid =>
    cases pc with
    | call =>
      refine {
        here := trivial
        rows := fun ix hix => OMap.mem_eraseCell.2 (OMap.mem_openRow.2 (.inr hix))
        goesOn := fun h => Bool.noConfusion h
        returns := fun _ => ⟨rfl, fun a ha => ⟨?_, rfl⟩⟩ }
      rw [Call.exec, deleteClient, ha]
      rfl
    | done => cases hpc
    | _ => exact .silent h rfl rfl

/-! ## One after the other -/

section Serial

variable {calls : List Call} {s : Store} {σ : State}

theorem next_done (call : Call) (s : Store) : call.next (.done, s) = (.done, s) := by
  cases call <;> rfl

theorem over_iff {i : ℕ} {call : Call} {pc : Pc} (hi : σ.threads[i]? = some (call, pc)) :
    Over i σ ↔ pc.isDone = true := by
  rw [Over, hi]
  cases pc <;> simp [Pc.isDone]

/-- A call takes effect when it returns. -/
theorem ends : Ends step returns Over where
  effective_iff i σ := by
    cases hi : σ.threads[i]? with
    | none =>
      refine iff_of_false (by simp [returns, hi]) fun h => ?_
      obtain ⟨call, hover⟩ := h.2
      simp only [step, hi] at hover
      cases hover
    | some thread =>
      obtain ⟨call, pc⟩ := thread
      have hlt : i < σ.threads.length := (List.getElem?_eq_some_iff.1 hi).1
      have hnext : (step i σ).threads[i]? = some (call, (call.next (pc, σ.store)).1) := by
        simp only [step, hi, List.getElem?_set_self hlt]
      rw [over_iff hi, over_iff hnext]
      simp [returns, hi]
  stays i σ h := by
    obtain ⟨call, hi⟩ := h
    have hlt : i < σ.threads.length := (List.getElem?_eq_some_iff.1 hi).1
    refine ⟨call, ?_⟩
    simp only [step, hi, next_done, List.getElem?_set_self hlt]
  others {i i'} σ hne := by
    have hkeep : (step i' σ).threads[i]? = σ.threads[i]? := by
      unfold step
      split
      · rfl
      · exact List.getElem?_set_ne hne
    rw [Over, Over, hkeep]

/-- **The simulation**: a step of a call keeps the relation to the store of the calls that have
returned, and that by which a call returns adds it to them. -/
theorem serial_step {a : Store} (h : Serial σ a ∧ σ.threads.map Prod.fst = calls) (i : ℕ) :
    Serial (step i σ) (if returns i σ then exec calls i a else a) ∧
      (step i σ).threads.map Prod.fst = calls := by
  obtain ⟨h, hcalls⟩ := h
  cases hi : σ.threads[i]? with
  | none =>
    have hsilent : returns i σ = false := by simp only [returns, hi]
    have hstep : step i σ = σ := by simp only [step, hi]
    rw [hsilent, hstep]
    exact ⟨h, hcalls⟩
  | some thread =>
    obtain ⟨call, pc⟩ := thread
    cases hpc : pc.isDone with
    | true =>
      obtain rfl : pc = .done := by cases pc <;> simp_all [Pc.isDone]
      have hsilent : returns i σ = false := by simp only [returns, hi, Pc.isDone]; rfl
      have hstep : step i σ = σ := by
        simp only [step, hi, next_done, set_of_getElem? hi]
      rw [hsilent, hstep]
      exact ⟨h, hcalls⟩
    | false =>
      have hadvances := advances_next hpc (h.locals _ (List.mem_of_getElem? hi))
      have hsum := sum_map_set entered (call, (call.next (pc, σ.store)).1) hi
      have hreturns : returns i σ = (call.next (pc, σ.store)).1.isDone := by
        simp only [returns, hi, hpc, Bool.not_false, Bool.true_and]
      have hstep : step i σ = ⟨(call.next (pc, σ.store)).2,
          σ.threads.set i (call, (call.next (pc, σ.store)).1)⟩ := by
        simp only [step, hi]
      rw [hreturns, hstep]
      generalize call.next (pc, σ.store) = next at hadvances hsum ⊢
      obtain ⟨pc', s'⟩ := next
      refine ⟨?_, by rw [← hcalls]; exact map_set_of_eq Prod.fst hi rfl⟩
      have hlocals : ∀ thread ∈ σ.threads.set i (call, pc'), Local s' thread :=
        forall_mem_set (fun thread hmem => (h.locals thread hmem).of_rows hadvances.rows)
          hadvances.here
      cases hpc' : pc'.isDone with
      | false =>
        obtain ⟨hrows, new, hentered, hindex⟩ := hadvances.goesOn hpc'
        refine ⟨hrows.trans h.subtoClient, ?_, hlocals⟩
        have hset : ((σ.threads.set i (call, pc')).map entered).sum =
            (σ.threads.map entered).sum + new := by
          refine add_right_cancel (b := entered (call, pc)) ?_
          rw [hsum, hentered]
          abel
        change s'.getIndexMap = enterAll a.getIndexMap _
        rw [hset, hindex, h.index, enterAll, enterAll, enterAll, Multiset.foldl_add]
      | true =>
        obtain rfl : pc' = .done := by cases pc' <;> simp_all [Pc.isDone]
        obtain ⟨hindex, hexec⟩ := hadvances.returns rfl
        obtain ⟨hrows, hentered⟩ := hexec a h.subtoClient.symm
        have hcall : exec calls i a = call.exec a := by
          rw [exec, ← hcalls, List.getElem?_map, hi]
          rfl
        rw [if_pos rfl, hcall]
        refine ⟨hrows.symm, ?_, hlocals⟩
        have hset : (σ.threads.map entered).sum =
            entered (call, pc) + ((σ.threads.set i (call, .done)).map entered).sum := by
          have hdone : entered (call, .done) = 0 := by cases call <;> rfl
          rw [hdone, add_zero] at hsum
          rw [← hsum, add_comm]
        change s'.getIndexMap = enterAll (call.exec a).getIndexMap _
        rw [hindex, h.index, hset, hentered, enterAll, enterAll, enterAll, Multiset.foldl_add]

theorem serial_start (calls : List Call) (s : Store) :
    Serial (start calls s) s ∧ (start calls s).threads.map Prod.fst = calls := by
  have hnone : ((start calls s).threads.map entered).sum = 0 := by
    refine List.sum_eq_zero fun m hm => ?_
    obtain ⟨thread, hmem, rfl⟩ := List.mem_map.1 hm
    obtain ⟨call, -, rfl⟩ := List.mem_map.1 hmem
    cases call <;> rfl
  refine ⟨⟨rfl, by rw [hnone]; rfl, fun thread hmem => ?_⟩, by simp [start, Function.comp_def]⟩
  obtain ⟨call, -, rfl⟩ := List.mem_map.1 hmem
  cases call <;> trivial

/-- The store that the calls leave that have returned after some steps, one after the other. -/
def serialStore (calls : List Call) (s : Store) (ts : List ℕ) : Store :=
  (order step returns ts (start calls s)).foldl (fun s i => exec calls i s) s

theorem serial_run (calls : List Call) (s : Store) (ts : List ℕ) :
    Serial (run step ts (start calls s)) (serialStore calls s ts) ∧
      (run step ts (start calls s)).threads.map Prod.fst = calls := by
  let R (σ : State) (a : Store) : Prop := Serial σ a ∧ σ.threads.map Prod.fst = calls
  have hstep : ∀ i σ a, R σ a → R (step i σ) (if returns i σ then exec calls i a else a) :=
    fun i σ a h => serial_step h i
  exact related_run hstep (serial_start calls s) ts

theorem not_over_start (calls : List Call) (s : Store) (i : ℕ) : ¬ Over i (start calls s) := by
  rintro ⟨call, hi⟩
  obtain ⟨_, -, heq⟩ := List.mem_map.1 (List.mem_of_getElem? hi)
  cases heq

/-- **The calls are linearizable.** When all of them have returned, in whatever way their steps
come, the store is the one that they leave one after the other in some order. In this order, at each
moment of the run, the calls that have returned come before those that have not. -/
theorem serial_order (calls : List Call) (s : Store) (schedule : List ℕ)
    (hdone : ∀ i, i < calls.length → Over i (run step schedule (start calls s))) :
    ∃ serial : List ℕ, serial.Perm (List.range calls.length) ∧
      (run step schedule (start calls s)).store = serial.foldl (fun s i => exec calls i s) s ∧
      ∀ ts ts', schedule = ts ++ ts' → ∃ before after, serial = before ++ after ∧
        ∀ i, i ∈ before ↔ Over i (run step ts (start calls s)) := by
  refine ⟨order step returns schedule (start calls s), ?_, ?_, ?_⟩
  · refine (List.perm_ext_iff_of_nodup (ends.nodup_order _ _) List.nodup_range).2 fun i => ?_
    rw [ends.mem_order_iff (not_over_start calls s i), List.mem_range]
    refine ⟨fun hover => ?_, hdone i⟩
    obtain ⟨call, hi⟩ := hover
    have hlength := congrArg List.length (serial_run calls s schedule).2
    rw [List.length_map] at hlength
    exact hlength ▸ (List.getElem?_eq_some_iff.1 hi).1
  · obtain ⟨hserial, hcalls⟩ := serial_run calls s schedule
    have hlength := congrArg List.length hcalls
    rw [List.length_map] at hlength
    change _ = serialStore calls s schedule
    generalize run step schedule (start calls s) = σ at hserial hdone hlength
    have hnone : (σ.threads.map entered).sum = 0 := by
      refine List.sum_eq_zero fun m hm => ?_
      obtain ⟨thread, hmem, rfl⟩ := List.mem_map.1 hm
      obtain ⟨i, hi⟩ := List.mem_iff_getElem?.1 hmem
      obtain ⟨call, hover⟩ := hdone i (hlength ▸ (List.getElem?_eq_some_iff.1 hi).1)
      obtain rfl := Option.some.inj (hi.symm.trans hover)
      cases call <;> rfl
    have hindex := hserial.index
    have hrows := hserial.subtoClient
    rw [hnone] at hindex
    obtain ⟨⟨getIndexMap, subtoClient⟩, threads⟩ := σ
    obtain rfl : getIndexMap = _ := hindex
    obtain rfl : subtoClient = _ := hrows
    rfl
  · -- the order of the returns so far is where the whole order begins
    rintro ts ts' rfl
    exact ⟨_, _, order_append ts ts' _,
      fun i => ends.mem_order_iff (not_over_start calls s i) ts⟩

/-- Two subscriptions to one event that alternate, and the end of a subscription to it. -/
theorem serial_order_three :
    let calls : List Call := [.subscribe ⟨"c", "addr", ["a"], "NAME", ""⟩,
      .subscribe ⟨"d", "addr", ["a"], "NAME", ""⟩, .delete "a" "c"]
    let schedule := [0, 1, 1, 2, 0, 1, 0]
    ∃ serial : List ℕ, serial.Perm (List.range 3) ∧
      (run step schedule (start calls .empty)).store =
        serial.foldl (fun s i => exec calls i s) .empty ∧
      ∀ ts ts', schedule = ts ++ ts' → ∃ before after, serial = before ++ after ∧
        ∀ i, i ∈ before ↔ Over i (run step ts (start calls .empty)) := by
  have ha : parseEvent "a" = .ok ("a", 1) := by decide +kernel
  intro calls schedule
  refine serial_order calls .empty schedule fun i hi => ?_
  have hcases : i = 0 ∨ i = 1 ∨ i = 2 := by
    change i < 3 at hi
    omega
  rcases hcases with rfl | rfl | rfl <;>
    simp [Over, run, step, start, calls, schedule, Call.next, ha]

/-- What holds of a store and every call keeps holds of the stores of calls one after the other. -/
theorem reachable_serialStore (hs : Reachable s) (calls : List Call) (ts : List ℕ) :
    Reachable (serialStore calls s ts) := by
  unfold serialStore
  generalize order step returns ts (start calls s) = is
  induction is generalizing s with
  | nil => exact hs
  | cons i is ih =>
    have hexec : Reachable (exec calls i s) := by
      unfold exec
      split
      · exact hs
      · rename_i call _
        cases call with
        | subscribe call => exact hs.subscribe trivial _ _ _ _
        | unSubscribe event clientId => exact hs.unSubscribe event clientId
        | delete subevent clientid => exact hs.delete subevent clientid
    exact ih hexec

theorem mem_enterAll {m : OMap String (OSet String)} {entries : Multiset (String × String)}
    {e ix : String} (h : ∃ set, m[e]? = some set ∧ ix ∈ set) :
    ∃ set, (enterAll m entries)[e]? = some set ∧ ix ∈ set := by
  induction entries using Multiset.induction generalizing m with
  | empty => exact h
  | cons entry entries ih =>
    rw [enterAll, Multiset.foldl_cons]
    exact ih (mem_addIndex.2 (.inr h))

/-- **No client is out of reach at any moment.** At every moment of a run the wrappers that are
filed are those of a store that the server comes to by the calls that have returned, and the index
map leads to each of them from all its events. -/
theorem filed_run (hs : Reachable s) (calls : List Call) (ts : List ℕ) :
    let σ := run step ts (start calls s)
    Reachable (serialStore calls s ts) ∧
      σ.store.subtoClient = (serialStore calls s ts).subtoClient ∧
      σ.store.Filed := by
  have hreach := reachable_serialStore hs calls ts
  have hserial := (serial_run calls s ts).1
  have hfiled := hreach.filed
  refine ⟨hreach, hserial.subtoClient, ?_⟩
  have hwrapper {ix c w} (hw : (run step ts (start calls s)).store.wrapper? ix c = some w) :
      (serialStore calls s ts).wrapper? ix c = some w :=
    (wrapper?_congr hserial.subtoClient ix c).symm.trans hw
  exact {
    clientID := fun hw => hfiled.clientID (hwrapper hw)
    requires_index := fun hw => hfiled.requires_index (hwrapper hw)
    indexed := fun hw hn => by
      have hix := hfiled.indexed (hwrapper hw) hn
      rw [Store.mem_indexEvents] at hix ⊢
      rw [hserial.index]
      exact mem_enterAll hix }

/-- A subscription that has entered its first event, when another one has returned. -/
theorem filed_run_two :
    (run step [0, 1, 1, 0, 1] (start [.subscribe ⟨"c", "addr", ["a", "b"], "NAME", ""⟩,
      .subscribe ⟨"d", "addr", ["a"], "NAME", ""⟩] .empty)).store.Filed :=
  (filed_run .empty _ [0, 1, 1, 0, 1]).2.2

end Serial

end Subscriptions

end TPST
