import TPST.Cluster.GroupManager
import TPST.Coordinator.RecordSub
import TPST.Utils.Numerals

/-!
# The handler of a subscription

`Subscribe` files the subscription, logs the response time under the first event of the list, and
reports to the first coordinator it has a client for; it makes the clients when it has none. A list
without an event, or with an event that `ParseEvent` does not read, is not tested for:
`survives_iff` says which requests the handler survives.

An event is read if it has a name, and a number behind the first colons after it, if anything stands
there (`EventText`, `parseEvent_eq_ok_iff`).
-/

namespace TPST

open Cut

/-! ## Events -/

/-- The text of an event with a name and a count: pieces between colons, the second of which, if
there is one, is a number. -/
def EventOf (text : List Char) (name : String) (count : Int) : Prop :=
  ∃ pieces, Pieces [':'] text (name.toList :: pieces) ∧
    ((pieces = [] ∧ count = 1) ∨ ∃ num rest, pieces = num :: rest ∧ Numeral num count)

/-- The text of an event. -/
def EventText (text : String) : Prop := ∃ name count, EventOf text.toList name count

/-- **The texts that `ParseEvent` reads.** -/
theorem parseEvent_eq_ok_iff {text name : String} {count : Int} :
    parseEvent text = .ok (name, count) ↔ EventOf text.toList name count := by
  have hpieces : Pieces [':'] text.toList (splitLoop [':'] text.toList) := splitLoop_eq_iff.1 rfl
  have hsplit : split text ":" = (splitLoop [':'] text.toList).map String.ofList := rfl
  have honly : EventOf text.toList name count ↔
      ∃ pieces, splitLoop [':'] text.toList = name.toList :: pieces ∧
        ((pieces = [] ∧ count = 1) ∨ ∃ num rest, pieces = num :: rest ∧ Numeral num count) := by
    simp only [EventOf, splitLoop_eq_iff]
  rw [honly, parseEvent, hsplit]
  rcases splitLoop [':'] text.toList with _ | ⟨first, _ | ⟨num, rest⟩⟩
  · simp
  · simp only [List.map_cons, List.map_nil, Except.ok.injEq, Prod.mk.injEq, List.cons.injEq]
    constructor
    · rintro ⟨rfl, rfl⟩
      exact ⟨[], ⟨by simp, rfl⟩, .inl ⟨rfl, rfl⟩⟩
    · rintro ⟨pieces, ⟨rfl, rfl⟩, ⟨-, hone⟩ | ⟨num, rest, hnil, -⟩⟩
      · exact ⟨by simp, hone.symm⟩
      · cases hnil
  · simp only [List.map_cons, String.toList_ofList, List.cons.injEq, ← stoi_eq_ok_iff]
    constructor
    · intro h
      cases hnum : stoi num with
      | error x => simp [hnum] at h
      | ok n =>
        simp only [hnum, Except.ok.injEq, Prod.mk.injEq] at h
        obtain ⟨rfl, rfl⟩ := h
        exact ⟨num :: rest, ⟨by simp, rfl⟩, .inr ⟨num, rest, rfl, hnum⟩⟩
    · rintro ⟨pieces, ⟨rfl, rfl⟩, ⟨hnil, -⟩ | ⟨num', rest', heq, hnum⟩⟩
      · cases hnil
      · rw [(List.cons.inj heq).1, hnum]
        simp

theorem eventText_iff {text : String} : EventText text ↔ ∃ req, parseEvent text = .ok req := by
  simp only [EventText, ← parseEvent_eq_ok_iff, Prod.exists]

section FullForm

variable {m : String} {n : Int}

/-- An event in its full form, with a name and a printed count. -/
theorem parseEvent_fullForm (hne : m ≠ "") (hfree : ':' ∉ m.toList) (hn : IsInt n) :
    parseEvent (m ++ ":" ++ toString n) = .ok (m, n) := by
  obtain ⟨hnum, hnofree⟩ := free_toString n
  have hcount : Pieces [':'] (toString n).toList [(toString n).toList] :=
    pieces_one hnum (hnofree ':' (by simp))
  have hpieces : Pieces [':'] (m ++ ":" ++ toString n).toList
      (m.toList :: [(toString n).toList]) := by
    simpa using hcount.cons_field (by simpa using hne) hfree
  exact parseEvent_eq_ok_iff.2 ⟨_, hpieces, .inr ⟨_, [], rfl, numeral_toString hn⟩⟩

/-- **`ParseEvent` undoes the printing of an event**: in its full form, and as a name alone, where
the count is 1. So events in full form that are read alike have the same name and count. -/
theorem parseEvent_inverts (hne : m ≠ "") (hfree : ':' ∉ m.toList) (hn : IsInt n) :
    parseEvent (m ++ ":" ++ toString n) = .ok (m, n) ∧ parseEvent m = .ok (m, 1) ∧
      ∀ m' n', m' ≠ "" → ':' ∉ m'.toList → IsInt n' →
        parseEvent (m ++ ":" ++ toString n) = parseEvent (m' ++ ":" ++ toString n') →
          m = m' ∧ n = n' := by
  refine ⟨parseEvent_fullForm hne hfree hn, ?_, fun m' n' hne' hfree' hn' hsame => ?_⟩
  · exact parseEvent_eq_ok_iff.2
      ⟨[], pieces_one (by simpa using hne) hfree, .inl ⟨rfl, rfl⟩⟩
  · rw [parseEvent_fullForm hne hfree hn, parseEvent_fullForm hne' hfree' hn',
      Except.ok.injEq, Prod.mk.injEq] at hsame
    exact hsame

end FullForm

/-- A count below zero. -/
theorem parseEvent_inverts_negative :
    parseEvent ("event1" ++ ":" ++ toString (-2 : Int)) = .ok ("event1", -2) ∧
      parseEvent "event1" = .ok ("event1", 1) := by
  obtain ⟨hfull, hname, -⟩ := @parseEvent_inverts "event1" (-2) (by decide) (by decide) (by decide)
  exact ⟨hfull, hname⟩

/-! ## The handler -/

/-- `PubSubRequest`; its source matters only when subscriptions are propagated. -/
structure PubSubRequest where
  pubsubmessage : List String
  clientid : String
  notifyserver : String
  matchtype : String
  metadata : String
  deriving DecidableEq, Repr

/-- What a server keeps. -/
structure ServerState where
  store : Store
  gmClusterDir : Path
  /-- The coordinators that there are clients for, by their addresses. -/
  coordinatorClients : List String

/-- `updateCoordinatorClients`: the clients that were there, and one for each address in the
coordinator directory of the group. -/
def updateCoordinatorClients (files : FileTree) (groupDir : Path)
    (coordinatorClients : List String) : List String :=
  coordinatorClients ++ loadAddrInDir files (groupDir ++ [gmCoordinatorDir])

/-- What `Subscribe` leaves: the server, the message of the reply, and the `RecordSub` requests
sent, each with the coordinator it went to. -/
structure SubscribeOutcome where
  server : ServerState
  returnmessage : String
  sent : List (String × RecordSubRequest)

/-- `Subscribe` from the check of the client id on; the address of the peer, which it parses before,
is not used. It returns a status at its end or by a `return`, or it does not return. -/
def subscribeHandler (files : FileTree) (serverAddr : String) (request : PubSubRequest)
    (server : ServerState) : Flow Fault SubscribeOutcome :=
  if request.clientid = "" then .ret ⟨server, "", []⟩
  else
    let eventList := request.pubsubmessage
    let subscribed := pubsubSubscribe eventList request.clientid request.notifyserver
      request.matchtype request.metadata server.store
    let server := { server with store := subscribed.state }
    match subscribed with
    | .fault e _ => .fault e ⟨server, "", []⟩
    | _ =>
      -- the log of the response time names `eventList[0]`
      if eventList = [] then .fault .undefinedBehaviour ⟨server, "SUBSCRIBED", []⟩
      else
        let clients :=
          if server.coordinatorClients = [] then
            updateCoordinatorClients files server.gmClusterDir server.coordinatorClients
          else server.coordinatorClients
        let server := { server with coordinatorClients := clients }
        match clients with
        | [] => .ret ⟨server, "SUBSCRIBED", []⟩
        | coordinatorClient :: _ =>
          .next ⟨server, "SUBSCRIBED",
            (recordSubs serverAddr eventList server.store).map (coordinatorClient, ·)⟩

/-- `Subscribe` returns a status. -/
def Survives (files : FileTree) (serverAddr : String) (request : PubSubRequest)
    (server : ServerState) : Prop :=
  (subscribeHandler files serverAddr request server).isFault = false

section Handler

variable {files : FileTree} {serverAddr c addr mt md : String} {request : PubSubRequest}
  {server : ServerState} {evs : List String} {s : Store}

/-- A subscription with events faults unless all of them are read. -/
theorem isFault_pubsubSubscribe (hne : evs ≠ []) :
    (pubsubSubscribe evs c addr mt md s).isFault = true ↔ ¬ Parseable evs := by
  constructor
  · intro hfault hparse
    obtain ⟨req, reqs, hparses⟩ := hparse.parses
    rw [pubsubSubscribe_ok hparses] at hfault
    cases hfault
  · intro hparse
    obtain ⟨first, rest, rfl⟩ := List.exists_cons_of_ne_nil hne
    rw [pubsubSubscribe, addNewClient]
    cases parseEvent first with
    | error x => rfl
    | ok req =>
      obtain ⟨index, num⟩ := req
      dsimp only
      have hnext : ∀ st', Flow.forEach (requireEvent index) (first :: rest) (s.getIndexMap, ∅) ≠
          .next st' := by
        intro st' hloop
        obtain ⟨reqs, hreqs⟩ := parses_of_forEach_requireEvent hloop
        cases hreqs with
        | cons h₁ h₂ => exact hparse (Parses.parseable (.cons h₁ h₂))
      have hret : ∀ ev st st', requireEvent index ev st ≠ .ret st' := by
        intro ev st st'
        unfold requireEvent
        split <;> simp
      cases hloop : Flow.forEach (requireEvent index) (first :: rest) (s.getIndexMap, ∅) with
      | next st' => exact absurd hloop (hnext st')
      | ret st' => exact absurd hloop (Flow.forEach_ne_ret hret _ _ st')
      | fault x st' => rfl

/-- `Subscribe` as far as its reports: an accepted request. -/
theorem subscribeHandler_of_parses (hclient : request.clientid ≠ "")
    {req : String × Int} {reqs : List (String × Int)}
    (hparse : Parses request.pubsubmessage (req :: reqs)) :
    ∃ store clients,
      store = server.store.subscribed request.clientid request.notifyserver request.matchtype
        request.metadata req reqs ∧
      clients = (if server.coordinatorClients = [] then
        loadAddrInDir files (server.gmClusterDir ++ [gmCoordinatorDir])
          else server.coordinatorClients) ∧
      subscribeHandler files serverAddr request server =
        match clients with
        | [] => .ret ⟨⟨store, server.gmClusterDir, clients⟩, "SUBSCRIBED", []⟩
        | coordinatorClient :: _ =>
          .next ⟨⟨store, server.gmClusterDir, clients⟩, "SUBSCRIBED",
            (recordSubs serverAddr request.pubsubmessage store).map (coordinatorClient, ·)⟩ := by
  refine ⟨_, _, rfl, rfl, ?_⟩
  have hne : request.pubsubmessage ≠ [] := hparse.parseable.1
  rw [subscribeHandler, if_neg hclient]
  simp only [pubsubSubscribe_ok hparse, Flow.state_next, if_neg hne]
  rcases server.coordinatorClients with _ | ⟨client, clients⟩
  · simp only [updateCoordinatorClients, List.nil_append, ↓reduceIte]
  · simp

/-- A request whose events are not all read ends in a fault, and nothing is sent. -/
theorem subscribeHandler_of_not_parseable (hclient : request.clientid ≠ "")
    (hparse : ¬ Parseable request.pubsubmessage) :
    ∃ x store message, subscribeHandler files serverAddr request server =
      .fault x ⟨{ server with store := store }, message, []⟩ := by
  rw [subscribeHandler, if_neg hclient]
  rcases eq_or_ne request.pubsubmessage [] with hnil | hne
  · refine ⟨.undefinedBehaviour, server.store, "SUBSCRIBED", ?_⟩
    simp [hnil, pubsubSubscribe, addNewClient]
  have hfault : (pubsubSubscribe request.pubsubmessage request.clientid request.notifyserver
      request.matchtype request.metadata server.store).isFault = true :=
    (isFault_pubsubSubscribe hne).2 hparse
  cases hsub : pubsubSubscribe request.pubsubmessage request.clientid request.notifyserver
      request.matchtype request.metadata server.store with
  | fault x s =>
    refine ⟨x, s, "", ?_⟩
    simp only [hsub, Flow.state_fault]
  | next s => simp [hsub] at hfault
  | ret s => simp [hsub] at hfault

/-- **Which requests the handler survives**: those without a client id, which it refuses, and those
with events that are all read. -/
theorem survives_iff (files : FileTree) (serverAddr : String) (request : PubSubRequest)
    (server : ServerState) :
    Survives files serverAddr request server ↔
      request.clientid = "" ∨
        (request.pubsubmessage ≠ [] ∧ ∀ text ∈ request.pubsubmessage, EventText text) := by
  simp only [eventText_iff]
  rw [Survives]
  rcases eq_or_ne request.clientid "" with hclient | hclient
  · simp [subscribeHandler, hclient]
  simp only [hclient, false_or]
  constructor
  · intro hsurvives
    by_contra hparse
    obtain ⟨x, store, message, hfault⟩ :=
      @subscribeHandler_of_not_parseable files serverAddr request server hclient hparse
    rw [hfault] at hsurvives
    cases hsurvives
  · intro hparse
    obtain ⟨req, reqs, hparses⟩ := Parseable.parses hparse
    obtain ⟨store, clients, -, -, hhandler⟩ :=
      @subscribeHandler_of_parses files serverAddr request server hclient _ _ hparses
    rw [hhandler]
    cases clients <;> rfl

/-- A server that has a client for its coordinator keeps and reports what `handleSubscribe` says. -/
theorem subscribeHandler_eq_handleSubscribe (hclients : server.coordinatorClients ≠ []) :
    ((subscribeHandler files serverAddr request server).state.server.store,
        (subscribeHandler files serverAddr request server).state.sent.map Prod.snd) =
      handleSubscribe serverAddr request.pubsubmessage request.clientid request.notifyserver
        request.matchtype request.metadata server.store := by
  obtain ⟨client, clients, hserver⟩ := List.exists_cons_of_ne_nil hclients
  rw [subscribeHandler, handleSubscribe]
  rcases eq_or_ne request.clientid "" with hclient | hclient
  · simp [hclient]
  rw [if_neg hclient, if_neg hclient]
  rcases eq_or_ne request.pubsubmessage [] with hnil | hne
  · simp [hnil, pubsubSubscribe, addNewClient, recordSubs]
  dsimp only
  rw [if_neg hne, hserver]
  cases pubsubSubscribe request.pubsubmessage request.clientid request.notifyserver
      request.matchtype request.metadata server.store with
  | fault x s => rfl
  | next s => simp [Function.comp_def]
  | ret s => simp [Function.comp_def]

end Handler

/-- A request without an event. -/
theorem survives_fails :
    ¬ ∀ (files : FileTree) (serverAddr : String) (request : PubSubRequest) (server : ServerState),
      Survives files serverAddr request server := by
  intro h
  have hempty := h [] "s:1" ⟨[], "c", "addr", "NAME", "testMeta"⟩ ⟨.empty, gmMultinodeip, []⟩
  rw [Survives] at hempty
  exact Bool.false_ne_true (hempty.symm.trans rfl)

/-- So do the events `""`, `":"`, `"a:x"` and one with a count that is no `int`. -/
example : ∀ text ∈ ["", ":", "a:x", "a:2147483648"],
    (subscribeHandler [] "s:1" ⟨["a", text], "c", "addr", "NAME", "testMeta"⟩
      ⟨.empty, gmMultinodeip, []⟩).isFault = true := by
  decide +kernel

end TPST
