import Mathlib.Algebra.GroupWithZero.Nat
import Mathlib.Data.List.Infix
import Mathlib.Data.List.Perm.Subperm
import TPST.Server.Reach

/-!
# How many clients subscribe to an event

`GetSubscribedNumber` answers with the sizes of the rows of `subtoClient`. A wrapper has its place
in the row of the first event of its list only, so the size of a row is the number of the wrappers
that require its event as long as no list names two events. `countsSubscribers_iff` says this of
one store, and `countsInRun_iff` of the stores a run of subscriptions and unsubscriptions comes to.
-/

namespace TPST

open Std

/-- `getSubscribedClientsNumber`. -/
def getSubscribedClientsNumber (subEventList : List String) (s : Store) : ℕ :=
  subEventList.foldl
    (fun totalSubNum subEvent =>
      if subEvent ∈ s.subtoClient then totalSubNum + (s.clients subEvent).length
      else totalSubNum) 0

/-- `GetSubscribedNumber`: the number in the reply to a request for the events of a list. -/
def getSubscribedNumber (subEvents : List String) (s : Store) : ℕ :=
  getSubscribedClientsNumber subEvents s

namespace Store

/-- The places of the wrappers of the store. -/
def places (s : Store) : List Place :=
  s.subtoClient.keys.flatMap fun ix => (s.clients ix).map fun c => (ix, c)

/-- The places of the wrappers that require an event. -/
def requirers (s : Store) (event : String) : List Place :=
  s.places.filter fun p => (s.wrapper? p.1 p.2).any fun w => event ∈ w.requiredeventMap

/-- For each event, the reply is the number of the wrappers that require it. -/
def CountsSubscribers (s : Store) : Prop :=
  ∀ event, getSubscribedNumber [event] s = (s.requirers event).length

/-- Every wrapper requires the event it is filed under, and no other. -/
def FiledAlone (s : Store) : Prop :=
  ∀ ix c w, s.wrapper? ix c = some w → ∀ e ∈ w.requiredeventMap, e = ix

end Store

/-- The requests of clients that come and go. -/
inductive SubscriptionRequest
  | subscribe (eventList : List String) (clientId notifyAddr matchType metadata : String)
  | unSubscribe (event clientId : String)
  deriving DecidableEq, Repr

namespace SubscriptionRequest

/-- The store after a request. -/
def run (s : Store) : SubscriptionRequest → Store
  | .subscribe eventList clientId notifyAddr matchType metadata =>
    (pubsubSubscribe eventList clientId notifyAddr matchType metadata s).state
  | .unSubscribe event clientId => eventUnSubscribe event clientId s

/-- The events of the list, if it is accepted, have all the name of the first. -/
def NamesOneEvent : SubscriptionRequest → Prop
  | .subscribe eventList _ _ _ _ =>
    ∀ req reqs, Parses eventList (req :: reqs) → ∀ r ∈ reqs, r.1 = req.1
  | .unSubscribe _ _ => True

end SubscriptionRequest

/-- The store after a run from the start of the server. -/
def runSubscriptions (requests : List SubscriptionRequest) : Store :=
  requests.foldl SubscriptionRequest.run .empty

/-! ## One store -/

section OneStore

variable {s : Store} {e : String} {p : Place}

theorem Store.mem_places : p ∈ s.places ↔ ∃ w, s.wrapper? p.1 p.2 = some w := by
  rw [Store.places, List.mem_flatMap]
  constructor
  · rintro ⟨ix, -, hp⟩
    obtain ⟨c, hc, rfl⟩ := List.mem_map.1 hp
    exact Store.mem_clients.1 hc
  · rintro ⟨w, hw⟩
    exact ⟨p.1, ExtTreeMap.mem_keys.2 (OMap.mem_of_cell hw),
      List.mem_map.2 ⟨p.2, Store.mem_clients.2 ⟨w, hw⟩, rfl⟩⟩

theorem Store.nodup_clients (s : Store) (ix : String) : (s.clients ix).Nodup :=
  OMap.nodup_rowKeys _ _

theorem Store.nodup_places (s : Store) : s.places.Nodup := by
  rw [Store.places, List.nodup_flatMap]
  refine ⟨fun ix _ => (s.nodup_clients ix).map fun c c' h => congrArg Prod.snd h, ?_⟩
  refine ExtTreeMap.nodup_keys.imp fun hne p hp hp' => hne ?_
  obtain ⟨c, -, rfl⟩ := List.mem_map.1 hp
  obtain ⟨c', -, h⟩ := List.mem_map.1 hp'
  exact (congrArg Prod.fst h).symm

theorem Store.mem_requirers :
    p ∈ s.requirers e ↔ ∃ w, s.wrapper? p.1 p.2 = some w ∧ e ∈ w.requiredeventMap := by
  rw [Store.requirers, List.mem_filter, Store.mem_places]
  cases s.wrapper? p.1 p.2 <;> simp

/-- The reply is the sum of the sizes of the rows; an event without a row has none. -/
theorem getSubscribedNumber_eq (subEvents : List String) (s : Store) :
    getSubscribedNumber subEvents s = (subEvents.map fun e => (s.clients e).length).sum := by
  have hrow : ∀ (total : ℕ) (e : String),
      (if e ∈ s.subtoClient then total + (s.clients e).length else total) =
        total + (s.clients e).length := by
    intro total e
    by_cases he : e ∈ s.subtoClient
    · rw [if_pos he]
    · rw [if_neg he, Store.clients, OMap.rowKeys, ExtTreeMap.getElem?_eq_none he]
      rfl
  rw [getSubscribedNumber, getSubscribedClientsNumber]
  simp only [hrow]
  rw [List.sum_eq_foldl, List.foldl_map]

/-- **When the rows count the subscribers** of every event: every wrapper requires one event. -/
theorem countsSubscribers_iff (hs : s.Filed) : s.CountsSubscribers ↔ s.FiledAlone := by
  -- the clients of the row of an event require it
  let row (e : String) : List Place := (s.clients e).map fun c => (e, c)
  have hlength : ∀ e, getSubscribedNumber [e] s = (row e).length := fun e => by
    rw [getSubscribedNumber_eq]
    simp [row]
  have hnodup : ∀ e, (row e).Nodup := fun e =>
    (s.nodup_clients e).map fun c c' h => congrArg Prod.snd h
  have hsub : ∀ e, row e ⊆ s.requirers e := by
    intro e p hp
    obtain ⟨c, hc, rfl⟩ := List.mem_map.1 hp
    obtain ⟨w, hw⟩ := Store.mem_clients.1 hc
    obtain ⟨n, nums, hnums, -⟩ := hs.requires_index hw
    exact Store.mem_requirers.2
      ⟨w, hw, ExtTreeMap.mem_iff_isSome_getElem?.2 (by rw [hnums]; rfl)⟩
  constructor
  · intro hcounts ix c w hw e he
    have hperm : (row e).Perm (s.requirers e) :=
      ((hnodup e).subperm (hsub e)).perm_of_length_le
        ((hlength e).symm.trans (hcounts e)).ge
    have hmem : (ix, c) ∈ row e := hperm.mem_iff.2 (Store.mem_requirers.2 ⟨w, hw, he⟩)
    obtain ⟨c', -, h⟩ := List.mem_map.1 hmem
    exact congrArg Prod.fst h
  · intro halone e
    have hperm : (row e).Perm (s.requirers e) := by
      refine (List.perm_ext_iff_of_nodup (hnodup e) (s.nodup_places.filter _)).2 ?_
      refine fun p => ⟨fun hp => hsub e hp, fun hp => ?_⟩
      obtain ⟨w, hw, he⟩ := Store.mem_requirers.1 hp
      obtain rfl := halone p.1 p.2 w hw e he
      exact List.mem_map.2 ⟨p.2, Store.mem_clients.2 ⟨w, hw⟩, rfl⟩
    rw [hlength, hperm.length_eq]

end OneStore

/-! ## Runs -/

section Runs

variable {s : Store} {requests : List SubscriptionRequest}

theorem reachable_runSubscriptions (requests : List SubscriptionRequest) :
    Reachable (runSubscriptions requests) := by
  refine List.foldlRecOn requests _ ReachableBy.empty fun s hs request _ => ?_
  cases request with
  | subscribe evs c addr mt md => exact hs.subscribe trivial c addr mt md
  | unSubscribe e c => exact hs.unSubscribe e c

/-- The wrapper of an accepted list that names one event is filed alone; so are the others. -/
theorem Store.FiledAlone.run (hs : s.FiledAlone) {request : SubscriptionRequest}
    (hone : request.NamesOneEvent) : (request.run s).FiledAlone := by
  cases request with
  | unSubscribe e c =>
    intro ix c' w hw
    rw [SubscriptionRequest.run, wrapper?_eventUnSubscribe] at hw
    exact hs ix c' w (of_ite_none_eq_some hw)
  | subscribe evs c addr mt md =>
    intro ix c' w hw e he
    rcases addNewClient_cases c addr mt md evs s with ⟨req, reqs, hparse⟩ | ⟨hsame, -⟩
    · rw [SubscriptionRequest.run, pubsubSubscribe_ok hparse, Flow.state_next,
        wrapper?_subscribed] at hw
      split at hw
      · rename_i hplace
        obtain rfl := Option.some.inj hw
        obtain ⟨r, hr, rfl⟩ := List.mem_map.1 (mem_keys_requiredOf.1 he)
        rcases List.mem_cons.1 hr with rfl | hr
        · exact hplace.1
        · exact (hone req reqs hparse r hr).trans hplace.1
      · exact hs ix c' w hw e he
    · rw [SubscriptionRequest.run, Store.wrapper?, pubsubSubscribe, hsame] at hw
      exact hs ix c' w hw e he

theorem filedAlone_runSubscriptions (hone : ∀ request ∈ requests, request.NamesOneEvent) :
    (runSubscriptions requests).FiledAlone := by
  have hempty : Store.empty.FiledAlone := fun ix c w hw => by simp at hw
  exact List.foldlRecOn requests _ hempty fun s hs request hrequest =>
    hs.run (hone request hrequest)

/-- Right after its subscription, a client that names another event is filed under the first. -/
theorem namesOneEvent_of_filedAlone {request : SubscriptionRequest}
    (h : (request.run s).FiledAlone) : request.NamesOneEvent := by
  cases request with
  | unSubscribe e c => trivial
  | subscribe evs c addr mt md =>
    intro req reqs hparse r hr
    refine h req.1 c (newWrapper c addr mt md (requiredOf (req :: reqs))) ?_ r.1 ?_
    · rw [SubscriptionRequest.run, pubsubSubscribe_ok hparse, Flow.state_next,
        wrapper?_subscribed, if_pos ⟨rfl, rfl⟩]
    · exact mem_keys_requiredOf.2 (List.mem_map_of_mem (List.mem_cons_of_mem _ hr))

/-- **In which runs the subscriber count counts subscribers**, for every event and in every store
the run comes to: in those whose accepted subscriptions name one event each. -/
theorem countsInRun_iff (requests : List SubscriptionRequest) :
    (∀ done, done <+: requests → (runSubscriptions done).CountsSubscribers) ↔
      ∀ request ∈ requests, request.NamesOneEvent := by
  constructor
  · intro hcounts request hrequest
    obtain ⟨before, after, rfl⟩ := List.append_of_mem hrequest
    have hdone : before ++ [request] <+: before ++ request :: after := ⟨after, by simp⟩
    have halone := (countsSubscribers_iff (reachable_runSubscriptions _).filed).1
      (hcounts _ hdone)
    rw [runSubscriptions, List.foldl_append] at halone
    exact namesOneEvent_of_filedAlone halone
  · intro hone done hdone
    exact (countsSubscribers_iff (reachable_runSubscriptions _).filed).2
      (filedAlone_runSubscriptions fun request hrequest => hone request (hdone.subset hrequest))

end Runs

/-- The client identifiers of the subscriptions. -/
def subscribedClients (requests : List SubscriptionRequest) : List String :=
  requests.filterMap fun
    | .subscribe _ clientId _ _ _ => some clientId
    | .unSubscribe _ _ => none

/-- A client that subscribes to `a` and `b` is not counted for `b`. -/
theorem countsInRun_fails :
    ¬ ∀ requests : List SubscriptionRequest,
      (∀ evs c addr mt md, .subscribe evs c addr mt md ∈ requests → Parseable evs) →
        (subscribedClients requests).Nodup → (runSubscriptions requests).CountsSubscribers := by
  intro h
  have hparse : Parses ["a", "b"] [("a", 1), ("b", 1)] :=
    .cons (by decide +kernel) (.cons (by decide +kernel) .nil)
  have hcounts := h [.subscribe ["a", "b"] "c" "addr" "NAME" ""]
    (fun evs c addr mt md hmem => by
      simp only [List.mem_singleton, SubscriptionRequest.subscribe.injEq] at hmem
      exact hmem.1 ▸ hparse.parseable) (by decide)
  have halone := (countsSubscribers_iff (reachable_runSubscriptions _).filed).1 hcounts
  have hone := @namesOneEvent_of_filedAlone .empty (.subscribe ["a", "b"] "c" "addr" "NAME" "")
    halone ("a", 1) [("b", 1)] hparse ("b", 1) (by simp)
  exact absurd hone (by decide)

end TPST
