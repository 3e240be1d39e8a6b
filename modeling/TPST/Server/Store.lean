import TPST.Foundations.Flow
import TPST.Foundations.Maps
import TPST.Utils.Strparse

/-!
# The subscription store

The state of `pubsub.cc`: every subscription is a `PubsubWrapper`, filed in `subtoClient` under
its index event (the first event of its list) and its client id, and found through `getIndexMap`,
which maps an event to the index events of the subscriptions that require it.

The source keeps wrappers behind pointers. `addNewClient` allocates a fresh one and files it at
one place, so here a wrapper is the value at that place, `wrapper? s index client`, and writing
through its pointer is `OMap.modifyCell`.

The spec of a subscription is `addNewClient_ok`: for a list of events that parses, what the index
map and the table of wrappers hold afterwards.
-/

set_option linter.unusedSectionVars false

namespace TPST

open Std

/-- `pubsubWrapper`: a subscription with the counters of its next notification. -/
structure PubsubWrapper where
  peerURL : String
  clientID : String
  subMetadata : String
  pubMetadata : String
  matchType : String
  iftrigure : Bool
  /-- How often an event was published since the last notification. -/
  publishedEvent : OMap String Int
  /-- How often an event is to be published, by the event's name. -/
  requiredeventMap : OMap String (OSet Int)

namespace PubsubWrapper

/-- The subscription asks for `n` publishes of `event`. -/
def Requires (w : PubsubWrapper) (event : String) (n : Int) : Prop :=
  ∃ nums, w.requiredeventMap[event]? = some nums ∧ n ∈ nums

/-- How often `event` counts as published; an event without entry, not at all. -/
def published (w : PubsubWrapper) (event : String) : Int := w.publishedEvent.getD event 0

end PubsubWrapper

/-- The two maps of `pubsub.cc`. -/
structure Store where
  getIndexMap : OMap String (OSet String)
  subtoClient : OMap String (OMap String PubsubWrapper)

namespace Store

/-- The maps before the first subscription. -/
def empty : Store := ⟨∅, ∅⟩

/-- The wrapper filed under the index event `ix` for the client `c`. -/
def wrapper? (s : Store) (ix c : String) : Option PubsubWrapper := OMap.cell s.subtoClient ix c

/-- The clients filed under the index event `ix`, in map order. -/
def clients (s : Store) (ix : String) : List String := OMap.rowKeys s.subtoClient ix

/-- The index events of `event`, in set order. -/
def indexEvents (s : Store) (event : String) : List String :=
  ((s.getIndexMap[event]?).map fun set => set.toList).getD []

/-- Write the wrapper at `(ix, c)` through its pointer. -/
def modifyWrapper (s : Store) (ix c : String) (f : PubsubWrapper → PubsubWrapper) : Store :=
  { s with subtoClient := OMap.modifyCell s.subtoClient ix c f }

/-- No wrapper is filed for the client `c`. -/
def Fresh (s : Store) (c : String) : Prop := ∀ ix, s.wrapper? ix c = none

@[simp] theorem wrapper?_empty (ix c : String) : empty.wrapper? ix c = none := OMap.cell_empty ix c

theorem wrapper?_modifyWrapper (s : Store) (ix ix' c c' : String)
    (f : PubsubWrapper → PubsubWrapper) :
    (s.modifyWrapper ix c f).wrapper? ix' c' =
      if ix = ix' ∧ c = c' then (s.wrapper? ix' c').map f else s.wrapper? ix' c' :=
  OMap.cell_modifyCell s.subtoClient ix ix' c c' f

theorem mem_clients {s : Store} {ix c : String} :
    c ∈ s.clients ix ↔ ∃ w, s.wrapper? ix c = some w :=
  OMap.mem_rowKeys

theorem nodup_indexEvents (s : Store) (event : String) : (s.indexEvents event).Nodup := by
  simp only [indexEvents]
  cases s.getIndexMap[event]? with
  | none => exact List.nodup_nil
  | some set => exact OSet.nodup_toList set

theorem mem_indexEvents {s : Store} {event ix : String} :
    ix ∈ s.indexEvents event ↔ ∃ set, s.getIndexMap[event]? = some set ∧ ix ∈ set := by
  simp only [indexEvents]
  cases s.getIndexMap[event]? with
  | none => simp
  | some set => simp [ExtTreeSet.mem_toList]

/-- Two stores of one shape: the same index map, and wrappers at the same places. -/
structure SameShape (s s' : Store) : Prop where
  getIndexMap_eq : s'.getIndexMap = s.getIndexMap
  mem_iff : ∀ ix, ix ∈ s'.subtoClient ↔ ix ∈ s.subtoClient
  clients_eq : ∀ ix, s'.clients ix = s.clients ix

namespace SameShape

theorem refl (s : Store) : SameShape s s := ⟨rfl, fun _ => Iff.rfl, fun _ => rfl⟩

theorem trans {s₁ s₂ s₃ : Store} (h : SameShape s₁ s₂) (h' : SameShape s₂ s₃) :
    SameShape s₁ s₃ :=
  ⟨h'.getIndexMap_eq.trans h.getIndexMap_eq, fun ix => (h'.mem_iff ix).trans (h.mem_iff ix),
    fun ix => (h'.clients_eq ix).trans (h.clients_eq ix)⟩

theorem modifyWrapper (s : Store) (ix c : String) (f : PubsubWrapper → PubsubWrapper) :
    SameShape s (s.modifyWrapper ix c f) :=
  ⟨rfl, fun _ => OMap.mem_modifyCell, fun ix' => OMap.rowKeys_modifyCell s.subtoClient ix ix' c f⟩

theorem indexEvents_eq {s s' : Store} (h : SameShape s s') (event : String) :
    s'.indexEvents event = s.indexEvents event := by
  rw [indexEvents, indexEvents, h.getIndexMap_eq]

end SameShape

end Store

/-! ## Subscribing -/

/-- `ParseEvent`: the name and the count of a full event `name:count`; the count is 1 when there
is none. Parts after the second are ignored. -/
def parseEvent (fullEvent : String) : Except Fault (String × Int) :=
  match split fullEvent ":" with
  | [] => .error .undefinedBehaviour
  | [name] => .ok (name, 1)
  | name :: num :: _ =>
    match stoi num.toList with
    | .ok n => .ok (name, n)
    | .error e => .error e

/-- `requiredeventMap[event].insert(num)`. -/
def addRequired (m : OMap String (OSet Int)) (event : String) (num : Int) :
    OMap String (OSet Int) :=
  m.alter event fun nums => some ((nums.getD ∅).insert num)

/-- Enter an index event for `event`, in the set it has or in a new one. -/
def addIndex (m : OMap String (OSet String)) (event index : String) : OMap String (OSet String) :=
  m.alter event fun
    | some set => some (set.insert index)
    | none => some {index}

/-- One round of the loop of `addNewClient`, on the index map and the new wrapper's required
events. -/
def requireEvent (index fullEvent : String)
    (m : OMap String (OSet String) × OMap String (OSet Int)) :
    Flow Fault (OMap String (OSet String) × OMap String (OSet Int)) :=
  match parseEvent fullEvent with
  | .ok (event, num) => .next (addIndex m.1 event index, addRequired m.2 event num)
  | .error e => .fault e m

/-- The wrapper `addNewClient` allocates. -/
def newWrapper (clientid notifyAddr matchType subMetadata : String)
    (required : OMap String (OSet Int)) : PubsubWrapper where
  peerURL := notifyAddr
  clientID := clientid
  subMetadata := subMetadata
  pubMetadata := ""
  matchType := matchType
  iftrigure := false
  publishedEvent := ∅
  requiredeventMap := required

/-- `addNewClient`. An exception of `ParseEvent` leaves the index entries made before it. -/
def addNewClient (clientid notifyAddr : String) (eventList : List String)
    (matchType subMetadata : String) (s : Store) : Flow Fault Store :=
  match eventList with
  | [] => .ret s
  | first :: _ =>
    match parseEvent first with
    | .error e => .fault e s
    | .ok (index, _) =>
      match Flow.forEach (requireEvent index) eventList (s.getIndexMap, ∅) with
      | .next (m, required) =>
        .next ⟨m, OMap.insertCell s.subtoClient index clientid
          (newWrapper clientid notifyAddr matchType subMetadata required)⟩
      | .ret (m, _) => .ret { s with getIndexMap := m }
      | .fault e (m, _) => .fault e { s with getIndexMap := m }

/-- `pubsubSubscribe`. -/
def pubsubSubscribe (eventList : List String) (clientId notifyAddr matchType subMetadata : String)
    (s : Store) : Flow Fault Store :=
  addNewClient clientId notifyAddr eventList matchType subMetadata s

/-- `eventUnSubscribe`. -/
def eventUnSubscribe (event clientId : String) (s : Store) : Store :=
  if (s.wrapper? event clientId).isSome then
    { s with subtoClient := OMap.eraseCell s.subtoClient event clientId }
  else s

/-- `deleteClient`, whose `subtoClient[subevent]` opens a row that is not there. -/
def deleteClient (subevent clientid : String) (s : Store) : Store :=
  { s with subtoClient := OMap.eraseCell (OMap.openRow s.subtoClient subevent) subevent clientid }

/-! ## What a subscription leaves behind -/

/-- The events of a list and what they parse to. -/
abbrev Parses : List String → List (String × Int) → Prop :=
  List.Forall₂ fun fullEvent req => parseEvent fullEvent = .ok req

/-- The required events of a wrapper, from the parsed list. -/
def requiredOf (reqs : List (String × Int)) : OMap String (OSet Int) :=
  reqs.foldl (fun m req => addRequired m req.1 req.2) ∅

/-- The index map after a subscription filed under `index`. -/
def indexAll (m : OMap String (OSet String)) (index : String) (reqs : List (String × Int)) :
    OMap String (OSet String) :=
  reqs.foldl (fun m req => addIndex m req.1 index) m

theorem forEach_requireEvent (index : String) {evs : List String} {reqs : List (String × Int)}
    (h : Parses evs reqs) (m : OMap String (OSet String)) (required : OMap String (OSet Int)) :
    Flow.forEach (requireEvent index) evs (m, required) =
      .next (indexAll m index reqs,
        reqs.foldl (fun m req => addRequired m req.1 req.2) required) := by
  induction h generalizing m required with
  | nil => rfl
  | cons hparse _ ih =>
    rw [Flow.forEach_cons, requireEvent, hparse, Flow.next_andThen, ih]
    rfl

/-- **A subscription with a list that parses** is filed under the name of its first event, with
the required events of its list, and leads there from each of them. -/
theorem addNewClient_ok (c addr mt md : String) {evs : List String} {req : String × Int}
    {reqs : List (String × Int)} (h : Parses evs (req :: reqs)) (s : Store) :
    addNewClient c addr evs mt md s =
      .next ⟨indexAll s.getIndexMap req.1 (req :: reqs),
        OMap.insertCell s.subtoClient req.1 c
          (newWrapper c addr mt md (requiredOf (req :: reqs)))⟩ := by
  obtain ⟨first, rest, hfirst, -, rfl⟩ := List.forall₂_cons_right_iff.1 h
  rw [addNewClient, hfirst]
  simp only [forEach_requireEvent req.1 h]
  rfl

theorem mem_getElem?_addRequired {m : OMap String (OSet Int)} {e e' : String} {n n' : Int} :
    (∃ nums, (addRequired m e n)[e']? = some nums ∧ n' ∈ nums) ↔
      (e = e' ∧ n = n') ∨ ∃ nums, m[e']? = some nums ∧ n' ∈ nums := by
  rw [addRequired, ExtTreeMap.getElem?_alter]
  by_cases he : e = e'
  · subst he
    cases m[e]? <;> simp [ExtTreeSet.mem_insert]
  · simp [he]

/-- The counts a wrapper requires are those of its list. -/
theorem mem_requiredOf {reqs : List (String × Int)} {e : String} {n : Int} :
    (∃ nums, (requiredOf reqs)[e]? = some nums ∧ n ∈ nums) ↔ (e, n) ∈ reqs := by
  have hfold : ∀ m : OMap String (OSet Int),
      (∃ nums, (reqs.foldl (fun m req => addRequired m req.1 req.2) m)[e]? = some nums ∧
          n ∈ nums) ↔
        (e, n) ∈ reqs ∨ ∃ nums, m[e]? = some nums ∧ n ∈ nums := by
    induction reqs with
    | nil => simp
    | cons req reqs ih =>
      intro m
      rw [List.foldl_cons, ih, mem_getElem?_addRequired, List.mem_cons, Prod.ext_iff]
      simp only
      tauto
  rw [requiredOf, hfold]
  simp

theorem mem_addRequired {m : OMap String (OSet Int)} {e e' : String} {n : Int} :
    e' ∈ addRequired m e n ↔ e = e' ∨ e' ∈ m := by
  rw [addRequired, ExtTreeMap.mem_alter]
  by_cases he : e = e' <;> simp [he]

/-- The events a wrapper requires are those of its list. -/
theorem mem_keys_requiredOf {reqs : List (String × Int)} {e : String} :
    e ∈ requiredOf reqs ↔ e ∈ reqs.map Prod.fst := by
  have hfold : ∀ m : OMap String (OSet Int),
      e ∈ reqs.foldl (fun m req => addRequired m req.1 req.2) m ↔
        e ∈ reqs.map Prod.fst ∨ e ∈ m := by
    induction reqs with
    | nil => simp
    | cons req reqs ih =>
      intro m
      rw [List.foldl_cons, ih, mem_addRequired, List.map_cons, List.mem_cons]
      tauto
  rw [requiredOf, hfold]
  simp

theorem requires_newWrapper {c addr mt md : String} {reqs : List (String × Int)} {e : String}
    {n : Int} : (newWrapper c addr mt md (requiredOf reqs)).Requires e n ↔ (e, n) ∈ reqs :=
  mem_requiredOf

theorem mem_addIndex {m : OMap String (OSet String)} {e e' ix ix' : String} :
    (∃ set, (addIndex m e ix)[e']? = some set ∧ ix' ∈ set) ↔
      (e = e' ∧ ix = ix') ∨ ∃ set, m[e']? = some set ∧ ix' ∈ set := by
  rw [addIndex, ExtTreeMap.getElem?_alter]
  by_cases he : e = e'
  · subst he
    cases m[e]? <;> simp [ExtTreeSet.mem_insert]
  · simp [he]

/-- A subscription enters its index event for each of its events. -/
theorem mem_indexAll {m : OMap String (OSet String)} {ix ix' e : String}
    {reqs : List (String × Int)} :
    (∃ set, (indexAll m ix reqs)[e]? = some set ∧ ix' ∈ set) ↔
      (ix = ix' ∧ e ∈ reqs.map Prod.fst) ∨ ∃ set, m[e]? = some set ∧ ix' ∈ set := by
  induction reqs generalizing m with
  | nil => simp [indexAll]
  | cons req reqs ih =>
    rw [indexAll, List.foldl_cons, ← indexAll, ih, mem_addIndex, List.map_cons, List.mem_cons]
    tauto

end TPST
