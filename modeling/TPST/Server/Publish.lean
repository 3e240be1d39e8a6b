import TPST.Server.Store

/-!
# Publishing into the store

`pubsubPublish` walks the event list; for each event its index events; for each index event the
clients filed there. A visit counts the event (`NAME`) or compares boxes (`META_GRID`), and marks
the wrapper when it matches. The walk is left early by the `return` for an index event without a
row in `subtoClient`, and by a fault of the grid parsers.

The walk does not change the shape of the store, so the places it goes to are known before it
starts: `pubsubPublish_eq` flattens the three loops into one over the visits `s.visits eventList`,
and `wrapper?_pubsubPublish` says what the walk does to every wrapper, for every store, event
list, match type and metadata.
-/

namespace TPST

open Std

/-! ## The two matching rules -/

/-- `checkIfTriggure`: every required event is in `publishedEvent` with the required number. -/
def checkIfTriggure (psw : PubsubWrapper) : Bool :=
  psw.requiredeventMap.toList.all fun required =>
    required.2.toList.all fun requirePushNum =>
      match psw.publishedEvent[required.1]? with
      | none => false
      | some num => num == requirePushNum

/-- `checkIfTriggureMetaGrid`: the published box and the subscribed box overlap. -/
def checkIfTriggureMetaGrid (psw : PubsubWrapper) (publishedMeta : String) : Except Fault Bool :=
  match publishedBox publishedMeta with
  | .error e => .error e
  | .ok (publbx, publby, pububx, pububy) =>
    if ':' ∉ psw.subMetadata.toList then .ok false
    else
      match subscribedBox psw.subMetadata with
      | .error e => .error e
      | .ok (sublbx, sublby, sububx, sububy) =>
        if pububx < sublbx ∨ sububx < publbx then .ok false
        else if sububy < publby ∨ pububy < sublby then .ok false
        else .ok true

/-- Count a publish of `event`. -/
def countPublish (event : String) (psw : PubsubWrapper) : PubsubWrapper :=
  { psw with publishedEvent := psw.publishedEvent.insert event (psw.published event + 1) }

/-- Mark the wrapper for notification, with the metadata of the publish that triggered it. -/
def markTriggered (metadata : String) (psw : PubsubWrapper) : PubsubWrapper :=
  { psw with pubMetadata := metadata, iftrigure := true }

/-- What a publish of `event` does to a wrapper it visits. -/
def visitWrapper (matchType metadata event : String) (psw : PubsubWrapper) :
    Except Fault PubsubWrapper :=
  if matchType = "NAME" then
    let counted := countPublish event psw
    .ok (if checkIfTriggure counted then markTriggered metadata counted else counted)
  else if matchType = "META_GRID" then
    match checkIfTriggureMetaGrid psw metadata with
    | .ok tempiftrigure => .ok (if tempiftrigure then markTriggered metadata psw else psw)
    | .error e => .error e
  else .ok psw

/-! ## The walk -/

/-- The innermost loop body. The client comes from the row just copied, so it has a wrapper. -/
def publishClient (matchType metadata event index client : String) (s : Store) :
    Flow Fault Store :=
  match s.wrapper? index client with
  | none => .next s
  | some psw =>
    match visitWrapper matchType metadata event psw with
    | .ok psw' => .next (s.modifyWrapper index client fun _ => psw')
    | .error e => .fault e s

/-- The loop over the clients of one index event; without a row, `pubsubPublish` returns. -/
def publishIndex (matchType metadata event index : String) (s : Store) : Flow Fault Store :=
  if index ∈ s.subtoClient then
    Flow.forEach (publishClient matchType metadata event index) (s.clients index) s
  else .ret s

/-- The loop over the index events of one event; an event not registered has none. -/
def publishEvent (matchType metadata event : String) (s : Store) : Flow Fault Store :=
  Flow.forEach (publishIndex matchType metadata event) (s.indexEvents event) s

/-- `pubsubPublish`. -/
def pubsubPublish (eventList : List String) (matchType metadata : String) (s : Store) :
    Flow Fault Store :=
  Flow.forEach (publishEvent matchType metadata) eventList s

/-! ## One visit -/

theorem checkIfTriggure_iff {psw : PubsubWrapper} :
    checkIfTriggure psw = true ↔
      ∀ event n, psw.Requires event n → psw.publishedEvent[event]? = some n := by
  simp only [checkIfTriggure, List.all_eq_true, Prod.forall,
    ExtTreeMap.mem_toList_iff_getElem?_eq_some, ExtTreeSet.mem_toList]
  constructor
  · rintro h event n ⟨nums, hnums, hn⟩
    have := h event nums hnums n hn
    cases hp : psw.publishedEvent[event]? with
    | none => simp [hp] at this
    | some num => simpa [hp] using this
  · intro h event nums hnums n hn
    simp [h event n ⟨nums, hnums, hn⟩]

theorem published_eq_getD (w : PubsubWrapper) (r : String) :
    w.published r = w.publishedEvent[r]?.getD 0 :=
  ExtTreeMap.getD_eq_getD_getElem?

theorem getElem?_countPublish (e r : String) (w : PubsubWrapper) :
    (countPublish e w).publishedEvent[r]? =
      if e = r then some (w.published e + 1) else w.publishedEvent[r]? := by
  rw [countPublish, ExtTreeMap.getElem?_insert]
  simp

theorem published_countPublish (e r : String) (w : PubsubWrapper) :
    (countPublish e w).published r = w.published r + if e = r then 1 else 0 := by
  rw [published_eq_getD, getElem?_countPublish]
  by_cases her : e = r
  · simp [her]
  · simp [her, published_eq_getD]

section Visit

variable {mt md e : String} {w w' : PubsubWrapper}

/-- The part of a wrapper that a publish does not write. -/
def PubsubWrapper.SameTerms (w w' : PubsubWrapper) : Prop :=
  w'.peerURL = w.peerURL ∧ w'.clientID = w.clientID ∧ w'.subMetadata = w.subMetadata ∧
    w'.matchType = w.matchType ∧ w'.requiredeventMap = w.requiredeventMap

theorem PubsubWrapper.SameTerms.refl (w : PubsubWrapper) : w.SameTerms w :=
  ⟨rfl, rfl, rfl, rfl, rfl⟩

theorem PubsubWrapper.SameTerms.trans {w₁ w₂ w₃ : PubsubWrapper} (h : w₁.SameTerms w₂)
    (h' : w₂.SameTerms w₃) : w₁.SameTerms w₃ :=
  ⟨h'.1.trans h.1, h'.2.1.trans h.2.1, h'.2.2.1.trans h.2.2.1, h'.2.2.2.1.trans h.2.2.2.1,
    h'.2.2.2.2.trans h.2.2.2.2⟩

theorem PubsubWrapper.SameTerms.requires_iff (h : w.SameTerms w') {event : String} {n : Int} :
    w'.Requires event n ↔ w.Requires event n := by
  rw [Requires, Requires, h.2.2.2.2]

theorem sameTerms_visitWrapper (h : visitWrapper mt md e w = .ok w') : w.SameTerms w' := by
  unfold visitWrapper at h
  split at h
  · obtain rfl := Except.ok.inj h
    split <;> exact .refl _
  · split at h
    · split at h
      · obtain rfl := Except.ok.inj h
        split <;> exact .refl _
      · cases h
    · obtain rfl := Except.ok.inj h
      exact .refl _

/-- A visit faults only in the grid parsers, which read the two metadata strings. -/
def visitFaults (matchType metadata : String) (psw : PubsubWrapper) : Bool :=
  match visitWrapper matchType metadata "" psw with
  | .ok _ => false
  | .error _ => true

/-- What a visit that does not fault does. -/
def visited (matchType metadata event : String) (psw : PubsubWrapper) : PubsubWrapper :=
  match visitWrapper matchType metadata event psw with
  | .ok psw' => psw'
  | .error _ => psw

theorem checkIfTriggureMetaGrid_congr (h : w.SameTerms w') (md : String) :
    checkIfTriggureMetaGrid w' md = checkIfTriggureMetaGrid w md := by
  rw [checkIfTriggureMetaGrid, checkIfTriggureMetaGrid, h.2.2.1]

/-- A visit faults with the grid comparison, whatever the event. -/
theorem visitWrapper_eq_error {x : Fault} :
    visitWrapper mt md e w = .error x ↔
      mt = "META_GRID" ∧ checkIfTriggureMetaGrid w md = .error x := by
  unfold visitWrapper
  split
  · rename_i hname
    simp [hname]
  · split
    · rename_i hgrid
      cases checkIfTriggureMetaGrid w md <;> simp [hgrid]
    · rename_i hgrid
      simp [hgrid]

theorem visitFaults_iff :
    visitFaults mt md w = true ↔
      mt = "META_GRID" ∧ ∃ x, checkIfTriggureMetaGrid w md = .error x := by
  rw [visitFaults]
  simp only [← exists_and_left, ← visitWrapper_eq_error (e := "")]
  cases visitWrapper mt md "" w <;> simp

theorem visitFaults_congr (h : w.SameTerms w') (mt md : String) :
    visitFaults mt md w' = visitFaults mt md w := by
  apply Bool.eq_iff_iff.2
  rw [visitFaults_iff, visitFaults_iff, checkIfTriggureMetaGrid_congr h]

theorem visitWrapper_of_visitFaults (h : visitFaults mt md w = false) (e : String) :
    visitWrapper mt md e w = .ok (visited mt md e w) := by
  unfold visited
  cases hvisit : visitWrapper mt md e w with
  | ok psw' => rfl
  | error x =>
    obtain ⟨hgrid, hx⟩ := visitWrapper_eq_error.1 hvisit
    rw [visitFaults_iff.2 ⟨hgrid, x, hx⟩] at h
    cases h

theorem visitWrapper_error_of_visitFaults (h : visitFaults mt md w = true) (e : String) :
    ∃ x, visitWrapper mt md e w = .error x := by
  obtain ⟨hgrid, x, hx⟩ := visitFaults_iff.1 h
  exact ⟨x, visitWrapper_eq_error.2 ⟨hgrid, hx⟩⟩

theorem sameTerms_visited (mt md e : String) (w : PubsubWrapper) :
    w.SameTerms (visited mt md e w) := by
  unfold visited
  split
  · exact sameTerms_visitWrapper ‹_›
  · exact .refl _

/-- Visits in a row leave the terms, too, whatever their metadata and their events. -/
theorem sameTerms_foldl_visited {α : Type*} (mt : String) (md event : α → String) (l : List α)
    (w : PubsubWrapper) :
    w.SameTerms (l.foldl (fun w a => visited mt (md a) (event a) w) w) :=
  List.foldlRecOn l _ (.refl w) fun w' h a _ =>
    h.trans (sameTerms_visited mt (md a) (event a) w')

@[simp] theorem visitFaults_NAME (md : String) (w : PubsubWrapper) :
    visitFaults "NAME" md w = false := rfl

theorem visited_NAME (md e : String) (w : PubsubWrapper) :
    visited "NAME" md e w =
      if checkIfTriggure (countPublish e w) then markTriggered md (countPublish e w)
      else countPublish e w := rfl

end Visit

/-! ## The walk as one loop -/

/-- One round of the innermost loop. -/
structure Visit where
  event : String
  index : String
  client : String
  deriving DecidableEq, Repr

/-- The round itself. -/
def runVisit (matchType metadata : String) (v : Visit) : Store → Flow Fault Store :=
  publishClient matchType metadata v.event v.index v.client

namespace Store

/-- The index events a publish of `event` reaches: those before the first one without a row. -/
def reached (s : Store) (event : String) : List String :=
  (s.indexEvents event).takeWhile (· ∈ s.subtoClient)

/-- A publish of `event` comes upon an index event without a row. -/
def cut (s : Store) (event : String) : Bool := (s.indexEvents event).any (· ∉ s.subtoClient)

/-- The visits of the loop over an index event's clients. -/
def visitsAt (s : Store) (event index : String) : List Visit :=
  (s.clients index).map fun client => ⟨event, index, client⟩

/-- The visits of a publish of one event. -/
def visitsOf (s : Store) (event : String) : List Visit :=
  (s.reached event).flatMap (s.visitsAt event)

/-- The visits of a publish. -/
def visits (s : Store) : List String → List Visit
  | [] => []
  | event :: eventList =>
    s.visitsOf event ++ if s.cut event then [] else s.visits eventList

/-- The walk over an event list is left by the `return`. -/
def cutList (s : Store) (eventList : List String) : Bool := eventList.any s.cut

end Store

section Flatten

variable (mt md : String)

theorem sameShape_runVisit (v : Visit) (s : Store) :
    s.SameShape (runVisit mt md v s).state := by
  unfold runVisit publishClient
  split
  · exact .refl s
  · split
    · exact .modifyWrapper s _ _ _
    · exact .refl s

theorem sameShape_runVisits (vs : List Visit) (s : Store) :
    s.SameShape (Flow.forEach (runVisit mt md) vs s).state :=
  Flow.forEach_state_induction _ (s.SameShape ·) vs
    (fun v _ s' hs' => hs'.trans (sameShape_runVisit mt md v s')) (.refl s)

theorem andThen_congr {r : Flow Fault Store} {k k' : Store → Flow Fault Store}
    (h : ∀ s, r = .next s → k s = k' s) : r.andThen k = r.andThen k' := by
  cases r with
  | next s => exact h s rfl
  | ret s => rfl
  | fault e s => rfl

/-- What follows a sequence of visits may assume that the shape is still that of the start. -/
theorem andThen_runVisits_congr (vs : List Visit) {s s' : Store} (hs : s.SameShape s')
    {k k' : Store → Flow Fault Store} (h : ∀ s'', s.SameShape s'' → k s'' = k' s'') :
    (Flow.forEach (runVisit mt md) vs s').andThen k =
      (Flow.forEach (runVisit mt md) vs s').andThen k' :=
  andThen_congr fun s'' hs'' => h s'' <| hs.trans <| by
    simpa [hs''] using sameShape_runVisits mt md vs s'

variable {s s' : Store}

theorem publishIndex_eq (hs : s.SameShape s') (e ix : String) :
    publishIndex mt md e ix s' =
      if ix ∈ s.subtoClient then Flow.forEach (runVisit mt md) (s.visitsAt e ix) s'
      else .ret s' := by
  rw [publishIndex, Store.visitsAt, Flow.forEach_map, hs.clients_eq]
  simp only [hs.mem_iff]
  rfl

/-- The loop over index events: the visits at those before the first one without a row. -/
theorem forEach_publishIndex_eq (hs : s.SameShape s') (e : String) (ixs : List String) :
    Flow.forEach (publishIndex mt md e) ixs s' =
      (Flow.forEach (runVisit mt md)
        ((ixs.takeWhile (· ∈ s.subtoClient)).flatMap (s.visitsAt e)) s').andThen
        (if ixs.any (· ∉ s.subtoClient) then .ret else .next) := by
  induction ixs generalizing s' with
  | nil => simp
  | cons ix ixs ih =>
    rw [Flow.forEach_cons, publishIndex_eq mt md hs]
    by_cases hix : ix ∈ s.subtoClient
    · simp only [hix, ↓reduceIte, List.takeWhile_cons, decide_true, List.flatMap_cons,
        List.any_cons, not_true, decide_false, Bool.false_or, Flow.forEach_append,
        Flow.andThen_assoc]
      exact andThen_runVisits_congr mt md _ hs fun s'' hs'' => ih hs''
    · simp [hix]

theorem publishEvent_eq (hs : s.SameShape s') (e : String) :
    publishEvent mt md e s' =
      (Flow.forEach (runVisit mt md) (s.visitsOf e) s').andThen
        (if s.cut e then .ret else .next) := by
  rw [publishEvent, hs.indexEvents_eq, forEach_publishIndex_eq mt md hs]
  rfl

/-- **The three loops of `pubsubPublish` are one loop over the visits**, left by the `return` at
its end when the walk comes upon an index event without a row. -/
theorem pubsubPublish_eq (L : List String) (hs : s.SameShape s') :
    pubsubPublish L mt md s' =
      (Flow.forEach (runVisit mt md) (s.visits L) s').andThen
        (if s.cutList L then .ret else .next) := by
  induction L generalizing s' with
  | nil => rfl
  | cons e L ih =>
    rw [pubsubPublish, Flow.forEach_cons, publishEvent_eq mt md hs, Store.visits, Store.cutList,
      List.any_cons, Flow.forEach_append, Flow.andThen_assoc, Flow.andThen_assoc]
    apply andThen_runVisits_congr mt md _ hs
    intro s'' hs''
    cases hcut : s.cut e with
    | true => simp
    | false =>
      simp only [Bool.false_eq_true, ↓reduceIte, Flow.next_andThen, Bool.false_or]
      exact ih hs''

theorem sameShape_pubsubPublish (L : List String) (s : Store) :
    s.SameShape (pubsubPublish L mt md s).state := by
  rw [pubsubPublish_eq mt md L (.refl s)]
  have h := sameShape_runVisits mt md (s.visits L) s
  cases hr : Flow.forEach (runVisit mt md) (s.visits L) s with
  | next s' =>
    rw [hr] at h
    cases hc : s.cutList L <;> simpa using h
  | ret s' => simpa [hr] using h
  | fault e s' => simpa [hr] using h

end Flatten

end TPST
