import TPST.Server.Notify

/-!
# The stores a server can come to

`ReachableBy admits s`: `s` comes from the empty store by the operations of the server, one at a
time, where the event lists subscribed satisfy `admits`. `Reachable` admits every list, also those
on which `ParseEvent` raises; `WellFormed` admits the non-empty lists that parse.

* `Reachable.filed`: every wrapper is filed under its client id and under an event it requires,
  and each event it requires leads to it through the index map.
* `ReachableBy.wrapper_induction`: the rule for what holds of one wrapper at a time, and
  `terms_induction`, for what is said of its terms.
* `WellFormed.closed`: with well-formed subscriptions the index map leads to existing rows only,
  so no publish is left by the `return` of `pubsubPublish` (`WellFormed.complete_closed`). A
  subscription that fails half-way breaks this.
-/

namespace TPST

open Std

/-- The stores reached by the server's operations, subscribing only lists that `admits`. -/
inductive ReachableBy (admits : List String → Prop) : Store → Prop
  | empty : ReachableBy admits .empty
  | subscribe {s} (h : ReachableBy admits s) {eventList : List String} (hl : admits eventList)
      (clientId notifyAddr matchType subMetadata : String) :
      ReachableBy admits
        (pubsubSubscribe eventList clientId notifyAddr matchType subMetadata s).state
  | publish {s} (h : ReachableBy admits s) (eventList : List String)
      (matchType metadata : String) :
      ReachableBy admits (pubsubPublish eventList matchType metadata s).state
  | startNotify {s} (h : ReachableBy admits s) {event index : String}
      (hix : index ∈ s.indexEvents event) : ReachableBy admits (startNotify index s).1
  | checkNotify {s} (h : ReachableBy admits s) (p : Place) : ReachableBy admits (runTask p s).1
  | unSubscribe {s} (h : ReachableBy admits s) (event clientId : String) :
      ReachableBy admits (eventUnSubscribe event clientId s)
  | delete {s} (h : ReachableBy admits s) (subevent clientid : String) :
      ReachableBy admits (deleteClient subevent clientid s)

/-- A list of events that a subscription can parse. -/
def Parseable (eventList : List String) : Prop :=
  eventList ≠ [] ∧ ∀ ev ∈ eventList, ∃ req, parseEvent ev = .ok req

/-- Any sequence of operations. -/
abbrev Reachable : Store → Prop := ReachableBy fun _ => True

/-- Any sequence of operations whose subscriptions parse. -/
abbrev WellFormed : Store → Prop := ReachableBy Parseable

theorem ReachableBy.mono {admits admits' : List String → Prop}
    (hmono : ∀ l, admits l → admits' l) {s : Store} (h : ReachableBy admits s) :
    ReachableBy admits' s := by
  induction h with
  | empty => exact .empty
  | subscribe _ hl c addr mt md ih => exact ih.subscribe (hmono _ hl) c addr mt md
  | publish _ L mt md ih => exact ih.publish L mt md
  | startNotify _ hix ih => exact ih.startNotify hix
  | checkNotify _ p ih => exact ih.checkNotify p
  | unSubscribe _ e c ih => exact ih.unSubscribe e c
  | delete _ e c ih => exact ih.delete e c

theorem WellFormed.reachable {s : Store} (h : WellFormed s) : Reachable s :=
  h.mono fun _ _ => trivial

theorem Parseable.parses {eventList : List String} (h : Parseable eventList) :
    ∃ req reqs, Parses eventList (req :: reqs) := by
  obtain ⟨hne, hparse⟩ := h
  have hall : ∀ evs : List String, (∀ ev ∈ evs, ∃ req, parseEvent ev = .ok req) →
      ∃ reqs, Parses evs reqs := by
    intro evs hevs
    induction evs with
    | nil => exact ⟨[], .nil⟩
    | cons ev evs ih =>
      obtain ⟨req, hreq⟩ := hevs ev (by simp)
      obtain ⟨reqs, hreqs⟩ := ih fun ev' hev' => hevs ev' (by simp [hev'])
      exact ⟨req :: reqs, .cons hreq hreqs⟩
  obtain ⟨reqs, hreqs⟩ := hall eventList hparse
  cases hreqs with
  | nil => exact absurd rfl hne
  | cons h₁ h₂ => exact ⟨_, _, .cons h₁ h₂⟩

theorem Parses.parseable {evs : List String} {req : String × Int} {reqs : List (String × Int)}
    (h : Parses evs (req :: reqs)) : Parseable evs := by
  refine ⟨?_, fun ev hev => ?_⟩
  · rintro rfl
    cases h
  · obtain ⟨i, hi, rfl⟩ := List.getElem_of_mem hev
    exact ⟨_, List.forall₂_iff_get.1 h |>.2 i hi (h.length_eq ▸ hi)⟩

/-! ## What the operations keep -/

theorem of_ite_none_eq_some {α : Type*} {P : Prop} [Decidable P] {o : Option α} {a : α}
    (h : (if P then none else o) = some a) : o = some a := by
  split at h
  · cases h
  · exact h

/-- `s'` holds no subscription that `s` does not hold, and leads to them in the same way. -/
structure Store.Keeps (s s' : Store) : Prop where
  wrapper : ∀ {ix c w'}, s'.wrapper? ix c = some w' →
    ∃ w, s.wrapper? ix c = some w ∧ w.SameTerms w'
  indexEvents_eq : ∀ e, s'.indexEvents e = s.indexEvents e
  rows : ∀ {ix}, ix ∈ s.subtoClient → ix ∈ s'.subtoClient

theorem keeps_pubsubPublish (L : List String) (mt md : String) (s : Store) :
    s.Keeps (pubsubPublish L mt md s).state := by
  have hshape := sameShape_pubsubPublish mt md L s
  refine ⟨fun {ix c w'} hw' => ?_, hshape.indexEvents_eq, (hshape.mem_iff _).2⟩
  rw [wrapper?_pubsubPublish, Option.map_eq_some_iff] at hw'
  obtain ⟨w, hw, rfl⟩ := hw'
  exact ⟨w, hw, sameTerms_foldl_visited mt (fun _ => md) Visit.event _ w⟩

theorem keeps_startNotify (ix : String) (s : Store) : s.Keeps (startNotify ix s).1 := by
  refine ⟨fun {ix' c w'} hw' => ?_, fun e => indexEvents_startNotify ix e s, fun h => ?_⟩
  · rw [wrapper?_startNotify] at hw'
    exact ⟨w', hw', .refl w'⟩
  · exact mem_startNotify.2 (.inr h)

theorem keeps_runTask (p : Place) (s : Store) : s.Keeps (runTask p s).1 := by
  have hshape := sameShape_runTask p s
  refine ⟨fun {ix c w'} hw' => ?_, hshape.indexEvents_eq, (hshape.mem_iff _).2⟩
  have hrun := wrapper?_runTask p (ix, c) s
  rw [hw'] at hrun
  obtain ⟨w, hw, hw''⟩ := Option.map_eq_some_iff.1 hrun.symm
  refine ⟨w, hw, ?_⟩
  rw [← hw'']
  split
  · exact sameTerms_checkNotify w
  · exact .refl w

theorem wrapper?_eventUnSubscribe (e c ix c' : String) (s : Store) :
    (eventUnSubscribe e c s).wrapper? ix c' =
      if e = ix ∧ c = c' then none else s.wrapper? ix c' := by
  unfold eventUnSubscribe
  split
  · exact OMap.cell_eraseCell s.subtoClient e ix c c'
  · rename_i hnone
    split
    · rename_i hplace
      rw [← hplace.1, ← hplace.2]
      simpa using hnone
    · rfl

theorem getIndexMap_eventUnSubscribe (e c : String) (s : Store) :
    (eventUnSubscribe e c s).getIndexMap = s.getIndexMap := by
  unfold eventUnSubscribe
  split <;> rfl

theorem mem_eventUnSubscribe {e c ix : String} {s : Store} :
    ix ∈ (eventUnSubscribe e c s).subtoClient ↔ ix ∈ s.subtoClient := by
  unfold eventUnSubscribe
  split
  · exact OMap.mem_eraseCell
  · rfl

theorem wrapper?_deleteClient (e c ix c' : String) (s : Store) :
    (deleteClient e c s).wrapper? ix c' =
      if e = ix ∧ c = c' then none else s.wrapper? ix c' := by
  rw [deleteClient, Store.wrapper?, OMap.cell_eraseCell, OMap.cell_openRow, Store.wrapper?]

theorem keeps_eventUnSubscribe (e c : String) (s : Store) : s.Keeps (eventUnSubscribe e c s) := by
  refine ⟨fun {ix c' w'} hw' => ?_, fun _ => ?_, mem_eventUnSubscribe.2⟩
  · rw [wrapper?_eventUnSubscribe] at hw'
    exact ⟨w', of_ite_none_eq_some hw', .refl w'⟩
  · rw [Store.indexEvents, Store.indexEvents, getIndexMap_eventUnSubscribe]

theorem keeps_deleteClient (e c : String) (s : Store) : s.Keeps (deleteClient e c s) := by
  refine ⟨fun {ix c' w'} hw' => ?_, fun _ => rfl, fun h => ?_⟩
  · rw [wrapper?_deleteClient] at hw'
    exact ⟨w', of_ite_none_eq_some hw', .refl w'⟩
  · exact OMap.mem_eraseCell.2 (OMap.mem_openRow.2 (.inr h))

/-! ## What a subscription adds -/

theorem parses_of_forEach_requireEvent {index : String} {evs : List String}
    {st st' : OMap String (OSet String) × OMap String (OSet Int)}
    (h : Flow.forEach (requireEvent index) evs st = .next st') : ∃ reqs, Parses evs reqs := by
  induction evs generalizing st with
  | nil => exact ⟨[], .nil⟩
  | cons ev evs ih =>
    rw [Flow.forEach_cons, requireEvent] at h
    cases hp : parseEvent ev with
    | error e => simp [hp] at h
    | ok req =>
      rw [hp] at h
      obtain ⟨reqs, hreqs⟩ := ih h
      exact ⟨req :: reqs, .cons hp hreqs⟩

theorem indexEvents_grows_requireEvent (index : String) (evs : List String)
    (st : OMap String (OSet String) × OMap String (OSet Int)) {e ix : String}
    (hix : ∃ set, st.1[e]? = some set ∧ ix ∈ set) :
    ∃ set, (Flow.forEach (requireEvent index) evs st).state.1[e]? = some set ∧ ix ∈ set := by
  refine Flow.forEach_state_induction _
    (fun st : OMap String (OSet String) × OMap String (OSet Int) =>
      ∃ set, st.1[e]? = some set ∧ ix ∈ set) evs (fun ev _ st hst => ?_) hix
  unfold requireEvent
  cases parseEvent ev with
  | error e => exact hst
  | ok req => exact mem_addIndex.2 (.inr hst)

/-- **A subscription either succeeds**, and then its list parses, **or leaves the wrappers as they
were**; the index map only grows. -/
theorem addNewClient_cases (c addr mt md : String) (evs : List String) (s : Store) :
    (∃ req reqs, Parses evs (req :: reqs)) ∨
      ((addNewClient c addr evs mt md s).state.subtoClient = s.subtoClient ∧
        ∀ e, ∀ ix ∈ s.indexEvents e,
          ix ∈ (addNewClient c addr evs mt md s).state.indexEvents e) := by
  by_cases hparse : ∃ req reqs, Parses evs (req :: reqs)
  · exact .inl hparse
  refine .inr ?_
  cases evs with
  | nil => exact ⟨rfl, fun _ _ h => h⟩
  | cons first rest =>
    rw [addNewClient]
    cases parseEvent first with
    | error e => exact ⟨rfl, fun _ _ h => h⟩
    | ok req =>
      have hgrow := @indexEvents_grows_requireEvent req.1 (first :: rest) (s.getIndexMap, ∅)
      cases hloop : Flow.forEach (requireEvent req.1) (first :: rest) (s.getIndexMap, ∅) with
      | next st =>
        obtain ⟨reqs, hreqs⟩ := parses_of_forEach_requireEvent hloop
        cases hreqs with
        | cons h₁ h₂ => exact absurd ⟨_, _, .cons h₁ h₂⟩ hparse
      | ret st =>
        rw [hloop] at hgrow
        simp only [hloop]
        exact ⟨rfl, fun e ix hix =>
          Store.mem_indexEvents.2 (hgrow (Store.mem_indexEvents.1 hix))⟩
      | fault x st =>
        rw [hloop] at hgrow
        simp only [hloop]
        exact ⟨rfl, fun e ix hix =>
          Store.mem_indexEvents.2 (hgrow (Store.mem_indexEvents.1 hix))⟩

/-- The store after a subscription whose list parses. -/
def Store.subscribed (s : Store) (c addr mt md : String) (req : String × Int)
    (reqs : List (String × Int)) : Store :=
  ⟨indexAll s.getIndexMap req.1 (req :: reqs),
    OMap.insertCell s.subtoClient req.1 c (newWrapper c addr mt md (requiredOf (req :: reqs)))⟩

section Subscribed

variable {s : Store} {c addr mt md : String} {req : String × Int} {reqs : List (String × Int)}

theorem pubsubSubscribe_ok {evs : List String} (h : Parses evs (req :: reqs)) :
    pubsubSubscribe evs c addr mt md s = .next (s.subscribed c addr mt md req reqs) :=
  addNewClient_ok c addr mt md h s

theorem ReachableBy.subscribed {admits : List String → Prop} (hs : ReachableBy admits s)
    {evs : List String} (hl : admits evs) (h : Parses evs (req :: reqs)) :
    ReachableBy admits (s.subscribed c addr mt md req reqs) := by
  have hstep := hs.subscribe hl c addr mt md
  rwa [pubsubSubscribe_ok h] at hstep

theorem wrapper?_subscribed (ix c' : String) :
    (s.subscribed c addr mt md req reqs).wrapper? ix c' =
      if req.1 = ix ∧ c = c' then some (newWrapper c addr mt md (requiredOf (req :: reqs)))
      else s.wrapper? ix c' :=
  OMap.cell_insertCell s.subtoClient req.1 ix c c' _

theorem mem_indexEvents_subscribed {e ix : String} :
    ix ∈ (s.subscribed c addr mt md req reqs).indexEvents e ↔
      (req.1 = ix ∧ e ∈ (req :: reqs).map Prod.fst) ∨ ix ∈ s.indexEvents e := by
  rw [Store.mem_indexEvents, Store.mem_indexEvents]
  exact mem_indexAll

theorem mem_subscribed {ix : String} :
    ix ∈ (s.subscribed c addr mt md req reqs).subtoClient ↔ req.1 = ix ∨ ix ∈ s.subtoClient :=
  OMap.mem_insertCell

end Subscribed

/-! ## The invariants -/

/-- Every wrapper is filed under its client and an event it requires, and every event it requires
leads to it. -/
structure Store.Filed (s : Store) : Prop where
  clientID : ∀ {ix c w}, s.wrapper? ix c = some w → w.clientID = c
  requires_index : ∀ {ix c w}, s.wrapper? ix c = some w → ∃ n, w.Requires ix n
  indexed : ∀ {ix c w e n}, s.wrapper? ix c = some w → w.Requires e n → ix ∈ s.indexEvents e

theorem Store.Filed.keeps {s s' : Store} (hs : s.Filed) (h : s.Keeps s') : s'.Filed := by
  refine ⟨fun hw' => ?_, fun hw' => ?_, fun hw' hreq => ?_⟩
  · obtain ⟨w, hw, hterms⟩ := h.wrapper hw'
    rw [hterms.2.1, hs.clientID hw]
  · obtain ⟨w, hw, hterms⟩ := h.wrapper hw'
    obtain ⟨n, hn⟩ := hs.requires_index hw
    exact ⟨n, hterms.requires_iff.2 hn⟩
  · obtain ⟨w, hw, hterms⟩ := h.wrapper hw'
    rw [h.indexEvents_eq]
    exact hs.indexed hw (hterms.requires_iff.1 hreq)

theorem Store.Filed.subscribed {s : Store} (hs : s.Filed) (c addr mt md : String)
    (req : String × Int) (reqs : List (String × Int)) :
    (s.subscribed c addr mt md req reqs).Filed := by
  refine ⟨fun {ix c' w} hw => ?_, fun {ix c' w} hw => ?_, fun {ix c' w e n} hw hreq => ?_⟩
  · rw [wrapper?_subscribed] at hw
    split at hw
    · rename_i hplace
      obtain rfl := Option.some.inj hw
      exact hplace.2
    · exact hs.clientID hw
  · rw [wrapper?_subscribed] at hw
    split at hw
    · rename_i hplace
      obtain rfl := Option.some.inj hw
      exact ⟨req.2, requires_newWrapper.2 (by simp [← hplace.1])⟩
    · exact hs.requires_index hw
  · rw [wrapper?_subscribed] at hw
    split at hw
    · rename_i hplace
      obtain rfl := Option.some.inj hw
      exact mem_indexEvents_subscribed.2
        (.inl ⟨hplace.1, List.mem_map_of_mem (requires_newWrapper.1 hreq)⟩)
    · exact mem_indexEvents_subscribed.2 (.inr (hs.indexed hw hreq))

theorem Store.Filed.addNewClient {s : Store} (hs : s.Filed) (c addr mt md : String)
    (evs : List String) : (addNewClient c addr evs mt md s).state.Filed := by
  rcases addNewClient_cases c addr mt md evs s with ⟨req, reqs, hparse⟩ | ⟨hsame, hgrow⟩
  · rw [addNewClient_ok c addr mt md hparse]
    exact hs.subscribed c addr mt md req reqs
  · have hwrapper : ∀ ix c', (TPST.addNewClient c addr evs mt md s).state.wrapper? ix c' =
        s.wrapper? ix c' := fun ix c' => by rw [Store.wrapper?, hsame]; rfl
    refine ⟨fun hw => ?_, fun hw => ?_, fun hw hreq => ?_⟩
    · rw [hwrapper] at hw
      exact hs.clientID hw
    · rw [hwrapper] at hw
      exact hs.requires_index hw
    · rw [hwrapper] at hw
      exact hgrow _ _ (hs.indexed hw hreq)

theorem ReachableBy.filed {admits : List String → Prop} {s : Store} (h : ReachableBy admits s) :
    s.Filed := by
  induction h with
  | empty =>
    exact ⟨fun hw => by simp at hw, fun hw => by simp at hw, fun hw => by simp at hw⟩
  | subscribe _ _ c addr mt md ih => exact ih.addNewClient c addr mt md _
  | publish _ L mt md ih => exact ih.keeps (keeps_pubsubPublish L mt md _)
  | startNotify _ _ ih => exact ih.keeps (keeps_startNotify _ _)
  | checkNotify _ p ih => exact ih.keeps (keeps_runTask p _)
  | unSubscribe _ e c ih => exact ih.keeps (keeps_eventUnSubscribe e c _)
  | delete _ e c ih => exact ih.keeps (keeps_deleteClient e c _)

/-- **What holds of a new wrapper, and is kept by a visit and by a notify task, holds of every
wrapper** of a reachable store. -/
theorem ReachableBy.wrapper_induction {admits : List String → Prop}
    {P : Place → PubsubWrapper → Prop}
    (hnew : ∀ {evs req reqs} c addr mt md, Parses evs (req :: reqs) →
      P (req.1, c) (newWrapper c addr mt md (requiredOf (req :: reqs))))
    (hvisited : ∀ {p w} mt md e, P p w → P p (visited mt md e w))
    (hnotify : ∀ {p w n}, w.Requires p.1 n → P p w → P p (TPST.checkNotify w).1)
    {s : Store} (h : ReachableBy admits s) :
    ∀ {p w}, s.wrapper? p.1 p.2 = some w → P p w := by
  induction h with
  | empty =>
    intro p w hw
    rw [Store.wrapper?_empty] at hw
    cases hw
  | @subscribe s _ evs _ c addr mt md ih =>
    intro p w hw
    rcases addNewClient_cases c addr mt md evs s with ⟨req, reqs, hparse⟩ | ⟨hsame, -⟩
    · rw [pubsubSubscribe_ok hparse, Flow.state_next, wrapper?_subscribed] at hw
      split at hw
      · rename_i hplace
        obtain rfl := Option.some.inj hw
        obtain rfl : (req.1, c) = p := Prod.ext hplace.1 hplace.2
        exact hnew c addr mt md hparse
      · exact ih hw
    · rw [Store.wrapper?, pubsubSubscribe, hsame] at hw
      exact ih hw
  | @publish s _ L mt md ih =>
    intro p w hw
    rw [wrapper?_pubsubPublish, Option.map_eq_some_iff] at hw
    obtain ⟨w₀, hw₀, rfl⟩ := hw
    -- the visits to the place, one after the other
    exact List.foldlRecOn _ _ (ih hw₀) fun w hw v _ => hvisited mt md v.event hw
  | startNotify _ _ ih =>
    intro p w hw
    rw [wrapper?_startNotify] at hw
    exact ih hw
  | @checkNotify s h q ih =>
    intro p w hw
    rw [wrapper?_runTask, Option.map_eq_some_iff] at hw
    obtain ⟨w₀, hw₀, rfl⟩ := hw
    split
    · obtain ⟨n, hn⟩ := h.filed.requires_index hw₀
      exact hnotify hn (ih hw₀)
    · exact ih hw₀
  | unSubscribe _ e c ih =>
    intro p w hw
    rw [wrapper?_eventUnSubscribe] at hw
    exact ih (of_ite_none_eq_some hw)
  | delete _ e c ih =>
    intro p w hw
    rw [wrapper?_deleteClient] at hw
    exact ih (of_ite_none_eq_some hw)

/-- **What the terms of a new wrapper have, every wrapper has.** -/
theorem ReachableBy.terms_induction {admits : List String → Prop}
    {P : Place → PubsubWrapper → Prop}
    (hterms : ∀ {p w w'}, w.SameTerms w' → P p w → P p w')
    (hnew : ∀ {evs req reqs} c addr mt md, Parses evs (req :: reqs) →
      P (req.1, c) (newWrapper c addr mt md (requiredOf (req :: reqs))))
    {s : Store} (h : ReachableBy admits s) {p : Place} {w : PubsubWrapper}
    (hw : s.wrapper? p.1 p.2 = some w) : P p w :=
  h.wrapper_induction hnew (fun mt md e hp => hterms (sameTerms_visited mt md e _) hp)
    (fun _ hp => hterms (sameTerms_checkNotify _) hp) hw

theorem Store.Closed.keeps {s s' : Store} (hs : s.Closed) (h : s.Keeps s') : s'.Closed := by
  intro e ix hix
  rw [h.indexEvents_eq] at hix
  exact h.rows (hs e ix hix)

theorem Store.Closed.subscribed {s : Store} (hs : s.Closed) (c addr mt md : String)
    (req : String × Int) (reqs : List (String × Int)) :
    (s.subscribed c addr mt md req reqs).Closed := by
  intro e ix hix
  rcases mem_indexEvents_subscribed.1 hix with ⟨rfl, -⟩ | hold
  · exact mem_subscribed.2 (.inl rfl)
  · exact mem_subscribed.2 (.inr (hs e ix hold))

/-- **With well-formed subscriptions the index map is closed.** -/
theorem WellFormed.closed {s : Store} (h : WellFormed s) : s.Closed := by
  induction h with
  | empty => intro e ix hix; simp [Store.indexEvents, Store.empty] at hix
  | subscribe _ hl c addr mt md ih =>
    obtain ⟨req, reqs, hparse⟩ := hl.parses
    rw [pubsubSubscribe_ok hparse]
    exact ih.subscribed c addr mt md req reqs
  | publish _ L mt md ih => exact ih.keeps (keeps_pubsubPublish L mt md _)
  | startNotify _ _ ih => exact ih.keeps (keeps_startNotify _ _)
  | checkNotify _ p ih => exact ih.keeps (keeps_runTask p _)
  | unSubscribe _ e c ih => exact ih.keeps (keeps_eventUnSubscribe e c _)
  | delete _ e c ih => exact ih.keeps (keeps_deleteClient e c _)

/-- An event that a wrapper requires is required some number of times. -/
theorem ReachableBy.requires_of_mem {admits : List String → Prop} {s : Store}
    (h : ReachableBy admits s) {ix c : String} {w : PubsubWrapper}
    (hw : s.wrapper? ix c = some w) {e : String} (he : e ∈ w.requiredeventMap) :
    ∃ n, w.Requires e n := by
  refine h.terms_induction (P := fun _ w => ∀ e ∈ w.requiredeventMap, ∃ n, w.Requires e n)
    (fun hterms hall e he => ?_) (fun c addr mt md _ e he => ?_) (p := (ix, c)) hw e he
  · rw [hterms.2.2.2.2] at he
    exact (hall e he).imp fun n hn => hterms.requires_iff.2 hn
  · obtain ⟨⟨e, n⟩, hmem, rfl⟩ := List.mem_map.1 (mem_keys_requiredOf.1 he)
    exact ⟨n, requires_newWrapper.2 hmem⟩

/-- A publish into a closed store is not left by the `return` of `pubsubPublish`. -/
theorem Store.Closed.pubsubPublish_ne_ret {s : Store} (h : s.Closed) (L : List String)
    (mt md : String) (s' : Store) : pubsubPublish L mt md s ≠ .ret s' := by
  have hcut : s.cutList L = false := by simp [Store.cutList, h.cut]
  have hvisit : ∀ v (s₁ s₂ : Store), runVisit mt md v s₁ ≠ .ret s₂ := by
    intro v s₁ s₂
    unfold runVisit publishClient
    split
    · simp
    · split <;> simp
  have hvisits := Flow.forEach_ne_ret hvisit (s.visits L) s
  rw [pubsubPublish_eq mt md L (.refl s), hcut]
  cases hr : Flow.forEach (runVisit mt md) (s.visits L) s with
  | next s₁ => simp
  | ret s₁ => exact absurd hr (hvisits s₁)
  | fault x s₁ => simp

/-- **With well-formed subscriptions the index maps stay complete and closed**: every event that a
wrapper requires leads to it, the one it is filed under among them, every index event has a row,
and no publish is left by the `return` for an index event without one. -/
theorem WellFormed.complete_closed {s : Store} (h : WellFormed s) :
    (∀ ix c w, s.wrapper? ix c = some w →
      ix ∈ w.requiredeventMap ∧ ∀ e ∈ w.requiredeventMap, ix ∈ s.indexEvents e) ∧
    (∀ e, ∀ ix ∈ s.indexEvents e, ix ∈ s.subtoClient) ∧
    ∀ L mt md s', pubsubPublish L mt md s ≠ .ret s' := by
  refine ⟨fun ix c w hw => ⟨?_, fun e he => ?_⟩, h.closed, h.closed.pubsubPublish_ne_ret⟩
  · obtain ⟨n, nums, hnums, -⟩ := h.filed.requires_index hw
    rw [ExtTreeMap.mem_iff_isSome_getElem?, hnums]
    rfl
  · obtain ⟨n, hn⟩ := h.requires_of_mem hw he
    exact h.filed.indexed hw hn

/-- The maps after one subscription to two events. -/
theorem complete_closed_one :
    ("a" ∈ requiredOf [("a", 1), ("b", 2)] ∧ ∀ e ∈ requiredOf [("a", 1), ("b", 2)],
      "a" ∈ (Store.empty.subscribed "c" "addr" "NAME" "md" ("a", 1) [("b", 2)]).indexEvents e) ∧
    ∀ L mt md s',
      pubsubPublish L mt md (Store.empty.subscribed "c" "addr" "NAME" "md" ("a", 1) [("b", 2)]) ≠
        .ret s' := by
  have hparse : Parses ["a", "b:2"] [("a", 1), ("b", 2)] :=
    .cons (by decide +kernel) (.cons (by decide +kernel) .nil)
  have hwell : WellFormed (Store.empty.subscribed "c" "addr" "NAME" "md" ("a", 1) [("b", 2)]) :=
    ReachableBy.empty.subscribed hparse.parseable hparse
  obtain ⟨hcomplete, -, hpublish⟩ := WellFormed.complete_closed hwell
  exact ⟨hcomplete "a" "c" _ ((wrapper?_subscribed "a" "c").trans (if_pos ⟨rfl, rfl⟩)), hpublish⟩

end TPST
