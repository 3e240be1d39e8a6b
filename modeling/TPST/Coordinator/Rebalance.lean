import Mathlib.Data.Fintype.EquivFin
import TPST.Coordinator.RedistributeByPlan
import TPST.Server.SubscriberCount

/-!
# Plans that are carried out

`fakeRedistributeByPlan` enters plans in the map; `RedistributeByPlan` has the sources move their
clients. The loop of `RedistributeSub` skips every other client, so one call moves about half of a
row at most, and goes wrong when it is asked for more.

Plans that balance an event on paper never ask for more: they leave their source at most one below
the average, rounded up, and take at most that average at a time. So `count_redistributeByPlan_eq`:
the servers come to have the numbers on paper, and no subscription is lost or made twice.
-/

namespace TPST

open Std

/-- The clients of an event can be moved: the destination of a move files them under the event, and
none is at two servers. -/
structure Movable (e : String) (store : String → Store) : Prop where
  reachable : ∀ a, Reachable (store a)
  lands : ∀ a c w, (store a).wrapper? e c = some w → Lands e w
  apart : ∀ a b c, c ∈ (store a).clients e → c ∈ (store b).clients e → a = b

/-- Some clients of the row of an event are moved from one server to another. -/
structure MovesClients (e src dst : String) (moved : List String) (store store' : String → Store) :
    Prop where
  nodup : moved.Nodup
  subset : ∀ c ∈ moved, c ∈ (store src).clients e
  reachable : ∀ a, Reachable (store' a)
  other : ∀ ix, ix ≠ e → ∀ a c, (store' a).wrapper? ix c = (store a).wrapper? ix c
  clients : ∀ a c, c ∈ (store' a).clients e ↔
    if a = dst then c ∈ (store a).clients e ∨ c ∈ moved
    else c ∈ (store a).clients e ∧ ¬ (a = src ∧ c ∈ moved)
  wrapper : ∀ a c w', (store' a).wrapper? e c = some w' → ∃ b w, (store b).wrapper? e c = some w ∧
    w'.clientID = w.clientID ∧ w'.requiredeventMap.keys = w.requiredeventMap.keys

/-! ## Counting -/

section Counting

variable {s s' : Store} {e : String} {moved : List String}

theorem subNum_congr (h : ∀ c, c ∈ s'.clients e ↔ c ∈ s.clients e) : s'.subNum e = s.subNum e :=
  ((List.perm_ext_iff_of_nodup (s'.nodup_clients e) (s.nodup_clients e)).2 h).length_eq

theorem subNum_add (hnodup : moved.Nodup) (hnew : ∀ c ∈ moved, c ∉ s.clients e)
    (h : ∀ c, c ∈ s'.clients e ↔ c ∈ s.clients e ∨ c ∈ moved) :
    s'.subNum e = s.subNum e + moved.length := by
  have hboth : (s.clients e ++ moved).Nodup :=
    (s.nodup_clients e).append hnodup fun c hc hmoved => hnew c hmoved hc
  have hperm := (List.perm_ext_iff_of_nodup (s'.nodup_clients e) hboth).2 fun c => by
    rw [h, List.mem_append]
  rw [Store.subNum, hperm.length_eq, List.length_append, ← Store.subNum]

end Counting

section MovesClients

variable {e src dst : String} {moved : List String} {store store' : String → Store}

theorem MovesClients.mem_other (h : MovesClients e src dst moved store store') {e' : String}
    (he : e' ≠ e) (a c : String) : c ∈ (store' a).clients e' ↔ c ∈ (store a).clients e' := by
  rw [Store.mem_clients, Store.mem_clients, h.other e' he]

/-- **What a move does to the numbers.** -/
theorem MovesClients.subNum_eq (h : MovesClients e src dst moved store store') (hne : src ≠ dst)
    (hm : Movable e store) (e' a : String) :
    ((store' a).subNum e' : ℤ) = (store a).subNum e' +
      if e = e' then (⟨src, dst, moved.length⟩ : Transfer String).effect a else 0 := by
  rcases eq_or_ne e' e with rfl | he
  · rw [if_pos rfl, Transfer.effect]
    have hclients := h.clients a
    rcases eq_or_ne a dst with rfl | hdst
    · have hnew : ∀ c ∈ moved, c ∉ (store a).clients e' := fun c hc hold =>
        hne (hm.apart src a c (h.subset c hc) hold)
      rw [if_pos rfl, if_neg hne.symm, subNum_add h.nodup hnew fun c => by
        rw [hclients, if_pos rfl]]
      push_cast
      ring
    · rcases eq_or_ne a src with rfl | hsrc
      · -- the source had what it has, and what was moved
        have hgone : ∀ c ∈ moved, c ∉ (store' a).clients e' := fun c hc hold => by
          rw [hclients, if_neg hdst] at hold
          exact hold.2 ⟨rfl, hc⟩
        have hhad : ∀ c, c ∈ (store a).clients e' ↔ c ∈ (store' a).clients e' ∨ c ∈ moved := by
          intro c
          have hsubset := h.subset c
          rw [hclients, if_neg hdst]
          tauto
        rw [if_neg hdst, if_pos rfl, subNum_add h.nodup hgone hhad]
        push_cast
        ring
      · have hsame : ∀ c, c ∈ (store' a).clients e' ↔ c ∈ (store a).clients e' := by
          simp [hclients, hdst, hsrc]
        rw [if_neg hdst, if_neg hsrc, subNum_congr hsame]
        ring
  · rw [if_neg he.symm, subNum_congr (h.mem_other he a), add_zero]

/-- **Nothing is lost by a move, and nothing made.** -/
theorem MovesClients.mem_iff (h : MovesClients e src dst moved store store') (e' c : String) :
    (∃ a, c ∈ (store' a).clients e') ↔ ∃ a, c ∈ (store a).clients e' := by
  rcases eq_or_ne e' e with rfl | he
  · constructor
    · rintro ⟨a, ha⟩
      rw [h.clients] at ha
      split at ha
      · exact ha.elim (fun hold => ⟨a, hold⟩) fun hmoved => ⟨src, h.subset c hmoved⟩
      · exact ⟨a, ha.1⟩
    · rintro ⟨a, ha⟩
      by_cases hmoved : c ∈ moved
      · exact ⟨dst, by rw [h.clients, if_pos rfl]; exact .inr hmoved⟩
      · refine ⟨a, ?_⟩
        rw [h.clients]
        split
        · exact .inl ha
        · exact ⟨ha, fun hgone => hmoved hgone.2⟩
  · exact exists_congr fun a => h.mem_other he a c

/-- **What was moved can be moved again.** -/
theorem MovesClients.movable (h : MovesClients e src dst moved store store') (hne : src ≠ dst)
    (hm : Movable e store) : Movable e store' where
  reachable := h.reachable
  lands a c w' hw' := by
    obtain ⟨b, w, hw, hid, hkeys⟩ := h.wrapper a c w' hw'
    rw [Lands, hid, hkeys]
    exact hm.lands b c w hw
  apart a b c ha hb := by
    -- a client that was moved was at the source, any other is where it was
    have horigin : ∀ a, c ∈ (store' a).clients e →
        (c ∈ moved ∧ a = dst) ∨ (c ∉ moved ∧ c ∈ (store a).clients e) := by
      intro a ha
      by_cases hmoved : c ∈ moved
      · refine .inl ⟨hmoved, ?_⟩
        by_contra hdst
        rw [h.clients, if_neg hdst] at ha
        exact ha.2 ⟨hm.apart a src c ha.1 (h.subset c hmoved), hmoved⟩
      · rw [h.clients] at ha
        split at ha
        · exact .inr ⟨hmoved, ha.resolve_right hmoved⟩
        · exact .inr ⟨hmoved, ha.1⟩
    rcases horigin a ha with ⟨hmoved, rfl⟩ | ⟨hstays, holda⟩
    · rcases horigin b hb with ⟨-, rfl⟩ | ⟨hstays, -⟩
      · rfl
      · exact absurd hmoved hstays
    · rcases horigin b hb with ⟨hmoved, -⟩ | ⟨-, holdb⟩
      · exact absurd hmoved hstays
      · exact hm.apart a b c holda holdb

end MovesClients

/-! ## One call -/

section Call

variable {store : String → Store} {plan : Plan}

theorem subscribeAll_fst (calls : List SubscribeCall) (d : Store) :
    (subscribeAll calls d).1 = handleAll calls d := by
  induction calls generalizing d with
  | nil => rfl
  | cons call calls ih =>
    rw [subscribeAll, handleAll, List.foldl_cons, ← handleAll, ← ih, handleSubscribe_fst]
    rfl

theorem erase_eq_eventUnSubscribe (s : Store) (e c : String) :
    s.erase e c = eventUnSubscribe e c s := by
  rw [eventUnSubscribe, Store.erase]
  split
  · rfl
  · rename_i hnone
    rw [OMap.eraseCell_eq_self (Option.not_isSome_iff_eq_none.1 hnone)]

theorem reachable_eraseAll {s : Store} (hs : Reachable s) (e : String) (clients : List String) :
    Reachable (s.eraseAll e clients) := by
  induction clients generalizing s with
  | nil => exact hs
  | cons c clients ih =>
    rw [Store.eraseAll, List.foldl_cons, ← Store.eraseAll, erase_eq_eventUnSubscribe]
    exact ih (hs.unSubscribe e c)

theorem reachable_handleAll (calls : List SubscribeCall) {d : Store} (hd : Reachable d) :
    Reachable (handleAll calls d) := by
  induction calls generalizing d with
  | nil => exact hd
  | cons call calls ih =>
    rw [handleAll, List.foldl_cons, ← handleAll]
    apply ih
    rw [SubscribeCall.handle, subscribe]
    split
    · exact hd
    · exact hd.subscribe trivial _ _ _ _

theorem keys_movedWrapper (w : PubsubWrapper) :
    (movedWrapper w).requiredeventMap.keys = w.requiredeventMap.keys := by
  apply OMap.keys_eq_of_mem_iff
  intro e
  show e ∈ requiredOf _ ↔ _
  rw [mem_keys_requiredOf, List.map_map, ← ExtTreeMap.mem_keys]
  simp

/-- A client that is taken has a wrapper that is taken. -/
theorem exists_takenWrapper {s : Store} (hs : Reachable s) {diff : ℤ} {e c : String}
    (hc : c ∈ (taken diff 0 (s.entries e)).map Prod.fst) :
    ∃ w ∈ takenWrappers diff e s, s.wrapper? e c = some w ∧ w.clientID = c := by
  obtain ⟨⟨c, w⟩, hentry, rfl⟩ := List.mem_map.1 hc
  have hw := mem_entries.1 ((taken_sublist _).subset hentry)
  exact ⟨w, List.mem_map.2 ⟨_, hentry, rfl⟩, hw, hs.filed.clientID hw⟩

/-- **A call that asks for half of the row at most** moves the number of clients it is asked for. -/
theorem exists_movesClients (hm : Movable plan.moveSubscription store)
    (hne : plan.srcAddr ≠ plan.destAddr) (hpos : 0 < plan.moveNumber)
    (hhalf : 2 * plan.moveNumber ≤ (store plan.srcAddr).subNum plan.moveSubscription + 1) :
    ∃ moved : List String, (moved.length : ℤ) = plan.moveNumber ∧
      MovesClients plan.moveSubscription plan.srcAddr plan.destAddr moved store
        (redistributeCall plan store).1 := by
  obtain ⟨src, dst, e, n⟩ := plan
  simp only at hm hne hpos hhalf ⊢
  have hs := hm.reachable src
  rw [Store.subNum, ← length_entries] at hhalf
  have hok : overruns n 0 ((store src).entries e) = false := by
    rw [Bool.eq_false_iff, Ne, overruns_iff, sub_zero]
    exact fun hover => hover.2 ⟨hpos, hhalf⟩
  have hreturns : (redistributeSub e src dst n (store src)).isFault = false := by
    rw [redistributeSub_eq.1, hok]
  set moved := (taken n 0 ((store src).entries e)).map Prod.fst with hmoved
  set ws := takenWrappers n e (store src) with hws
  have hlength : (moved.length : ℤ) = n := by
    rw [hmoved, List.length_map, length_taken, sub_zero, if_pos ⟨hpos, hhalf⟩]
  have hids : ws.map (·.clientID) = moved := clientIDs_takenWrappers hs
  have hlisted : ∀ w ∈ ws, ∃ ix, w.Listed ix := listed_takenWrappers hs
  -- the stores after the call
  have hdst : (redistributeCall ⟨src, dst, e, n⟩ store).1 dst =
      handleAll (ws.map fun w => subscribeCall dst (getSimplepubsubWrapper w)) (store dst) := by
    simp only [redistributeCall, Function.update_self, Function.update_of_ne hne.symm,
      subscribeAll_fst, calls_eq hreturns, ← hws]
  have hsrc : (redistributeCall ⟨src, dst, e, n⟩ store).1 src = (store src).eraseAll e moved := by
    simp only [redistributeCall, Function.update_of_ne hne, Function.update_self,
      redistributeSub_eq.2.1, ← hmoved]
  have hrest : ∀ a, a ≠ dst → a ≠ src →
      (redistributeCall ⟨src, dst, e, n⟩ store).1 a = store a := by
    intro a ha ha'
    simp only [redistributeCall, Function.update_of_ne ha, Function.update_of_ne ha']
  -- what the destination has
  have hfiled : ∀ ix c, ((redistributeCall ⟨src, dst, e, n⟩ store).1 dst).wrapper? ix c =
      if ix = e ∧ c ∈ moved then ((store src).wrapper? e c).map movedWrapper
      else (store dst).wrapper? ix c := by
    intro ix c
    rw [hdst]
    by_cases hc : c ∈ moved
    · obtain ⟨w, hw, hsome, rfl⟩ := exists_takenWrapper hs hc
      have hlands : Lands ix w ↔ ix = e := by
        have hl := hm.lands src _ w hsome
        rw [Lands, hl.2, Option.some.injEq, and_iff_right hl.1, eq_comm]
      rw [wrapper?_handleAll hlisted (hids ▸ taken_clients.1) hw, hsome, Option.map_some]
      simp only [hlands, hc, and_true]
    · rw [wrapper?_handleAll_of_notMem hlisted (hids ▸ hc), if_neg fun h => hc h.2]
  have hafter : ∀ a ix c, ((redistributeCall ⟨src, dst, e, n⟩ store).1 a).wrapper? ix c =
      if ix = e ∧ c ∈ moved then
        if a = dst then ((store src).wrapper? e c).map movedWrapper
        else if a = src then none else (store a).wrapper? ix c
      else (store a).wrapper? ix c := by
    intro a ix c
    rcases eq_or_ne a dst with rfl | hadst
    · rw [hfiled, if_pos rfl]
    · rw [if_neg hadst]
      rcases eq_or_ne a src with rfl | hasrc
      · rw [hsrc, wrapper?_eraseAll, if_pos rfl]
      · rw [hrest a hadst hasrc, if_neg hasrc, ite_self]
  refine ⟨moved, hlength, taken_clients.1, taken_clients.2, fun a => ?_, fun ix hix a c => ?_,
    fun a c => ?_, fun a c w' hw' => ?_⟩
  · rcases eq_or_ne a dst with rfl | hadst
    · rw [hdst]
      exact reachable_handleAll _ (hm.reachable a)
    · rcases eq_or_ne a src with rfl | hasrc
      · rw [hsrc]
        exact reachable_eraseAll hs e moved
      · rw [hrest a hadst hasrc]
        exact hm.reachable a
  · rw [hafter, if_neg fun h => hix h.1]
  · rw [Store.mem_clients, Store.mem_clients, hafter]
    by_cases hc : c ∈ moved
    · obtain ⟨w, -, hsome, -⟩ := exists_takenWrapper hs hc
      rw [if_pos ⟨rfl, hc⟩, hsome]
      split
      · simp [hc]
      · split
        · rename_i hasrc
          simp [hasrc, hc]
        · rename_i hasrc
          simp [hasrc]
    · simp [hc]
  · rw [hafter] at hw'
    split at hw'
    · split at hw'
      · obtain ⟨w, hw, rfl⟩ := Option.map_eq_some_iff.1 hw'
        exact ⟨src, w, hw, rfl, keys_movedWrapper w⟩
      · split at hw'
        · cases hw'
        · exact ⟨a, w', hw', rfl, rfl⟩
    · exact ⟨a, w', hw', rfl, rfl⟩

end Call

/-! ## The plans of an event -/

/-- A call leaves the stores that the program leaves; some reports may not come to the
coordinator. -/
structure Carries (call : RedistributeCall) : Prop where
  store : ∀ plan store, (call plan store).1 = (redistributeCall plan store).1
  reports : ∀ plan store, (call plan store).2 ⊆ (redistributeCall plan store).2

theorem carries_redistributeCall : Carries redistributeCall :=
  ⟨fun _ _ => rfl, fun _ _ => List.Subset.refl _⟩

/-- The clients of an event are moved as some transfers say, and all else stays: other rows, and
what is recorded for events that are not required along with this one. -/
structure CarriedOut (e : String) (transfers : List (Transfer String)) (g g' : GroupState) :
    Prop where
  movable : Movable e g'.store
  other : ∀ ix, ix ≠ e → ∀ a c, (g'.store a).wrapper? ix c = (g.store a).wrapper? ix c
  mem_iff : ∀ c, (∃ a, c ∈ (g'.store a).clients e) ↔ ∃ a, c ∈ (g.store a).clients e
  count_eq : ∀ a, g'.count e a = Transfer.applyAll transfers (g.count e) a
  record : ∀ e', e' ≠ e →
    (∀ a c w, (g.store a).wrapper? e c = some w → e' ∉ w.requiredeventMap.keys) →
    g'.eventRecordMap[e']? = g.eventRecordMap[e']?

theorem CarriedOut.refl {e : String} {g : GroupState} (hm : Movable e g.store) :
    CarriedOut e [] g g :=
  ⟨hm, fun _ _ _ _ => rfl, fun _ => Iff.rfl, fun _ => by simp [Transfer.applyAll],
    fun _ _ _ => rfl⟩

section CarriedOut

variable {call : RedistributeCall} {home e e' src dst : String} {moved : List String}
  {transfers : List (Transfer String)} {g g₁ g' : GroupState} {plan : Plan}

/-- A move, and then the others. -/
theorem MovesClients.carriedOut (h : MovesClients e src dst moved g.store g₁.store)
    (hne : src ≠ dst) (hm : Movable e g.store)
    (hrecord : ∀ e', e' ≠ e →
      (∀ a c w, (g.store a).wrapper? e c = some w → e' ∉ w.requiredeventMap.keys) →
      g₁.eventRecordMap[e']? = g.eventRecordMap[e']?) (hrest : CarriedOut e transfers g₁ g') :
    CarriedOut e (⟨src, dst, moved.length⟩ :: transfers) g g' where
  movable := hrest.movable
  other ix hix a c := (hrest.other ix hix a c).trans (h.other ix hix a c)
  mem_iff c := (hrest.mem_iff c).trans (h.mem_iff e c)
  count_eq a := by
    rw [hrest.count_eq, Transfer.applyAll_cons]
    congr 1
    funext b
    rw [GroupState.count, h.subNum_eq hne hm, if_pos rfl]
    rfl
  record e' he hnames := by
    rw [hrest.record e' he fun a c w₁ hw₁ => ?_, hrecord e' he hnames]
    obtain ⟨b, w, hw, -, hkeys⟩ := h.wrapper a c w₁ hw₁
    rw [hkeys]
    exact hnames b c w hw

/-- The calls of a request are for wrappers of its row. -/
theorem mem_redistributeSub {s : Store} {n : ℤ} {sent : SubscribeCall}
    (h : sent ∈ (redistributeSub e src dst n s).state.2) :
    ∃ c w, s.wrapper? e c = some w ∧ sent = subscribeCall dst (getSimplepubsubWrapper w) := by
  cases hok : overruns n 0 (s.entries e) with
  | false =>
    rw [redistributeSub_eq.2.2 hok] at h
    obtain ⟨entry, hentry, rfl⟩ := List.mem_map.1 h
    exact ⟨entry.1, entry.2, mem_entries.1 ((taken_sublist _).subset hentry), rfl⟩
  | true =>
    rw [redistributeSub] at h
    split at h
    · rw [redistributeLoop_eq, hok] at h
      cases h
    · cases h

/-- What the destination reports is required by a subscription that is moved. -/
theorem mem_subscribeAll_eventList {calls : List SubscribeCall} {d : Store}
    {r : RecordSubRequest} (hr : r ∈ (subscribeAll calls d).2) :
    ∃ sent ∈ calls, r.subEvent ∈ sent.eventList := by
  induction calls generalizing d with
  | nil => cases hr
  | cons sent calls ih =>
    rw [subscribeAll] at hr
    rcases List.mem_append.1 hr with hnow | hlater
    · exact ⟨sent, List.mem_cons_self, (mem_recordSubs.1 (mem_handleSubscribe_snd hnow)).1⟩
    · obtain ⟨sent', hsent', hevent⟩ := ih hlater
      exact ⟨sent', List.mem_cons_of_mem _ hsent', hevent⟩

theorem getElem?_updateStatusMap_of_ne (m : EventRecordMap) (a : String) (n : ℤ) (he : e' ≠ e) :
    (updateStatusMap e a n m)[e']? = m[e']? := by
  rw [updateStatusMap]
  split
  · exact OMap.getElem?_insertCell_of_ne m he.symm a n
  · exact OMap.getElem?_insertCell_of_ne m he.symm a _

theorem getElem?_recordAll_of_ne {requests : List RecordSubRequest} (m : EventRecordMap)
    (hother : ∀ r ∈ requests, e' ≠ r.subEvent) : (recordAll requests m)[e']? = m[e']? := by
  induction requests generalizing m with
  | nil => rfl
  | cons r requests ih =>
    rw [List.forall_mem_cons] at hother
    rw [recordAll, List.foldl_cons, ← recordAll, ih _ hother.2, recordSub,
      getElem?_updateStatusMap_of_ne m _ _ hother.1]

/-- A plan touches the record of events that its subscriptions require only. -/
theorem getElem?_redistributePlan (hcall : Carries call) (he : e' ≠ plan.moveSubscription)
    (hnames : ∀ a c w, (g.store a).wrapper? plan.moveSubscription c = some w →
      e' ∉ w.requiredeventMap.keys) :
    (redistributePlan call home g plan).eventRecordMap[e']? = g.eventRecordMap[e']? := by
  simp only [redistributePlan]
  rw [OMap.getElem?_insertCell_of_ne _ he.symm, getElem?_recordAll_of_ne]
  rintro r hr rfl
  obtain ⟨sent, hsent, hevent⟩ := mem_subscribeAll_eventList (hcall.reports _ _ hr)
  obtain ⟨c, w, hw, rfl⟩ := mem_redistributeSub hsent
  exact hnames _ c w hw hevent

end CarriedOut

section Plans

variable {call : RedistributeCall} {home e : String} {g : GroupState} {std : Sorting}
  {first : SubMeta} {rest below : List SubMeta} {A : ℤ} {plan : Plan} {plans : List Plan}

theorem reachable_openRow {s : Store} (hs : Reachable s) (e : String) :
    Reachable { s with subtoClient := OMap.openRow s.subtoClient e } := by
  have hinfinite : Infinite String :=
    Infinite.of_injective String.ofList fun _ _ => String.ofList_injective
  obtain ⟨c, hc⟩ := Infinite.exists_notMem_finset (s.clients e).toFinset
  have hnone : s.wrapper? e c = none := by
    by_contra hsome
    exact hc (List.mem_toFinset.2 (Store.mem_clients.2 (Option.ne_none_iff_exists'.1 hsome)))
  -- erasing a client that is not there opens the row
  have hopen : deleteClient e c s = { s with subtoClient := OMap.openRow s.subtoClient e } := by
    rw [deleteClient, OMap.eraseCell_eq_self]
    rw [OMap.cell_openRow]
    exact hnone
  rw [← hopen]
  exact hs.delete e c

/-- The coordinator's look at its own row changes nothing. -/
theorem movesClients_redistributePlan (hcall : Carries call)
    (hm : Movable plan.moveSubscription g.store) (hne : plan.srcAddr ≠ plan.destAddr)
    (hpos : 0 < plan.moveNumber)
    (hhalf : 2 * plan.moveNumber ≤ g.count plan.moveSubscription plan.srcAddr + 1) :
    ∃ moved : List String, (moved.length : ℤ) = plan.moveNumber ∧
      MovesClients plan.moveSubscription plan.srcAddr plan.destAddr moved g.store
        (redistributePlan call home g plan).store := by
  obtain ⟨moved, hlength, h⟩ := exists_movesClients hm hne hpos hhalf
  rw [← hcall.store] at h
  have hwrapper : ∀ a ix c, ((redistributePlan call home g plan).store a).wrapper? ix c =
      ((call plan g.store).1 a).wrapper? ix c := by
    intro a ix c
    simp only [redistributePlan]
    rcases eq_or_ne a home with rfl | ha
    · rw [Function.update_self]
      exact OMap.cell_openRow _ _ _ _
    · rw [Function.update_of_ne ha]
  refine ⟨moved, hlength, h.nodup, h.subset, fun a => ?_, fun ix hix a c => ?_, fun a c => ?_,
    fun a c w' hw' => ?_⟩
  · simp only [redistributePlan]
    rcases eq_or_ne a home with rfl | ha
    · rw [Function.update_self]
      exact reachable_openRow (h.reachable a) _
    · rw [Function.update_of_ne ha]
      exact h.reachable a
  · rw [hwrapper, h.other ix hix]
  · rw [← h.clients, Store.mem_clients, Store.mem_clients, hwrapper]
  · exact h.wrapper a c w' (hwrapper a _ c ▸ hw')

/-- **Filling up servers from the first one** moves what the plans say, if the first one is left at
most one below the level: it always has twice what the next plan takes, less one. -/
theorem carriedOut_fillPlan (hcall : Carries call) (hm : Movable e g.store)
    (hfirst : first.serverAddr ∉ below.map SubMeta.serverAddr)
    (hneed : ∀ x ∈ below, 0 ≤ x.subNumber ∧ x.subNumber < A)
    (hleft : A - 1 ≤ g.count e first.serverAddr - (below.map fun x => A - x.subNumber).sum) :
    CarriedOut e ((below.map (fillPlan e A first)).map Plan.transfer) g
      (redistributeByPlan call home (below.map (fillPlan e A first)) g) := by
  induction below generalizing g with
  | nil => exact .refl hm
  | cons x below ih =>
    rw [List.map_cons, List.mem_cons, not_or] at hfirst
    rw [List.forall_mem_cons] at hneed
    rw [List.map_cons, List.sum_cons] at hleft
    have hlater : 0 ≤ (below.map fun x => A - x.subNumber).sum := by
      apply List.sum_nonneg
      intro n hn
      obtain ⟨y, hy, rfl⟩ := List.mem_map.1 hn
      have := (hneed.2 y hy).2
      omega
    obtain ⟨moved, hlength, h⟩ := @movesClients_redistributePlan call home g (fillPlan e A first x)
      hcall hm hfirst.1 (by simp only [fillPlan, generatePlan]; omega)
      (by simp only [fillPlan, generatePlan]; omega)
    change (moved.length : ℤ) = A - x.subNumber at hlength
    change MovesClients e first.serverAddr x.serverAddr moved g.store _ at h
    have hcount : (redistributePlan call home g (fillPlan e A first x)).count e first.serverAddr =
        g.count e first.serverAddr - (A - x.subNumber) := by
      rw [GroupState.count, h.subNum_eq hfirst.1 hm, if_pos rfl, hlength, Transfer.effect,
        if_neg hfirst.1, if_pos rfl]
      simp only [GroupState.count]
      ring
    have hrest := ih (h.movable hfirst.1 hm) hfirst.2 hneed.2 (by omega)
    have hboth := h.carriedOut hfirst.1 hm
      (fun e' (he : e' ≠ (fillPlan e A first x).moveSubscription) =>
        getElem?_redistributePlan hcall he) hrest
    rwa [hlength] at hboth

/-- What balances leaves the first server at most one below the average, rounded up. -/
theorem le_filled_first {m : EventRecordMap} (hl : std.sort (subMetas m e) = first :: rest)
    (hrest : ∀ x ∈ rest, x.subNumber ≤ A)
    (hshort : (subMetas m e).length * A ≤ totalOf m e + 1) :
    A - 1 ≤ first.subNumber - ((belowOf A rest).map fun x => A - x.subNumber).sum := by
  rw [← filled_first hl (belowOf_sublist A rest), filled_first_of_le hl hrest]
  omega

/-- What is right in the record is not negative. -/
theorem nonneg_of_recorded {m : EventRecordMap} {store : String → Store}
    (hmatch : ∀ a, recorded m e a = (store a).subNum e) :
    ∀ a n, OMap.cell m e a = some n → 0 ≤ n := by
  intro a n hcell
  have hrecorded := hmatch a
  rw [recorded, hcell, Option.getD_some] at hrecorded
  rw [hrecorded]
  exact Int.natCast_nonneg _

/-- Plans that balance an event on paper are carried out. -/
theorem carriedOut_generatePlanForEvent (hcall : Carries call) (hm : Movable e g.store)
    (hmatch : ∀ a, recorded g.eventRecordMap e a = g.count e a)
    (hplans : (generatePlanForEvent std e g.eventRecordMap).2 = .ok plans)
    (hbalance : Balances e g.eventRecordMap plans) :
    CarriedOut e (plans.map Plan.transfer) g (redistributeByPlan call home plans g) ∧
      ∀ a, (redistributeByPlan call home plans g).count e a =
        recorded (fakeRedistributeByPlan plans g.eventRecordMap) e a := by
  have hpos := nonneg_of_recorded hmatch
  have hservers := recorded_of_plan hplans
  have hcarried : CarriedOut e (plans.map Plan.transfer) g
      (redistributeByPlan call home plans g) := by
    by_cases h2 : 2 ≤ (subMetas g.eventRecordMap e).length
    · obtain ⟨first, rest, hl, hrest, hcover, rfl⟩ := exists_eq_fillPlans h2 hplans
      have hshort := (oneAbove_of_balances hl hrest hcover hbalance).2
      have hmem : ∀ x ∈ first :: rest, OMap.cell g.eventRecordMap e x.serverAddr =
          some x.subNumber := fun x hx => mem_subMetas.1 ((mem_of_sort hl).1 hx)
      have hsub := belowOf_sublist ⌈getAverage e g.eventRecordMap⌉ rest
      refine carriedOut_fillPlan hcall hm (first_notMem hl hsub) (fun x hx => ?_) ?_
      · have hx' := mem_belowOf.1 hx
        exact ⟨hpos _ _ (hmem x (List.mem_cons_of_mem _ hx'.1)), hx'.2⟩
      · rw [← hmatch, recorded_of_mem ((mem_of_sort hl).1 List.mem_cons_self)]
        exact le_filled_first hl (rest_le_of_cell_le hl hbalance.le_ceil) hshort
    · rw [generatePlanForEvent, if_pos (by omega)] at hplans
      obtain rfl := Except.ok.inj hplans
      exact .refl hm
  refine ⟨hcarried, fun a => ?_⟩
  rw [recorded_fakeRedistributeByPlan hservers, hcarried.count_eq]
  congr 1
  funext b
  exact (hmatch b).symm

end Plans

/-- **Plans that balance an event on paper balance it in fact**, whatever of the reports comes to
the coordinator: every server comes to have the number of clients that `fakeRedistributeByPlan`
says, none more than the average, rounded up; the clients are those there were, each at one server;
and other events are left alone. -/
theorem redistributeByPlan_eq_fake {call : RedistributeCall} {home e : String} {g : GroupState}
    {std : Sorting} {plans : List Plan} (hcall : Carries call) (hm : Movable e g.store)
    (hmatch : ∀ a, recorded g.eventRecordMap e a = g.count e a)
    (hplans : (generatePlanForEvent std e g.eventRecordMap).2 = .ok plans)
    (hbalance : Balances e g.eventRecordMap plans) :
    (∀ a, (redistributeByPlan call home plans g).count e a =
        recorded (fakeRedistributeByPlan plans g.eventRecordMap) e a) ∧
      (∀ a, (redistributeByPlan call home plans g).count e a ≤
        ⌈getAverage e g.eventRecordMap⌉) ∧
      (∀ c, (∃! a, c ∈ ((redistributeByPlan call home plans g).store a).clients e) ↔
        ∃ a, c ∈ (g.store a).clients e) ∧
      ∀ ix, ix ≠ e → ∀ a c, ((redistributeByPlan call home plans g).store a).wrapper? ix c =
        (g.store a).wrapper? ix c := by
  obtain ⟨hcarried, hcount⟩ :=
    @carriedOut_generatePlanForEvent call home e g std plans hcall hm hmatch hplans hbalance
  refine ⟨hcount, fun a => ?_, fun c => ⟨fun h => (hcarried.mem_iff c).1 h.exists, ?_⟩,
    hcarried.other⟩
  · rw [hcount]
    exact hbalance.recorded_le (nonneg_of_recorded hmatch) a
  · intro h
    obtain ⟨a, ha⟩ := (hcarried.mem_iff c).2 h
    exact ⟨a, ha, fun b hb => hcarried.movable.apart b a c hb ha⟩

/-! ## A group of two -/

/-- The first of two servers has two clients for `a`, and the second is recorded with none. -/
def spareGroup : GroupState where
  store := pairStores
  eventRecordMap := OMap.insertCell (OMap.insertCell ∅ "a" "s1" 2) "a" "s2" 0

theorem recorded_spareGroup (a : String) :
    recorded spareGroup.eventRecordMap "a" a = spareGroup.count "a" a := by
  rw [GroupState.count, spareGroup, subNum_pairStores]
  simp only [recorded, OMap.cell_insertCell, OMap.cell_empty, true_and, if_true]
  split
  · rename_i h2
    subst h2
    rfl
  · split
    · rename_i h1
      subst h1
      rfl
    · rename_i h1
      rw [if_neg (Ne.symm h1)]
      rfl

theorem movable_pairStores : Movable "a" pairStores where
  reachable a := by
    unfold pairStores
    split
    · exact reachable_rowStore
    · exact .empty
  lands a c w hw := by
    unfold pairStores at hw
    split at hw
    · rw [rowStore, wrapper?_subscribed, wrapper?_subscribed] at hw
      split at hw
      · obtain rfl := Option.some.inj hw
        decide +kernel
      · split at hw
        · obtain rfl := Option.some.inj hw
          decide +kernel
        · cases hw
    · cases hw
  apart a b c ha hb := by
    have hfirst : ∀ a, c ∈ (pairStores a).clients "a" → a = "s1" := by
      intro a ha
      by_contra hne
      rw [pairStores, if_neg hne] at ha
      cases ha
    rw [hfirst a ha, hfirst b hb]

theorem balances_spareGroup : Balances "a" spareGroup.eventRecordMap [movePlan] := by
  have hplans : (generatePlanForEvent insertionSorting "a" spareGroup.eventRecordMap).2 =
      .ok [movePlan] := by decide +kernel
  obtain ⟨first, rest, hl, hrest, hcover, heq⟩ := exists_eq_fillPlans (by decide +kernel) hplans
  rw [heq, balances_fillPlans_iff hl hrest hcover (nonneg_of_recorded recorded_spareGroup)]
  unfold OneAbove
  decide +kernel

/-- One of the clients is moved to the second server. -/
theorem redistributeByPlan_eq_fake_spare :
    (redistributeByPlan redistributeCall "s1" [movePlan] spareGroup).count "a" "s2" = 1 :=
  ((@redistributeByPlan_eq_fake redistributeCall "s1" "a" spareGroup insertionSorting [movePlan]
    carries_redistributeCall movable_pairStores recorded_spareGroup (by decide +kernel)
    balances_spareGroup).1 "s2").trans (by decide +kernel)

end TPST
