import Mathlib.Data.List.TakeWhile
import TPST.Server.Publish

/-!
# What a publish does to each wrapper

`wrapper?_pubsubPublish`: for every store, event list, match type and metadata, a wrapper after
the walk is the wrapper before it with the visits to it applied in order, up to the first visit of
the walk that faults. For `NAME`, which never faults, these visits are the events of the list
that reach the wrapper's index event (`wrapper?_pubsubPublish_NAME`); in a closed store, where no
index event is without a row, they are the events whose index set holds it (`eventsAt_of_closed`).
-/

namespace TPST

open Std

namespace Store

/-- The visit `v` faults. -/
def faultsAt (s : Store) (mt md : String) (v : Visit) : Bool :=
  match s.wrapper? v.index v.client with
  | none => false
  | some w => visitFaults mt md w

/-- The visits of `vs` before the first one that faults. -/
def completed (s : Store) (mt md : String) (vs : List Visit) : List Visit :=
  vs.takeWhile fun v => !s.faultsAt mt md v

/-- The events of the list that reach the index event `ix`, in order. -/
def eventsAt (s : Store) (ix : String) : List String → List String
  | [] => []
  | e :: L =>
    (if ix ∈ s.reached e then [e] else []) ++ if s.cut e then [] else s.eventsAt ix L

/-- A publish of `e` leads to the index event `ix`. -/
def leadsTo (s : Store) (ix e : String) : Bool := ix ∈ s.indexEvents e

@[simp] theorem leadsTo_iff {s : Store} {ix e : String} :
    s.leadsTo ix e = true ↔ ix ∈ s.indexEvents e := by
  simp [leadsTo]

/-- Every index event has a row in `subtoClient`. -/
def Closed (s : Store) : Prop := ∀ e, ∀ ix ∈ s.indexEvents e, ix ∈ s.subtoClient

end Store

section Effect

variable {mt md : String} {s : Store}

theorem faultsAt_modifyWrapper {ix c : String} {w w' : PubsubWrapper}
    (hw : s.wrapper? ix c = some w) (hterms : w.SameTerms w') :
    (s.modifyWrapper ix c fun _ => w').faultsAt mt md = s.faultsAt mt md := by
  funext v
  unfold Store.faultsAt
  rw [Store.wrapper?_modifyWrapper]
  by_cases hv : ix = v.index ∧ c = v.client
  · obtain ⟨rfl, rfl⟩ := hv
    simp [hw, visitFaults_congr hterms]
  · simp [hv]

theorem runVisit_of_faultsAt {v : Visit} (h : s.faultsAt mt md v = true) :
    ∃ x, runVisit mt md v s = .fault x s := by
  unfold Store.faultsAt at h
  unfold runVisit publishClient
  cases hw : s.wrapper? v.index v.client with
  | none => simp [hw] at h
  | some w =>
    obtain ⟨x, hx⟩ := visitWrapper_error_of_visitFaults (by simpa [hw] using h) v.event
    exact ⟨x, by simp [hx]⟩

theorem runVisit_of_not_faultsAt {v : Visit} (h : s.faultsAt mt md v = false) :
    runVisit mt md v s =
        .next (s.modifyWrapper v.index v.client (visited mt md v.event)) ∧
      (s.modifyWrapper v.index v.client (visited mt md v.event)).faultsAt mt md =
        s.faultsAt mt md := by
  unfold runVisit publishClient
  cases hw : s.wrapper? v.index v.client with
  | none =>
    have hsame : s.modifyWrapper v.index v.client (visited mt md v.event) = s := by
      have hcell : OMap.modifyCell s.subtoClient v.index v.client (visited mt md v.event) =
          OMap.modifyCell s.subtoClient v.index v.client fun w => w :=
        OMap.modifyCell_congr fun w hw' => by
          rw [← Store.wrapper?, hw] at hw'
          cases hw'
      rw [Store.modifyWrapper, hcell, OMap.modifyCell_id]
    rw [hsame]
    exact ⟨rfl, rfl⟩
  | some w =>
    have hvisit := visitWrapper_of_visitFaults
      (by simpa [Store.faultsAt, hw] using h : visitFaults mt md w = false) v.event
    have hconst : s.modifyWrapper v.index v.client (visited mt md v.event) =
        s.modifyWrapper v.index v.client fun _ => visited mt md v.event w := by
      rw [Store.modifyWrapper, Store.modifyWrapper, OMap.modifyCell_congr]
      intro w' hw'
      rw [← Store.wrapper?, hw] at hw'
      rw [Option.some.inj hw']
    rw [hconst]
    exact ⟨by simp [hvisit], faultsAt_modifyWrapper hw (sameTerms_visited mt md v.event w)⟩

/-- A sequence of visits: every wrapper gets the visits to it, up to the first that faults. -/
theorem wrapper?_runVisits (vs : List Visit) (s : Store) (ix c : String) :
    (Flow.forEach (runVisit mt md) vs s).state.wrapper? ix c =
      (s.wrapper? ix c).map fun w =>
        ((s.completed mt md vs).filter fun v => v.index = ix ∧ v.client = c).foldl
          (fun w v => visited mt md v.event w) w := by
  induction vs generalizing s with
  | nil => simp [Store.completed]
  | cons v vs ih =>
    rw [Flow.forEach_cons, Store.completed]
    cases hf : s.faultsAt mt md v with
    | true =>
      obtain ⟨x, hx⟩ := runVisit_of_faultsAt hf
      simp [hx, hf]
    | false =>
      obtain ⟨hrun, hstatic⟩ := runVisit_of_not_faultsAt hf
      rw [hrun, Flow.next_andThen, ih, Store.completed, hstatic, Store.wrapper?_modifyWrapper]
      by_cases hv : v.index = ix ∧ v.client = c
      · simp [hv, hf, Option.map_map, Function.comp_def]
      · simp [hv, hf]

/-- A sequence of visits goes on, unless one of them faults. -/
theorem isFault_runVisits (vs : List Visit) (s : Store) :
    (Flow.forEach (runVisit mt md) vs s).isFault = vs.any (s.faultsAt mt md) ∧
      (vs.any (s.faultsAt mt md) = false →
        ∃ s', Flow.forEach (runVisit mt md) vs s = .next s') := by
  induction vs generalizing s with
  | nil => exact ⟨rfl, fun _ => ⟨s, rfl⟩⟩
  | cons v vs ih =>
    rw [Flow.forEach_cons, List.any_cons]
    cases hf : s.faultsAt mt md v with
    | true =>
      obtain ⟨x, hx⟩ := runVisit_of_faultsAt hf
      simp [hx]
    | false =>
      obtain ⟨hrun, hstatic⟩ := runVisit_of_not_faultsAt hf
      rw [hrun, Flow.next_andThen, ← hstatic, Bool.false_or]
      exact ih _

/-- **What a publish does to each wrapper.** -/
theorem wrapper?_pubsubPublish (L : List String) (mt md : String) (s : Store) (ix c : String) :
    (pubsubPublish L mt md s).state.wrapper? ix c =
      (s.wrapper? ix c).map fun w =>
        ((s.completed mt md (s.visits L)).filter fun v => v.index = ix ∧ v.client = c).foldl
          (fun w v => visited mt md v.event w) w := by
  rw [← wrapper?_runVisits, pubsubPublish_eq mt md L (.refl s)]
  cases Flow.forEach (runVisit mt md) (s.visits L) s with
  | next s' => cases s.cutList L <;> rfl
  | ret s' => rfl
  | fault e s' => rfl

/-- A publish faults when one of its visits does. -/
theorem isFault_pubsubPublish (L : List String) (mt md : String) (s : Store) :
    (pubsubPublish L mt md s).isFault = (s.visits L).any (s.faultsAt mt md) := by
  rw [← (isFault_runVisits (s.visits L) s).1, pubsubPublish_eq mt md L (.refl s)]
  cases Flow.forEach (runVisit mt md) (s.visits L) s with
  | next s' => cases s.cutList L <;> rfl
  | ret s' => rfl
  | fault e s' => rfl

/-! ## Publishing by name -/

@[simp] theorem faultsAt_NAME (md : String) (v : Visit) : s.faultsAt "NAME" md v = false := by
  unfold Store.faultsAt
  split <;> simp

@[simp] theorem completed_NAME (md : String) (vs : List Visit) :
    s.completed "NAME" md vs = vs := by
  simp [Store.completed, List.takeWhile_eq_self_iff]

theorem nodup_reached (s : Store) (e : String) : (s.reached e).Nodup :=
  (s.nodup_indexEvents e).sublist (List.takeWhile_sublist _)

/-- The events of a publish of one event that reach an index event. -/
theorem eventsAt_singleton (s : Store) (ix e : String) :
    s.eventsAt ix [e] = if ix ∈ s.reached e then [e] else [] := by
  simp [Store.eventsAt]

/-- A publish of one event comes to a wrapper once, if it reaches its index event. -/
theorem filter_visitsOf (e : String) {ix c : String} (hc : c ∈ s.clients ix) :
    (s.visitsOf e).filter (fun v => v.index = ix ∧ v.client = c) =
      if ix ∈ s.reached e then [⟨e, ix, c⟩] else [] := by
  have hrow : ∀ ix', (s.visitsAt e ix').filter (fun v => v.index = ix ∧ v.client = c) =
      if ix' = ix then [⟨e, ix, c⟩] else [] := by
    intro ix'
    rw [Store.visitsAt, List.filter_map]
    by_cases hix : ix' = ix
    · subst hix
      have hnodup : (s.clients ix').Nodup := OMap.nodup_rowKeys _ _
      simp [Function.comp_def, List.filter_eq, List.count_eq_one_of_mem hnodup hc]
    · simp [Function.comp_def, hix]
  rw [Store.visitsOf]
  generalize hreached : s.reached e = ixs
  have hnodup : ixs.Nodup := hreached ▸ nodup_reached s e
  clear hreached
  induction ixs with
  | nil => simp
  | cons ix' ixs ih =>
    rw [List.flatMap_cons, List.filter_append, hrow, ih hnodup.of_cons]
    by_cases hix : ix' = ix
    · subst hix
      simp [(List.nodup_cons.1 hnodup).1]
    · simp [hix, Ne.symm hix]

/-- The events that come to a wrapper, in order. -/
theorem filter_visits (L : List String) {ix c : String} (hc : c ∈ s.clients ix) :
    (s.visits L).filter (fun v => v.index = ix ∧ v.client = c) =
      (s.eventsAt ix L).map fun e => ⟨e, ix, c⟩ := by
  induction L with
  | nil => rfl
  | cons e L ih =>
    rw [Store.visits, List.filter_append, filter_visitsOf e hc, Store.eventsAt, List.map_append]
    congr 1
    · split <;> rfl
    · cases s.cut e with
      | true => rfl
      | false => exact ih

/-- **A publish by name** counts, in every wrapper, the events that reach its index event. -/
theorem wrapper?_pubsubPublish_NAME (L : List String) (md : String) (s : Store)
    (ix c : String) :
    (pubsubPublish L "NAME" md s).state.wrapper? ix c =
      (s.wrapper? ix c).map fun w =>
        (s.eventsAt ix L).foldl (fun w e => visited "NAME" md e w) w := by
  rw [wrapper?_pubsubPublish, completed_NAME]
  cases hw : s.wrapper? ix c with
  | none => rfl
  | some w =>
    rw [filter_visits L (Store.mem_clients.2 ⟨w, hw⟩), Option.map_some, List.foldl_map,
      Option.map_some]

@[simp] theorem isFault_pubsubPublish_NAME (L : List String) (md : String) (s : Store) :
    (pubsubPublish L "NAME" md s).isFault = false := by
  simp [isFault_pubsubPublish]

/-! ## Closed stores -/

theorem Store.Closed.cut (h : s.Closed) (e : String) : s.cut e = false := by
  simpa [Store.cut] using h e

theorem Store.Closed.reached (h : s.Closed) (e : String) : s.reached e = s.indexEvents e := by
  rw [Store.reached, List.takeWhile_eq_self_iff]
  simpa using h e

/-- In a closed store the events that reach an index event are those whose index set holds it. -/
theorem eventsAt_of_closed (h : s.Closed) (ix : String) (L : List String) :
    s.eventsAt ix L = L.filter (s.leadsTo ix) := by
  induction L with
  | nil => rfl
  | cons e L ih =>
    rw [Store.eventsAt, h.cut, h.reached, ih, List.filter_cons]
    by_cases hix : ix ∈ s.indexEvents e <;> simp [hix]

/-! ## Stores of one shape -/

theorem Store.SameShape.reached_eq {s' : Store} (h : s.SameShape s') (e : String) :
    s'.reached e = s.reached e := by
  simp only [Store.reached, h.indexEvents_eq, h.mem_iff]

theorem Store.SameShape.cut_eq {s' : Store} (h : s.SameShape s') (e : String) :
    s'.cut e = s.cut e := by
  simp only [Store.cut, h.indexEvents_eq, h.mem_iff]

theorem Store.SameShape.visits_eq {s' : Store} (h : s.SameShape s') (L : List String) :
    s'.visits L = s.visits L := by
  have hvisitsAt : ∀ e, s'.visitsAt e = s.visitsAt e := by
    intro e
    funext ix
    rw [Store.visitsAt, Store.visitsAt, h.clients_eq]
  induction L with
  | nil => rfl
  | cons e L ih =>
    rw [Store.visits, Store.visits, ih, h.cut_eq, Store.visitsOf, Store.visitsOf, h.reached_eq,
      hvisitsAt]

theorem Store.SameShape.eventsAt_eq {s' : Store} (h : s.SameShape s') (ix : String)
    (L : List String) : s'.eventsAt ix L = s.eventsAt ix L := by
  induction L with
  | nil => rfl
  | cons e L ih => rw [Store.eventsAt, Store.eventsAt, ih, h.cut_eq, h.reached_eq]

end Effect

end TPST
