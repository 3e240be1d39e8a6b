import TPST.Foundations.Quota
import TPST.Server.Broadcast

/-!
# Subscriptions that can fire

The test of a wrapper compares the counter of each required event with every number it is required,
and a counter starts at one and is incremented. So publishes can trigger a client exactly if each
event of its list comes with one number, at least one, and publishes of it reach the wrapper
(`canFire_iff`). `pubsubSubscribe` accepts any list of events that parse.
-/

namespace TPST

open Std

/-- Publishes of one event each, by name, with their metadata. -/
def publishAll (published : List (String × String)) (s : Store) : Store :=
  published.foldl (fun s p => (pubsubPublish [p.1] "NAME" p.2 s).state) s

/-- After some publishes, the wrapper that was stored for the client passes its test. -/
def CanFire (eventList : List String) (clientid : String) (start : Store) : Prop :=
  ∃ req reqs published w, Parses eventList (req :: reqs) ∧
    (publishAll published start).wrapper? req.1 clientid = some w ∧ checkIfTriggure w = true

/-- The events of the list come with one number each, at least one, and publishes of them reach the
index event. -/
def CanBeMet (eventList : List String) (start : Store) : Prop :=
  ∃ req reqs, Parses eventList (req :: reqs) ∧ Quota.Consistent (req :: reqs) ∧
    ∀ r ∈ req :: reqs, req.1 ∈ start.reached r.1

section Publishes

variable {s : Store} {ix c : String}

/-- The publishes that reach an index event. -/
def Store.received (s : Store) (ix : String) (published : List (String × String)) :
    List (String × String) :=
  published.filter fun p => ix ∈ s.reached p.1

theorem wrapper?_publishAll (published : List (String × String)) (s : Store) (ix c : String) :
    (publishAll published s).wrapper? ix c =
      (s.wrapper? ix c).map fun w =>
        (s.received ix published).foldl (fun w p => visited "NAME" p.2 p.1 w) w := by
  induction published generalizing s with
  | nil => simp [publishAll, Store.received]
  | cons p published ih =>
    have hshape := sameShape_pubsubPublish "NAME" p.2 [p.1] s
    have hreceived : (pubsubPublish [p.1] "NAME" p.2 s).state.received ix published =
        s.received ix published := by
      simp only [Store.received, hshape.reached_eq]
    rw [publishAll, List.foldl_cons, ← publishAll, ih, hreceived, wrapper?_pubsubPublish_NAME,
      Option.map_map, eventsAt_singleton]
    congr 1
    funext w
    rw [Function.comp_apply, Store.received, Store.received, List.filter_cons]
    by_cases hix : ix ∈ s.reached p.1 <;> simp [hix]

/-- The test of a wrapper after a run: its counts are met by the publishes that reached it. -/
theorem checkIfTriggure_received {published : List (String × String)} {w : PubsubWrapper} :
    checkIfTriggure
        ((s.received ix published).foldl (fun w p => visited "NAME" p.2 p.1 w) w) = true ↔
      MetAfter w ((s.received ix published).map Prod.fst) := by
  rw [checkIfTriggure_iff, MetAfter]
  simp only [(sameTerms_foldl_visited "NAME" Prod.snd Prod.fst _ w).requires_iff,
    publishedEvent_foldl_visited]

/-- The counts of a new wrapper are met by a list that supplies what is asked for. -/
theorem metAfter_newWrapper {c addr mt md : String} {reqs : List (String × Int)}
    {es : List String} :
    MetAfter (newWrapper c addr mt md (requiredOf reqs)) es ↔ Quota.Supplies es reqs := by
  have hcount : ∀ e (n : Int), (countAll es (newWrapper c addr mt md
      (requiredOf reqs))).publishedEvent[e]? = some n ↔ e ∈ es ∧ (es.count e : Int) = n := by
    intro e n
    rw [getElem?_countAll]
    by_cases he : e ∈ es <;> simp [he, newWrapper, PubsubWrapper.published]
  constructor
  · intro hmet r hr
    exact (hcount r.1 r.2).1 (hmet r.1 r.2 (requires_newWrapper.2 hr))
  · intro hsupplies e n hreq
    exact (hcount e n).2 (hsupplies (e, n) (requires_newWrapper.1 hreq))

end Publishes

/-! ## Accepted subscriptions -/

section Accepted

variable {evs : List String} {c addr mt md : String} {s start : Store}

theorem Parses.unique {reqs reqs' : List (String × Int)} (h : Parses evs reqs)
    (h' : Parses evs reqs') : reqs = reqs' := by
  induction h generalizing reqs' with
  | nil =>
    cases h'
    rfl
  | cons hreq _ ih =>
    cases h' with
    | cons hreq' hrest' => rw [Except.ok.inj (hreq.symm.trans hreq'), ih hrest']

/-- The lists that are accepted are those that parse. -/
theorem accepted_iff :
    pubsubSubscribe evs c addr mt md s = .next start ↔
      ∃ req reqs, Parses evs (req :: reqs) ∧ start = s.subscribed c addr mt md req reqs := by
  constructor
  · intro haccepted
    have hparse : ∃ req reqs, Parses evs (req :: reqs) := by
      unfold pubsubSubscribe addNewClient at haccepted
      split at haccepted
      · cases haccepted
      · split at haccepted
        · cases haccepted
        · split at haccepted
          · rename_i hloop
            obtain ⟨_ | ⟨req, reqs⟩, hparse⟩ := parses_of_forEach_requireEvent hloop
            · cases hparse
            · exact ⟨req, reqs, hparse⟩
          · cases haccepted
          · cases haccepted
    obtain ⟨req, reqs, hparse⟩ := hparse
    rw [pubsubSubscribe_ok hparse] at haccepted
    exact ⟨req, reqs, hparse, (Flow.next.inj haccepted).symm⟩
  · rintro ⟨req, reqs, hparse, rfl⟩
    exact pubsubSubscribe_ok hparse

/-- What a client asks for with its list can be supplied, if it can fire. -/
theorem canBeMet_of_canFire (haccepted : pubsubSubscribe evs c addr mt md s = .next start)
    (hfire : CanFire evs c start) : CanBeMet evs start := by
  obtain ⟨req, reqs, hparse, rfl⟩ := accepted_iff.1 haccepted
  obtain ⟨req', reqs', published, w, hparse', hw, htest⟩ := hfire
  obtain ⟨rfl, rfl⟩ := List.cons.inj (hparse'.unique hparse)
  rw [wrapper?_publishAll, wrapper?_subscribed, if_pos ⟨rfl, rfl⟩] at hw
  rw [← Option.some.inj hw, checkIfTriggure_received, metAfter_newWrapper] at htest
  refine ⟨req', reqs', hparse, htest.consistent, fun r hr => ?_⟩
  obtain ⟨p, hp, heq⟩ := List.mem_map.1 (htest r hr).1
  exact heq ▸ of_decide_eq_true (List.mem_filter.1 hp).2

/-- **Which accepted subscriptions can fire.** For every list of events that is accepted, in every
store: some publishes bring the stored wrapper to pass its test exactly if each event of the list
is asked for with one number, at least one, and publishes of it reach the wrapper. -/
theorem canFire_iff (haccepted : pubsubSubscribe evs c addr mt md s = .next start) :
    CanFire evs c start ↔ CanBeMet evs start := by
  refine ⟨canBeMet_of_canFire haccepted, ?_⟩
  rintro ⟨req, reqs, hparse, hconsistent, hreached⟩
  obtain ⟨req', reqs', hparse', rfl⟩ := accepted_iff.1 haccepted
  obtain ⟨rfl, rfl⟩ := List.cons.inj (hparse'.unique hparse)
  obtain ⟨l, hl, hsupplies⟩ := hconsistent.exists_supplies
  -- publish what is asked for; all of it reaches the wrapper
  let published : List (String × String) := l.map fun e => (e, "")
  let w := newWrapper c addr mt md (requiredOf (req' :: reqs'))
  have hreceived : (s.subscribed c addr mt md req' reqs').received req'.1 published =
      published := by
    rw [Store.received, List.filter_eq_self]
    intro p hp
    obtain ⟨e, he, rfl⟩ := List.mem_map.1 hp
    obtain ⟨r, hr, rfl⟩ := List.mem_map.1 (hl e he)
    exact decide_eq_true (hreached r hr)
  have htest : checkIfTriggure (((s.subscribed c addr mt md req' reqs').received req'.1
      published).foldl (fun w p => visited "NAME" p.2 p.1 w) w) = true := by
    have hevents : published.map Prod.fst = l := by simp [published, Function.comp_def]
    rw [checkIfTriggure_received, metAfter_newWrapper, hreceived, hevents]
    exact hsupplies
  refine ⟨req', reqs', published, _, hparse', ?_, htest⟩
  rw [wrapper?_publishAll, wrapper?_subscribed, if_pos ⟨rfl, rfl⟩]
  rfl

/-- With well-formed subscriptions, publishes of its events reach a wrapper, so the numbers alone
decide. -/
theorem WellFormed.canBeMet_iff (hs : WellFormed s)
    (haccepted : pubsubSubscribe evs c addr mt md s = .next start) :
    CanBeMet evs start ↔
      ∃ req reqs, Parses evs (req :: reqs) ∧ Quota.Consistent (req :: reqs) := by
  constructor
  · rintro ⟨req, reqs, hparse, hconsistent, -⟩
    exact ⟨req, reqs, hparse, hconsistent⟩
  · rintro ⟨req, reqs, hparse, hconsistent⟩
    obtain ⟨req', reqs', hparse', rfl⟩ := accepted_iff.1 haccepted
    obtain ⟨rfl, rfl⟩ := List.cons.inj (hparse'.unique hparse)
    refine ⟨req', reqs', hparse, hconsistent, fun r hr => ?_⟩
    rw [(hs.closed.subscribed c addr mt md req' reqs').reached, mem_indexEvents_subscribed]
    exact .inl ⟨rfl, List.mem_map_of_mem hr⟩

end Accepted

/-- Two of `a` and one of `b`. -/
theorem canFire_two :
    CanFire ["a:2", "b"] "c" (Store.empty.subscribed "c" "addr" "NAME" "" ("a", 2) [("b", 1)]) := by
  have hparse : Parses ["a:2", "b"] [("a", 2), ("b", 1)] :=
    .cons (by decide +kernel) (.cons (by decide +kernel) .nil)
  refine (canFire_iff (pubsubSubscribe_ok (s := .empty) hparse)).2 ⟨_, _, hparse, ?_, ?_⟩
  · decide
  · decide +kernel

/-- No history of publishes makes up one of `a` and two of `a` at the same time. -/
theorem canFire_fails :
    ¬ ∀ (evs : List String) (c addr mt md : String) (s start : Store),
      pubsubSubscribe evs c addr mt md s = .next start → CanFire evs c start := by
  intro h
  have hparse : Parses ["a:1", "a:2"] [("a", 1), ("a", 2)] :=
    .cons (by decide +kernel) (.cons (by decide +kernel) .nil)
  have haccepted : pubsubSubscribe ["a:1", "a:2"] "c" "addr" "NAME" "" .empty =
      .next (Store.empty.subscribed "c" "addr" "NAME" "" ("a", 1) [("a", 2)]) :=
    pubsubSubscribe_ok hparse
  obtain ⟨req, reqs, hparse', hconsistent, -⟩ :=
    canBeMet_of_canFire haccepted (h _ _ _ _ _ _ _ haccepted)
  rw [hparse'.unique hparse] at hconsistent
  exact absurd hconsistent (by decide)

end TPST
