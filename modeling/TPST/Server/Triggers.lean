import TPST.Server.Broadcast

/-!
# Triggered clients and the notify phase

The walk of a publish triggers wrappers for every event of the list, and the notify phase goes
through the index events of the last one. `triggered_iff` says which wrappers the walk triggers,
read off the store before it (`Store.Matches`), and `notifiesAll_iff` when the notify phase meets
them all: exactly if each of them is filed under an index event of the last event, and no visit
faults.
-/

namespace TPST

open Std

namespace Store

/-- No wrapper waits for its notification. -/
def Untriggered (s : Store) : Prop :=
  ∀ ix c w, s.wrapper? ix c = some w → w.iftrigure = false

/-- The publish completes a match of the wrapper at `p`: by name, its counts are met after one of
the events that come to it; by box, a visit before the first fault compares overlapping boxes. -/
def Matches (s : Store) (mt md : String) (L : List String) (p : Place) : Prop :=
  ∃ w, s.wrapper? p.1 p.2 = some w ∧
    ((mt = "NAME" ∧ ∃ P e R, s.eventsAt p.1 L = P ++ e :: R ∧ MetAfter w (P ++ [e])) ∨
      (mt = "META_GRID" ∧ checkIfTriggureMetaGrid w md = .ok true ∧
        ∃ v ∈ s.completed mt md (s.visits L), v.index = p.1 ∧ v.client = p.2))

/-- No visit of the publish faults. -/
def FaultFree (s : Store) (mt md : String) (L : List String) : Prop :=
  ∀ v ∈ s.visits L, s.faultsAt mt md v = false

end Store

/-- The walk of the publish request leaves the wrapper at `p` triggered. -/
def Triggered (L : List String) (mt md : String) (s : Store) (p : Place) : Prop :=
  ∃ w, (pubsubPublish L (requestMatchType mt) md s).state.wrapper? p.1 p.2 = some w ∧
    w.iftrigure = true

/-- The notify phase of the publish request meets every triggered wrapper: there is a task for it,
and once the tasks have run, in whatever order, one notification was pushed for it, and no wrapper
is left triggered. -/
def NotifiesAll (L : List String) (mt md : String) (s : Store) : Prop :=
  ∀ ps : List Place, ps.Perm (publish L mt md s).2 →
    (∀ p, Triggered L mt md s p →
      p ∈ ps ∧
        ((runTasks ps (publish L mt md s).1).2.filter fun push => push.1 = p).length = 1) ∧
    (runTasks ps (publish L mt md s).1).1.Untriggered

section Visits

variable {mt md : String} {w : PubsubWrapper}

/-- Visits that compare boxes trigger the wrapper if there is one and its boxes overlap. -/
theorem iftrigure_visits_META_GRID (vs : List Visit) (w : PubsubWrapper) :
    (vs.foldl (fun w v => visited "META_GRID" md v.event w) w).iftrigure = true ↔
      w.iftrigure = true ∨ (checkIfTriggureMetaGrid w md = .ok true ∧ vs ≠ []) := by
  induction vs generalizing w with
  | nil => simp
  | cons v vs ih =>
    rw [List.foldl_cons, ih, checkIfTriggureMetaGrid_congr (sameTerms_visited _ md v.event w)]
    have hvisit : (visited "META_GRID" md v.event w).iftrigure = true ↔
        w.iftrigure = true ∨ checkIfTriggureMetaGrid w md = .ok true := by
      unfold visited visitWrapper
      cases checkIfTriggureMetaGrid w md with
      | error x => simp
      | ok b => cases b <;> simp [markTriggered]
    rw [hvisit]
    simp only [ne_eq, List.cons_ne_nil, not_false_eq_true, and_true]
    tauto

/-- A publish of another match type visits without effect. -/
theorem visited_other (hn : mt ≠ "NAME") (hg : mt ≠ "META_GRID") (e : String) :
    visited mt md e w = w := by
  simp [visited, visitWrapper, hn, hg]

end Visits

section Triggers

variable {s : Store} {L : List String} {mt md : String} {p : Place}

/-- A wrapper that is not triggered is triggered by the walk when the publish completes a match. -/
theorem matches_iff {w : PubsubWrapper} (hw : s.wrapper? p.1 p.2 = some w)
    (hoff : w.iftrigure = false) :
    (∃ w', (pubsubPublish L mt md s).state.wrapper? p.1 p.2 = some w' ∧ w'.iftrigure = true) ↔
      s.Matches mt md L p := by
  unfold Store.Matches
  by_cases hn : mt = "NAME"
  · subst hn
    rw [wrapper?_pubsubPublish_NAME, hw]
    have hvisits := iftrigure_visits (w := w) md (s.eventsAt p.1 L)
    simp only [hoff, Bool.false_eq_true, false_or] at hvisits
    simp only [Option.map_some, Option.some.injEq, exists_eq_left', true_and]
    rw [show (s.eventsAt p.1 L).foldl (fun w e => visited "NAME" md e w) w =
      visitAll md (s.eventsAt p.1 L) w from rfl, hvisits]
    simp
  · rw [wrapper?_pubsubPublish, hw]
    simp only [Option.map_some, Option.some.injEq, exists_eq_left', hn, false_and, false_or]
    by_cases hg : mt = "META_GRID"
    · subst hg
      rw [iftrigure_visits_META_GRID, hoff, ← List.isEmpty_eq_false_iff]
      simp [List.filter_eq_nil_iff]
    · have hsame : ∀ vs : List Visit,
          vs.foldl (fun w v => visited mt md v.event w) w = w := by
        intro vs
        induction vs with
        | nil => rfl
        | cons v vs ih => rw [List.foldl_cons, visited_other hn hg, ih]
      simp [hsame, hoff, hg]

/-- **Which wrappers a publish triggers**, from the store before it. -/
theorem triggered_iff (hquiet : s.Untriggered) :
    Triggered L mt md s p ↔ s.Matches (requestMatchType mt) md L p := by
  cases hw : s.wrapper? p.1 p.2 with
  | none => simp [Triggered, Store.Matches, wrapper?_pubsubPublish, hw]
  | some w => exact matches_iff hw (hquiet p.1 p.2 w hw)

theorem mem_notifiedIndexEvents {ix : String} :
    ix ∈ notifiedIndexEvents L s ↔ ∃ e, L.getLast? = some e ∧ ix ∈ s.indexEvents e := by
  unfold notifiedIndexEvents
  cases L.getLast? <;> simp

theorem isFault_pubsubPublish_eq_false :
    (pubsubPublish L mt md s).isFault = false ↔ s.FaultFree mt md L := by
  rw [isFault_pubsubPublish]
  simp [Store.FaultFree]

/-- A triggered wrapper has its task if it is filed under an index event of the last event. -/
theorem mem_tasks_of_triggered (hp : Triggered L mt md s p) :
    p ∈ (publish L mt md s).2 ↔
      s.FaultFree (requestMatchType mt) md L ∧
        ∃ e, L.getLast? = some e ∧ p.1 ∈ s.indexEvents e := by
  obtain ⟨w', hw', -⟩ := hp
  rw [mem_tasks_publish, isFault_pubsubPublish_eq_false, mem_notifiedIndexEvents]
  rw [wrapper?_pubsubPublish, Option.map_eq_some_iff] at hw'
  obtain ⟨w, hw, -⟩ := hw'
  simp [hw]

/-- Tasks for the triggered wrappers are all it takes. -/
theorem notifiesAll_of_mem_tasks
    (h : ∀ p, Triggered L mt md s p → p ∈ (publish L mt md s).2) : NotifiesAll L mt md s := by
  intro ps hperm
  have hmem : ∀ p, Triggered L mt md s p → p ∈ ps := fun p hp => hperm.mem_iff.2 (h p hp)
  refine ⟨fun p hp => ⟨hmem p hp, ?_⟩, fun ix c w hw => ?_⟩
  · obtain ⟨w, hw, hon⟩ := hp
    rw [filter_runTasks, if_pos (hmem p ⟨w, hw, hon⟩), wrapper?_publish, hw]
    simp [checkNotify, hon]
  · have hran := wrapper?_runTasks ps (ix, c) (publish L mt md s).1
    rw [hw, wrapper?_publish] at hran
    obtain ⟨w', hw', hcleared⟩ := Option.map_eq_some_iff.1 hran.symm
    by_cases hps : (ix, c) ∈ ps
    · rw [if_pos hps] at hcleared
      rw [← hcleared, checkNotify_iftrigure]
    · rw [if_neg hps] at hcleared
      rw [← hcleared]
      by_contra hon
      exact hps (hmem (ix, c) ⟨w', hw', by simpa using hon⟩)

/-- **The notify phase meets every triggered wrapper exactly when** each of them is filed under an
index event of the last event of the list, and no visit faults if there is one. -/
theorem notifiesAll_iff (hquiet : s.Untriggered) :
    NotifiesAll L mt md s ↔
      ∀ p, s.Matches (requestMatchType mt) md L p →
        s.FaultFree (requestMatchType mt) md L ∧
          ∃ e, L.getLast? = some e ∧ p.1 ∈ s.indexEvents e := by
  simp only [← triggered_iff hquiet]
  constructor
  · intro h p hp
    exact (mem_tasks_of_triggered hp).1 ((h _ (.refl _)).1 p hp).1
  · intro h
    exact notifiesAll_of_mem_tasks fun p hp => (mem_tasks_of_triggered hp).2 (h p hp)

end Triggers

theorem Store.Untriggered.subscribed {s : Store} (hs : s.Untriggered) (c addr mt md : String)
    (req : String × Int) (reqs : List (String × Int)) :
    (s.subscribed c addr mt md req reqs).Untriggered := by
  intro ix c' w hw
  rw [wrapper?_subscribed] at hw
  split at hw
  · rw [← Option.some.inj hw]
    rfl
  · exact hs ix c' w hw

theorem Store.Untriggered.addNewClient {s : Store} (hs : s.Untriggered) (c addr mt md : String)
    (evs : List String) : (addNewClient c addr evs mt md s).state.Untriggered := by
  rcases addNewClient_cases c addr mt md evs s with ⟨req, reqs, hparse⟩ | ⟨hsame, -⟩
  · rw [addNewClient_ok c addr mt md hparse]
    exact hs.subscribed c addr mt md req reqs
  · intro ix c' w hw
    rw [Store.wrapper?, hsame] at hw
    exact hs ix c' w hw

theorem untriggered_empty : Store.empty.Untriggered := by
  intro ix c w hw
  rw [Store.wrapper?_empty] at hw
  cases hw

theorem notifiesAll_pairStore : NotifiesAll ["b", "a"] "NAME" "m" pairStore := by
  apply (notifiesAll_iff (untriggered_empty.subscribed _ _ _ _ _ _)).2
  rintro p ⟨w, hw, -⟩
  refine ⟨fun v _ => faultsAt_NAME "m" v, "a", rfl, ?_⟩
  rw [wrapper?_subscribed] at hw
  split at hw
  · rename_i hplace
    rw [← hplace.1]
    decide +kernel
  · rw [Store.wrapper?_empty] at hw
    cases hw

/-- The store after a subscription to `a` and one to `b`. -/
def twoStore : Store :=
  (Store.empty.subscribed "c" "addr" "NAME" "" ("a", 1) []).subscribed "d" "addr'" "NAME" ""
    ("b", 1) []

theorem wellFormed_twoStore : WellFormed twoStore := by
  have ha : Parses ["a"] [("a", 1)] := .cons (by decide +kernel) .nil
  have hb : Parses ["b"] [("b", 1)] := .cons (by decide +kernel) .nil
  exact (ReachableBy.empty.subscribed ha.parseable ha).subscribed hb.parseable hb

/-- A request with the events `a` and `b` triggers the subscriber of `a`, and leaves it so. -/
theorem notifiesAll_fails :
    ¬ ∀ s : Store, Reachable s → s.Untriggered → ∀ (L : List String) (mt md : String),
      NotifiesAll L mt md s := by
  intro h
  have hquiet : twoStore.Untriggered :=
    (untriggered_empty.subscribed _ _ _ _ _ _).subscribed _ _ _ _ _ _
  have hend := (h twoStore wellFormed_twoStore.reachable hquiet ["a", "b"] "NAME" "m" _
    (.refl _)).2
  have hleft : ((runTasks (publish ["a", "b"] "NAME" "m" twoStore).2
      (publish ["a", "b"] "NAME" "m" twoStore).1).1.wrapper? "a" "c").map (·.iftrigure) =
        some true := by decide +kernel
  obtain ⟨w, hw, hon⟩ := Option.map_eq_some_iff.1 hleft
  rw [hend "a" "c" w hw] at hon
  cases hon

end TPST
