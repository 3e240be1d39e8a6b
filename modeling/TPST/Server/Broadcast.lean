import Mathlib.Data.List.Induction
import Mathlib.Tactic.Ring
import TPST.Server.Reach

/-!
# The indexed publish and the plain broadcast

`pubsubPublish` finds the wrappers that require an event through two maps. In a store reached with
well-formed subscriptions this comes to the same as scanning all wrappers: a wrapper counts every
required event once for each of its occurrences in the list, and it is triggered when its required
counts are met after a prefix of the list whose last event leads to it
(`pubsubPublish_eq_broadcast`). Both rest on what the visits to one wrapper do in a row:
`published_visits` and `iftrigure_visits`.
-/

namespace TPST

open Std

/-- Count the events of a list, without looking for a match. -/
def countAll (es : List String) (w : PubsubWrapper) : PubsubWrapper :=
  es.foldl (fun w e => countPublish e w) w

/-- The visits of a publish by name to one wrapper. -/
def visitAll (md : String) (es : List String) (w : PubsubWrapper) : PubsubWrapper :=
  es.foldl (fun w e => visited "NAME" md e w) w

/-- Every required event has been published, and its count is the required one, once the events
`es` are counted. -/
def MetAfter (w : PubsubWrapper) (es : List String) : Prop :=
  ∀ e n, w.Requires e n → (countAll es w).publishedEvent[e]? = some n

section Visits

variable {w : PubsubWrapper} {md : String}

/-- The entry of an event after counting a list. -/
theorem getElem?_countAll (es : List String) (r : String) (w : PubsubWrapper) :
    (countAll es w).publishedEvent[r]? =
      if r ∈ es then some (w.published r + es.count r) else w.publishedEvent[r]? := by
  induction es generalizing w with
  | nil => rfl
  | cons e es ih =>
    rw [countAll, List.foldl_cons, ← countAll, ih, getElem?_countPublish,
      published_countPublish, List.count_cons]
    by_cases her : e = r
    · subst her
      by_cases hmem : e ∈ es
      · simp [hmem]; ring
      · simp [hmem, List.count_eq_zero_of_not_mem hmem]
    · by_cases hmem : r ∈ es <;> simp [her, hmem, Ne.symm her]

theorem published_countAll (es : List String) (r : String) (w : PubsubWrapper) :
    (countAll es w).published r = w.published r + es.count r := by
  rw [published_eq_getD, getElem?_countAll]
  by_cases hr : r ∈ es
  · simp [hr]
  · simp [hr, List.count_eq_zero_of_not_mem hr, published_eq_getD]

theorem sameTerms_visitAll (md : String) (es : List String) (w : PubsubWrapper) :
    w.SameTerms (visitAll md es w) :=
  sameTerms_foldl_visited "NAME" (fun _ => md) (fun e => e) es w

theorem publishedEvent_visited (md e : String) (w : PubsubWrapper) :
    (visited "NAME" md e w).publishedEvent = (countPublish e w).publishedEvent := by
  rw [visited_NAME]
  split <;> rfl

theorem publishedEvent_countAll_congr {w w' : PubsubWrapper}
    (h : w'.publishedEvent = w.publishedEvent) (es : List String) :
    (countAll es w').publishedEvent = (countAll es w).publishedEvent := by
  induction es generalizing w w' with
  | nil => exact h
  | cons e es ih =>
    exact ih (by simp only [countPublish, PubsubWrapper.published, h])

/-- Visits by name count like `countAll`, whatever their metadata. -/
theorem publishedEvent_foldl_visited {α : Type*} (md event : α → String) (l : List α)
    (w : PubsubWrapper) :
    (l.foldl (fun w a => visited "NAME" (md a) (event a) w) w).publishedEvent =
      (countAll (l.map event) w).publishedEvent := by
  induction l generalizing w with
  | nil => rfl
  | cons a l ih =>
    rw [List.foldl_cons, ih]
    exact publishedEvent_countAll_congr (publishedEvent_visited (md a) (event a) w) _

theorem publishedEvent_visitAll (md : String) (es : List String) (w : PubsubWrapper) :
    (visitAll md es w).publishedEvent = (countAll es w).publishedEvent :=
  (publishedEvent_foldl_visited (fun _ => md) (fun e => e) es w).trans (by rw [List.map_id'])

/-- **The visits in a row count each event as often as it comes.** -/
theorem published_visits (md : String) (es : List String) (w : PubsubWrapper) (r : String) :
    (visitAll md es w).published r = w.published r + es.count r := by
  rw [← published_countAll, published_eq_getD, published_eq_getD, publishedEvent_visitAll]

theorem metAfter_snoc (md : String) (P : List String) (e : String) (w : PubsubWrapper) :
    MetAfter w (P ++ [e]) ↔ checkIfTriggure (countPublish e (visitAll md P w)) = true := by
  have hcount : (countPublish e (visitAll md P w)).publishedEvent =
      (countAll (P ++ [e]) w).publishedEvent := by
    have happ : countAll (P ++ [e]) w = countPublish e (countAll P w) := by
      simp [countAll]
    rw [happ]
    simp only [countPublish, PubsubWrapper.published, publishedEvent_visitAll]
  have hreq : ∀ r n, (countPublish e (visitAll md P w)).Requires r n ↔ w.Requires r n :=
    fun r n => (sameTerms_visitAll md P w).requires_iff
  rw [checkIfTriggure_iff, MetAfter]
  simp only [hreq, hcount]

/-- **The visits in a row trigger the wrapper** when its counts are met after one of them. -/
theorem iftrigure_visits (md : String) (es : List String) (w : PubsubWrapper) :
    (visitAll md es w).iftrigure = true ↔
      w.iftrigure = true ∨ ∃ P e R, es = P ++ e :: R ∧ MetAfter w (P ++ [e]) := by
  induction es using List.reverseRecOn with
  | nil => simp [visitAll]
  | append_singleton es e ih =>
    have hlast : (visitAll md (es ++ [e]) w).iftrigure = true ↔
        MetAfter w (es ++ [e]) ∨ (visitAll md es w).iftrigure = true := by
      have happ : visitAll md (es ++ [e]) w = visited "NAME" md e (visitAll md es w) := by
        simp [visitAll]
      rw [metAfter_snoc md, happ, visited_NAME]
      split
      · simp_all [markTriggered]
      · simp_all [countPublish]
    rw [hlast, ih]
    constructor
    · rintro (hmet | htrig | ⟨P, e', R, rfl, hmet⟩)
      · exact .inr ⟨es, e, [], rfl, hmet⟩
      · exact .inl htrig
      · exact .inr ⟨P, e', R ++ [e], by simp, hmet⟩
    · rintro (htrig | ⟨P, e', R, heq, hmet⟩)
      · exact .inr (.inl htrig)
      · rcases List.eq_nil_or_concat R with rfl | ⟨R', e'', rfl⟩
        · obtain ⟨rfl, rfl⟩ : es = P ∧ e = e' := by
            have := List.append_inj' heq rfl
            exact ⟨this.1, by simpa using this.2⟩
          exact .inl hmet
        · rw [List.concat_eq_append, ← List.cons_append, ← List.append_assoc] at heq
          obtain ⟨rfl, -⟩ := List.append_inj' heq rfl
          exact .inr (.inr ⟨P, e', R', rfl, hmet⟩)

end Visits

/-- Whether the counts are met depends on the occurrences of the required events only. -/
theorem metAfter_iff {w : PubsubWrapper} {es : List String} :
    MetAfter w es ↔ ∀ r n, w.Requires r n →
      (w.publishedEvent[r]? ≠ none ∨ r ∈ es) ∧ w.published r + es.count r = n := by
  unfold MetAfter
  refine forall_congr' fun r => forall_congr' fun n => imp_congr_right fun _ => ?_
  rw [getElem?_countAll]
  by_cases hr : r ∈ es
  · simp [hr]
  · rw [if_neg hr, List.count_eq_zero_of_not_mem hr, published_eq_getD]
    cases w.publishedEvent[r]? <;> simp [hr]

/-- **The indexed publish agrees with a plain broadcast.** In a store reached with well-formed
subscriptions a publish by name runs to its end; every wrapper counts each event it requires once
for each of its occurrences in the list; and it is triggered exactly when it was before, or when
after some prefix of the list, whose last event has the wrapper's index event in its index set,
every required event has been published and its count is the required one. -/
theorem pubsubPublish_eq_broadcast {s : Store} (hs : WellFormed s) (L : List String)
    (md : String) :
    (∃ s', pubsubPublish L "NAME" md s = .next s') ∧
    ∀ ix c w, s.wrapper? ix c = some w →
      ∃ w', (pubsubPublish L "NAME" md s).state.wrapper? ix c = some w' ∧
        (∀ e n, w.Requires e n → w'.published e = w.published e + L.count e) ∧
        (w'.iftrigure = true ↔ w.iftrigure = true ∨
          ∃ P e R, L = P ++ e :: R ∧ ix ∈ s.indexEvents e ∧
            ∀ r n, w.Requires r n →
              (w.publishedEvent[r]? ≠ none ∨ r ∈ P ++ [e]) ∧
                w.published r + (P ++ [e]).count r = n) := by
  constructor
  · obtain ⟨s', hs'⟩ := (@isFault_runVisits "NAME" md (s.visits L) s).2 (by simp)
    have hcut : s.cutList L = false := by
      simpa [Store.cutList] using fun e _ => hs.closed.cut e
    exact ⟨s', by rw [pubsubPublish_eq _ _ L (.refl s), hs', hcut]; rfl⟩
  intro ix c w hw
  have hindexed : ∀ {r n}, w.Requires r n → s.leadsTo ix r = true := fun hr =>
    Store.leadsTo_iff.2 (hs.filed.indexed hw hr)
  refine ⟨visitAll md (s.eventsAt ix L) w, ?_, fun e n hreq => ?_, ?_⟩
  · rw [wrapper?_pubsubPublish_NAME, hw]
    rfl
  · rw [published_visits, eventsAt_of_closed hs.closed, List.count_filter (hindexed hreq)]
  · rw [iftrigure_visits, eventsAt_of_closed hs.closed]
    apply or_congr_right
    -- a prefix of the events that come to the wrapper is a prefix of the list, filtered
    have hmetAfter : ∀ P e, MetAfter w (P.filter (s.leadsTo ix) ++ [e]) ↔
        ∀ r n, w.Requires r n →
          (w.publishedEvent[r]? ≠ none ∨ r ∈ P ++ [e]) ∧
            w.published r + (P ++ [e]).count r = n := by
      intro P e
      rw [metAfter_iff]
      refine forall_congr' fun r => forall_congr' fun n => imp_congr_right fun hreq => ?_
      rw [List.count_append, List.count_append, List.count_filter (hindexed hreq)]
      simp [List.mem_filter, Store.leadsTo_iff.1 (hindexed hreq)]
    constructor
    · rintro ⟨P, e, R, heq, hmet⟩
      obtain ⟨P', L', rfl, rfl, hL'⟩ := List.filter_eq_append_iff.1 heq
      obtain ⟨Q, R', rfl, hQ, he, -⟩ := List.filter_eq_cons_iff.1 hL'
      have hP : P'.filter (s.leadsTo ix) = (P' ++ Q).filter (s.leadsTo ix) := by
        rw [List.filter_append, List.filter_eq_nil_iff.2 hQ, List.append_nil]
      rw [hP] at hmet
      exact ⟨P' ++ Q, e, R', by simp, Store.leadsTo_iff.1 he, (hmetAfter _ e).1 hmet⟩
    · rintro ⟨P, e, R, rfl, he, hmet⟩
      refine ⟨P.filter (s.leadsTo ix), e, R.filter (s.leadsTo ix), ?_, (hmetAfter P e).2 hmet⟩
      rw [List.filter_append, List.filter_cons_of_pos (Store.leadsTo_iff.2 he)]

/-- The store after one subscription to `a` and `b`. -/
def pairStore : Store := Store.empty.subscribed "c" "addr" "NAME" "" ("a", 1) [("b", 1)]

theorem wellFormed_pairStore : WellFormed pairStore :=
  have hparse : Parses ["a", "b"] [("a", 1), ("b", 1)] :=
    .cons (by decide +kernel) (.cons (by decide +kernel) .nil)
  ReachableBy.empty.subscribed hparse.parseable hparse

theorem pubsubPublish_eq_broadcast_pairStore :
    ∃ w, (pubsubPublish ["b", "a"] "NAME" "m" pairStore).state.wrapper? "a" "c" = some w ∧
      w.iftrigure = true := by
  obtain ⟨w, hw, -, htrig⟩ := (pubsubPublish_eq_broadcast wellFormed_pairStore ["b", "a"] "m").2
    "a" "c" _ (wrapper?_subscribed "a" "c")
  refine ⟨w, hw, htrig.2 (.inr ⟨["b"], "a", [], rfl, by decide +kernel, fun r n hreq => ?_⟩)⟩
  rcases List.mem_pair.1 (requires_newWrapper.1 hreq) with heq | heq
  all_goals
    obtain ⟨rfl, rfl⟩ := Prod.mk.inj heq
    exact ⟨.inr (by simp), by decide +kernel⟩

/-- The store after one subscription to `b` that also asks for no publish of `a`. -/
def zeroStore : Store := Store.empty.subscribed "c" "addr" "NAME" "" ("a", 0) [("b", 1)]

theorem wellFormed_zeroStore : WellFormed zeroStore :=
  have hparse : Parses ["a:0", "b"] [("a", 0), ("b", 1)] :=
    .cons (by decide +kernel) (.cons (by decide +kernel) .nil)
  ReachableBy.empty.subscribed hparse.parseable hparse

/-- Equal counts are not enough: an event that is required zero times is to be published, too. -/
theorem not_triggered_by_counts_alone :
    ¬ ∀ s : Store, WellFormed s → ∀ (L : List String) (md ix c : String) (w w' : PubsubWrapper),
      s.wrapper? ix c = some w →
      (pubsubPublish L "NAME" md s).state.wrapper? ix c = some w' →
        (w'.iftrigure = true ↔ w.iftrigure = true ∨
          ∃ P e R, L = P ++ e :: R ∧ ix ∈ s.indexEvents e ∧
            ∀ r n, w.Requires r n → w.published r + (P ++ [e]).count r = n) := by
  intro h
  have hoff : ((pubsubPublish ["b"] "NAME" "m" zeroStore).state.wrapper? "a" "c").map
      (·.iftrigure) = some false := by decide +kernel
  obtain ⟨w', hw', hw'off⟩ := Option.map_eq_some_iff.1 hoff
  have hon := (h zeroStore wellFormed_zeroStore ["b"] "m" "a" "c" _ w'
    (wrapper?_subscribed "a" "c") hw').2
  rw [hw'off] at hon
  refine Bool.false_ne_true (hon (.inr ⟨[], "b", [], rfl, by decide +kernel, fun r n hreq => ?_⟩))
  rcases List.mem_pair.1 (requires_newWrapper.1 hreq) with heq | heq
  all_goals
    obtain ⟨rfl, rfl⟩ := Prod.mk.inj heq
    decide +kernel

end TPST
