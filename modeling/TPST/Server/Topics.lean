import TPST.Server.Triggers

/-!
# Clients that did not ask for an event

Clients are filed under one index event, and a publish of an event comes to all clients filed under
the index events it leads to, also to those that do not require it: its bystanders. `onlyTopic_iff`
says when a publish of one event triggers none of them. By name a bystander is triggered if its
counts are met already; for a subscription by name this cannot be (`ReachableBy.prompt`), since it
is triggered as soon as they are, and its counters are deleted with the notification. By box every
bystander is compared, and triggered if the boxes overlap.
-/

namespace TPST

open Std

/-- A subscription by name is triggered once its counts are met. -/
def PubsubWrapper.Prompt (w : PubsubWrapper) : Prop :=
  w.matchType = "NAME" → checkIfTriggure w = true → w.iftrigure = true

section Prompt

variable {w : PubsubWrapper}

/-- What is required is not met by an empty counter. -/
theorem not_checkIfTriggure_of_empty {e : String} {n : Int} (hreq : w.Requires e n)
    (hempty : w.publishedEvent = ∅) : checkIfTriggure w = false := by
  rw [← Bool.not_eq_true, checkIfTriggure_iff]
  intro hall
  have hentry := hall e n hreq
  rw [hempty] at hentry
  simp at hentry

theorem prompt_visited (h : w.Prompt) (mt md e : String) : (visited mt md e w).Prompt := by
  unfold visited visitWrapper
  by_cases hn : mt = "NAME"
  · rw [if_pos hn]
    dsimp only
    split
    · exact fun _ _ => rfl
    · rename_i hmiss
      exact fun _ hmet => absurd hmet hmiss
  · rw [if_neg hn]
    by_cases hg : mt = "META_GRID"
    · rw [if_pos hg]
      cases checkIfTriggureMetaGrid w md with
      | error x => exact h
      | ok b =>
        cases b with
        | true => exact fun _ _ => rfl
        | false => exact h
    · rw [if_neg hg]
      exact h

theorem prompt_checkNotify (h : w.Prompt) {e : String} {n : Int} (hreq : w.Requires e n) :
    (checkNotify w).1.Prompt := by
  intro hname hmet
  have hmatch : w.matchType = "NAME" := by rwa [(sameTerms_checkNotify w).2.2.2.1] at hname
  cases hon : w.iftrigure with
  | false =>
    rw [checkNotify_of_not_iftrigure hon] at hmet
    exact absurd (h hmatch hmet) (by simp [hon])
  | true =>
    -- the notification deletes the counters
    have hempty : (checkNotify w).1.publishedEvent = ∅ := by
      simp [checkNotify, hon, hmatch, deletePubEvent]
    rw [not_checkIfTriggure_of_empty ((sameTerms_checkNotify w).requires_iff.2 hreq) hempty] at hmet
    cases hmet

/-- **In every reachable store, a subscription by name whose counts are met is triggered.** -/
theorem ReachableBy.prompt {admits : List String → Prop} {s : Store} (h : ReachableBy admits s) :
    ∀ {ix c w}, s.wrapper? ix c = some w → w.Prompt := by
  intro ix c w hw
  refine h.wrapper_induction (P := fun _ w => w.Prompt) ?_ ?_ ?_ (p := (ix, c)) hw
  · intro evs req reqs c addr mt md _ _ hmet
    have hreq : (newWrapper c addr mt md (requiredOf (req :: reqs))).Requires req.1 req.2 :=
      requires_newWrapper.2 (by simp)
    rw [not_checkIfTriggure_of_empty hreq rfl] at hmet
    cases hmet
  · exact fun mt md e hprompt => prompt_visited hprompt mt md e
  · exact fun hreq hprompt => prompt_checkNotify hprompt hreq

end Prompt

/-! ## Bystanders -/

/-- The wrapper `w` at `p` is not triggered and does not require `e`, but a publish of `e` comes to
the clients filed with it. -/
structure Store.Bystander (s : Store) (e : String) (p : Place) (w : PubsubWrapper) : Prop where
  wrapper : s.wrapper? p.1 p.2 = some w
  off : w.iftrigure = false
  reached : p.1 ∈ s.reached e
  foreign : e ∉ w.requiredeventMap

/-- A publish of `e` triggers only clients that require it. -/
def OnlyTopic (e mt md : String) (s : Store) : Prop :=
  ∀ (p : Place) w w', s.wrapper? p.1 p.2 = some w → w.iftrigure = false →
    (pubsubPublish [e] mt md s).state.wrapper? p.1 p.2 = some w' → w'.iftrigure = true →
      e ∈ w.requiredeventMap

/-- Nothing to trigger a bystander: by name, none that is subscribed by another rule has its counts
met; by box, none that is compared before the first fault overlaps. -/
def SparesBystanders (e mt md : String) (s : Store) : Prop :=
  ∀ p w, s.Bystander e p w →
    (mt = "NAME" → w.matchType ≠ "NAME" → checkIfTriggure w = false) ∧
      (mt = "META_GRID" → ⟨e, p.1, p.2⟩ ∈ s.completed mt md (s.visitsOf e) →
        checkIfTriggureMetaGrid w md ≠ .ok true)

section Topics

variable {s : Store} {e mt md : String} {p : Place} {w : PubsubWrapper}

/-- An event that is not required does not matter to the test. -/
theorem metAfter_foreign (he : e ∉ w.requiredeventMap) :
    MetAfter w [e] ↔ checkIfTriggure w = true := by
  rw [checkIfTriggure_iff, MetAfter]
  refine forall_congr' fun r => forall_congr' fun n => imp_congr_right fun hreq => ?_
  have hne : r ≠ e := by
    rintro rfl
    obtain ⟨nums, hnums, -⟩ := hreq
    exact he (ExtTreeMap.mem_iff_isSome_getElem?.2 (by simp [hnums]))
  rw [getElem?_countAll, if_neg (by simpa using hne)]

theorem visits_singleton (s : Store) (e : String) : s.visits [e] = s.visitsOf e := by
  rw [Store.visits, Store.visits, ite_self, List.append_nil]

theorem mem_visitsOf {v : Visit} :
    v ∈ s.visitsOf e ↔ v.event = e ∧ v.index ∈ s.reached e ∧ v.client ∈ s.clients v.index := by
  simp only [Store.visitsOf, Store.visitsAt, List.mem_flatMap, List.mem_map]
  constructor
  · rintro ⟨ix, hix, c, hc, rfl⟩
    exact ⟨rfl, hix, hc⟩
  · rintro ⟨rfl, hix, hc⟩
    exact ⟨v.index, hix, v.client, hc, rfl⟩

/-- What triggers a bystander. -/
theorem matches_bystander (h : s.Bystander e p w) :
    s.Matches mt md [e] p ↔ (mt = "NAME" ∧ checkIfTriggure w = true) ∨
      (mt = "META_GRID" ∧ checkIfTriggureMetaGrid w md = .ok true ∧
        ⟨e, p.1, p.2⟩ ∈ s.completed mt md (s.visitsOf e)) := by
  rw [Store.Matches, h.wrapper]
  simp only [Option.some.injEq, exists_eq_left', visits_singleton]
  apply or_congr
  · apply and_congr_right
    rintro -
    rw [eventsAt_singleton, if_pos h.reached, ← metAfter_foreign h.foreign]
    constructor
    · rintro ⟨P, e', R, heq, hmet⟩
      rw [List.singleton_eq_append_iff] at heq
      rcases heq with ⟨rfl, htail⟩ | ⟨-, htail⟩
      · obtain ⟨rfl, -⟩ := List.cons.inj htail
        exact hmet
      · cases htail
    · intro hmet
      exact ⟨[], e, [], rfl, hmet⟩
  · refine and_congr_right fun _ => and_congr_right fun _ => ⟨?_, fun hv => ⟨_, hv, rfl, rfl⟩⟩
    rintro ⟨⟨event, index, client⟩, hv, rfl, rfl⟩
    obtain ⟨rfl, -⟩ := mem_visitsOf.1 ((List.takeWhile_sublist _).subset hv)
    exact hv

/-- **When only clients that asked for the event are triggered**, in every reachable store. -/
theorem onlyTopic_iff (hs : Reachable s) : OnlyTopic e mt md s ↔ SparesBystanders e mt md s := by
  constructor
  · intro honly p w hby
    have hmatch : ¬ s.Matches mt md [e] p := by
      intro hmatch
      obtain ⟨w', hw', hon⟩ := (matches_iff hby.wrapper hby.off).2 hmatch
      exact hby.foreign (honly p w w' hby.wrapper hby.off hw' hon)
    rw [matches_bystander hby, not_or] at hmatch
    refine ⟨fun hname _ => ?_, fun hgrid hv hoverlap => hmatch.2 ⟨hgrid, hoverlap, hv⟩⟩
    rw [← Bool.not_eq_true]
    exact fun hmet => hmatch.1 ⟨hname, hmet⟩
  · intro hspares p w w' hw hoff hw' hon
    have hmatch := (matches_iff hw hoff).1 ⟨w', hw', hon⟩
    by_contra hforeign
    have hreached : p.1 ∈ s.reached e := by
      obtain ⟨w₀, -, ⟨-, P, e', R, heq, -⟩ | ⟨-, -, v, hv, hix, -⟩⟩ := hmatch
      · rw [eventsAt_singleton] at heq
        by_contra hout
        rw [if_neg hout] at heq
        simp at heq
      · rw [visits_singleton] at hv
        rw [← hix]
        exact (mem_visitsOf.1 ((List.takeWhile_sublist _).subset hv)).2.1
    have hby : s.Bystander e p w := ⟨hw, hoff, hreached, hforeign⟩
    obtain ⟨hbyName, hbyBox⟩ := hspares p w hby
    rcases (matches_bystander hby).1 hmatch with ⟨hname, hmet⟩ | ⟨hgrid, hoverlap, hv⟩
    · have hrule : w.matchType ≠ "NAME" := fun hrule =>
        absurd (hs.prompt hw hrule hmet) (by simp [hoff])
      rw [hbyName hname hrule] at hmet
      cases hmet
    · exact hbyBox hgrid hv hoverlap

/-- The store after a subscription by box to `a`, and one by name to `a` and `b`. -/
def boxStore : Store :=
  (Store.empty.subscribed "c" "addr" "META_GRID" "<0,0>:<2,2>" ("a", 1) []).subscribed "d" "addr'"
    "NAME" "" ("a", 1) [("b", 1)]

theorem reachable_boxStore : Reachable boxStore := by
  have ha : Parses ["a"] [("a", 1)] := .cons (by decide +kernel) .nil
  have hab : Parses ["a", "b"] [("a", 1), ("b", 1)] :=
    .cons (by decide +kernel) (.cons (by decide +kernel) .nil)
  exact (ReachableBy.empty.subscribed trivial ha).subscribed trivial hab

/-- A box elsewhere spares the bystander. -/
theorem onlyTopic_boxStore : OnlyTopic "b" "META_GRID" "GRID[<5,5>:<6,6>]%TS[1]" boxStore := by
  apply (onlyTopic_iff reachable_boxStore).2
  intro p w hby
  refine ⟨fun h => absurd h (by decide), fun _ _ => ?_⟩
  have hw := hby.wrapper
  have hforeign := hby.foreign
  rw [boxStore, wrapper?_subscribed] at hw
  split at hw
  · obtain rfl := Option.some.inj hw
    exact absurd (mem_keys_requiredOf.2 (by simp)) hforeign
  · rw [wrapper?_subscribed] at hw
    split at hw
    · obtain rfl := Option.some.inj hw
      decide +kernel
    · rw [Store.wrapper?_empty] at hw
      cases hw

/-- A publish of `b` by box triggers the client that asked for `a` only. -/
theorem onlyTopic_fails :
    ¬ ∀ s : Store, Reachable s → ∀ e mt md : String, OnlyTopic e mt md s := by
  intro h
  have hon : ((pubsubPublish ["b"] "META_GRID" "GRID[<0,0>:<1,1>]%TS[1]"
      boxStore).state.wrapper? "a" "c").map (·.iftrigure) = some true := by decide +kernel
  have hoff : (boxStore.wrapper? "a" "c").map
      (fun w => (w.iftrigure, decide ("b" ∈ w.requiredeventMap))) = some (false, false) := by
    decide +kernel
  obtain ⟨w', hw', hw'on⟩ := Option.map_eq_some_iff.1 hon
  obtain ⟨w, hw, hwoff⟩ := Option.map_eq_some_iff.1 hoff
  obtain ⟨hwoff, hforeign⟩ := Prod.mk.inj hwoff
  exact of_decide_eq_false hforeign
    (h boxStore reachable_boxStore "b" "META_GRID" _ ("a", "c") w w' hw hwoff hw' hw'on)

end Topics

end TPST
