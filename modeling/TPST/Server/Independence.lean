import Mathlib.Logic.Function.Basic
import TPST.Foundations.Views
import TPST.Server.Counting

/-!
# What a client hears depends on its own events

A client subscribed by name shares its index event with others, so publishes of events it does not
require come to its wrapper too: they write a counter there and run its test. The test looks at
the counters of the required events only, and between two requests it fails (`Follows`): when it
succeeds, the client is notified and its counters are deleted before the next request. So the
client sees the server as a system of its own, which counts the publishes of its events and
nothing else (`clientView`), and what it hears in two runs with the same publishes of its events
is the same, whatever else happens in them (`notifications_eq`).
-/

namespace TPST

open Std

/-- Every required event was seen with the required number. -/
def meets (required : OMap String (OSet Int)) (seen : String → Option Int) : Bool :=
  required.toList.all fun r => r.2.toList.all fun num => seen r.1 = some num

/-- The counters of a client that sees a publish of one of its events, and what it hears. -/
def clientStep (required : OMap String (OSet Int)) (c addr : String) (seen : String → Option Int)
    (published : String × String) : (String → Option Int) × List NotifyInfo :=
  let counted := Function.update seen published.1 (some ((seen published.1).getD 0 + 1))
  if meets required counted then (fun _ => none, [⟨addr, published.2, c⟩]) else (counted, [])

/-- The event and the metadata of a request, if it is a publish of one required event. -/
def publishAmong (required : OMap String (OSet Int)) : Request → Option (String × String)
  | .publish [event] _ metadata => if event ∈ required then some (event, metadata) else none
  | _ => none

/-- The wrapper is subscribed by name and waits: it counted `seen` of its events, and that is not
what it requires. -/
structure Waits (required : OMap String (OSet Int)) (addr : String) (seen : String → Option Int)
    (w : PubsubWrapper) : Prop where
  matchType : w.matchType = "NAME"
  peerURL : w.peerURL = addr
  iftrigure : w.iftrigure = false
  requires : w.requiredeventMap = required
  counts : ∀ e ∈ required, w.publishedEvent[e]? = seen e
  unmet : meets required seen = false

/-- The client has one wrapper, and it waits. -/
structure Follows (required : OMap String (OSet Int)) (ix c addr : String) (s : Store)
    (seen : String → Option Int) : Prop where
  closed : s.Closed
  waits : ∃ w, Sole s ix c w ∧ Waits required addr seen w

section Wrapper

variable {required : OMap String (OSet Int)} {addr : String} {seen seen' : String → Option Int}
  {w : PubsubWrapper}

theorem meets_iff : meets required seen = true ↔
    ∀ e nums, required[e]? = some nums → ∀ n ∈ nums, seen e = some n := by
  simp only [meets, List.all_eq_true, Prod.forall, ExtTreeMap.mem_toList_iff_getElem?_eq_some,
    ExtTreeSet.mem_toList, decide_eq_true_eq]

theorem meets_congr (h : ∀ e ∈ required, seen e = seen' e) :
    meets required seen = meets required seen' := by
  apply Bool.eq_iff_iff.2
  rw [meets_iff, meets_iff]
  have hmem : ∀ e nums, required[e]? = some nums → seen e = seen' e := fun e nums hnums =>
    h e (ExtTreeMap.mem_iff_isSome_getElem?.2 (by simp [hnums]))
  constructor
  · intro hall e nums hnums n hn
    rw [← hmem e nums hnums]
    exact hall e nums hnums n hn
  · intro hall e nums hnums n hn
    rw [hmem e nums hnums]
    exact hall e nums hnums n hn

/-- The test of a wrapper looks at the counters of the events it requires. -/
theorem checkIfTriggure_eq_meets (hreq : w.requiredeventMap = required)
    (hcounts : ∀ e ∈ required, w.publishedEvent[e]? = seen e) :
    checkIfTriggure w = meets required seen := by
  rw [← meets_congr hcounts]
  apply Bool.eq_iff_iff.2
  rw [checkIfTriggure_iff, meets_iff, ← hreq]
  constructor
  · intro h e nums hnums n hn
    exact h e n ⟨nums, hnums, hn⟩
  · rintro h e n ⟨nums, hnums, hn⟩
    exact h e nums hnums n hn

/-- A publish of an event that is not required leaves a wrapper waiting. -/
theorem Waits.visited_foreign (h : Waits required addr seen w) {e : String} (he : e ∉ required)
    (md : String) :
    Waits required addr seen (checkNotify (visited "NAME" md e w)).1 ∧
      (checkNotify (visited "NAME" md e w)).2 = none := by
  have hcounts : ∀ r ∈ required, (countPublish e w).publishedEvent[r]? = seen r := by
    intro r hr
    have hne : e ≠ r := by
      rintro rfl
      exact he hr
    rw [getElem?_countPublish, if_neg hne, h.counts r hr]
  have htest : checkIfTriggure (countPublish e w) = false := by
    rw [checkIfTriggure_eq_meets (show (countPublish e w).requiredeventMap = required from
      h.requires) hcounts, h.unmet]
  have hvisit : visited "NAME" md e w = countPublish e w := by
    rw [visited_NAME, htest]
    rfl
  rw [hvisit, checkNotify_of_not_iftrigure (show (countPublish e w).iftrigure = false from
    h.iftrigure)]
  exact ⟨⟨h.matchType, h.peerURL, h.iftrigure, h.requires, hcounts, h.unmet⟩, rfl⟩

/-- What is required is not met by a client that has seen nothing, if anything is required. -/
theorem meets_none {e : String} {n : Int} (h : ∃ nums, required[e]? = some nums ∧ n ∈ nums) :
    meets required (fun _ => none) = false := by
  obtain ⟨nums, hnums, hn⟩ := h
  rw [← Bool.not_eq_true, meets_iff]
  intro hall
  cases hall e nums hnums n hn

/-- A publish of a required event moves the client's counters. -/
theorem Waits.visited_own (h : Waits required addr seen w)
    (hsome : meets required (fun _ => none) = false) {e : String} (he : e ∈ required)
    (md : String) :
    Waits required addr (clientStep required w.clientID addr seen (e, md)).1
        (checkNotify (visited "NAME" md e w)).1 ∧
      (checkNotify (visited "NAME" md e w)).2.toList =
        (clientStep required w.clientID addr seen (e, md)).2 := by
  have hcounts : ∀ r ∈ required, (countPublish e w).publishedEvent[r]? =
      Function.update seen e (some ((seen e).getD 0 + 1)) r := by
    intro r hr
    rw [getElem?_countPublish, Function.update_apply, published_eq_getD, h.counts e he]
    by_cases her : e = r
    · rw [if_pos her, if_pos her.symm]
    · rw [if_neg her, if_neg (Ne.symm her), h.counts r hr]
  have htest := checkIfTriggure_eq_meets (w := countPublish e w) h.requires hcounts
  simp only [visited_NAME, htest, clientStep]
  cases hmet : meets required (Function.update seen e (some ((seen e).getD 0 + 1))) with
  | true =>
    have hnotify : checkNotify (markTriggered md (countPublish e w)) =
        (deletePubEvent { markTriggered md (countPublish e w) with iftrigure := false },
          some ⟨addr, md, w.clientID⟩) := by
      simp [checkNotify, markTriggered, countPublish, h.matchType, h.peerURL]
    simp only [↓reduceIte, hnotify]
    refine ⟨⟨h.matchType, h.peerURL, rfl, h.requires, fun r _ => ?_, hsome⟩, rfl⟩
    simp [deletePubEvent]
  | false =>
    have hoff : (countPublish e w).iftrigure = false := h.iftrigure
    simp only [Bool.false_eq_true, ↓reduceIte, checkNotify_of_not_iftrigure hoff]
    exact ⟨⟨h.matchType, h.peerURL, hoff, h.requires, hcounts, hmet⟩, rfl⟩

end Wrapper

/-! ## The client's view of the server -/

theorem serveAll_eq_answers (s : Store) (rs : List Request) :
    serveAll s rs = answers serve s rs := by
  induction rs generalizing s with
  | nil => rfl
  | cons r rs ih => rw [serveAll, answers, ih]

section View

variable {ix c addr : String} {req : String × Int} {reqs : List (String × Int)}

/-- Nothing seen is not enough. -/
theorem meets_requiredOf_none : meets (requiredOf (req :: reqs)) (fun _ => none) = false :=
  meets_none (mem_requiredOf.2 (List.mem_cons_self (a := (req.1, req.2))))

/-- Every required event leads to the client's wrapper. -/
theorem Follows.reached {s : Store} {seen : String → Option Int}
    (h : Follows (requiredOf reqs) ix c addr s seen) {e : String} (he : e ∈ requiredOf reqs) :
    ix ∈ s.reached e := by
  obtain ⟨w, hsole, hwaits⟩ := h.waits
  obtain ⟨⟨e, n⟩, hreq, rfl⟩ := List.mem_map.1 (mem_keys_requiredOf.1 he)
  rw [h.closed.reached]
  apply hsole.filed.indexed hsole.wrapper (n := n)
  rw [PubsubWrapper.Requires, hwaits.requires]
  exact mem_requiredOf.2 hreq

/-- **The client sees the server as its own counters.** -/
theorem clientView :
    View serve (clientStep (requiredOf (req :: reqs)) c addr)
      (fun r => r.Regular c ∧ r.Parseable) (publishAmong (requiredOf (req :: reqs)))
      (fun ninfo => ninfo.clientid = c) (Follows (requiredOf (req :: reqs)) ix c addr) where
  hidden {s seen r} h hr hhidden := by
    obtain ⟨w, hsole, hwaits⟩ := h.waits
    obtain ⟨hregular, hparse⟩ := hr
    have hclosed := h.closed.serve hparse
    cases hregular with
    | subscribe evs hother addr' mt md =>
      exact ⟨⟨hclosed, w, hsole.serve_subscribe evs hother addr' mt md, hwaits⟩, rfl⟩
    | publish e hname md =>
      have he : e ∉ requiredOf (req :: reqs) := by
        intro he
        rw [publishAmong, if_pos he] at hhidden
        cases hhidden
      obtain ⟨hsole', hpushed⟩ := hsole.serve_publish hwaits.iftrigure e md hname
      obtain ⟨hwaits', hsilent⟩ := hwaits.visited_foreign he md
      refine ⟨⟨hclosed, _, hsole', ?_⟩, hpushed.trans ?_⟩
      · split
        · exact hwaits'
        · exact hwaits
      · rw [hsilent]
        exact ite_self []
  shown {s seen r k} h hr hshown := by
    obtain ⟨w, hsole, hwaits⟩ := h.waits
    obtain ⟨hregular, hparse⟩ := hr
    have hclosed := h.closed.serve hparse
    cases hregular with
    | subscribe evs hother addr' mt md => cases hshown
    | publish e hname md =>
      have he : e ∈ requiredOf (req :: reqs) := by
        by_contra he
        rw [publishAmong, if_neg he] at hshown
        cases hshown
      rw [publishAmong, if_pos he] at hshown
      obtain rfl := Option.some.inj hshown
      obtain ⟨hsole', hpushed⟩ := hsole.serve_publish hwaits.iftrigure e md hname
      obtain ⟨hwaits', hheard⟩ := hwaits.visited_own meets_requiredOf_none he md
      rw [hsole.filed.clientID hsole.wrapper] at hwaits' hheard
      rw [if_pos (h.reached he)] at hsole' hpushed
      exact ⟨⟨hclosed, _, hsole', hwaits'⟩, hpushed.trans hheard⟩

/-- A fresh client waits once it is subscribed. -/
theorem follows_subscribe {s : Store} (hs : WellFormed s) (hfresh : s.Fresh c) (hc : c ≠ "")
    {evs : List String} (hparse : Parses evs (req :: reqs)) (addr md : String) :
    Follows (requiredOf (req :: reqs)) req.1 c addr
      (serve s (.subscribe evs c addr "NAME" md)).1 (fun _ => none) where
  closed := hs.closed.serve hparse.parseable
  waits := ⟨_, sole_subscribe hs.filed hfresh hc hparse addr "NAME" md,
    ⟨rfl, rfl, rfl, rfl, fun _ _ => by simp [newWrapper], meets_requiredOf_none⟩⟩

/-- **A client's notifications depend only on the events it requires.** Two runs that contain the
same publishes of these events, with the same metadata and in the same order, notify a client
subscribed by name in the same way; they may start from different stores and differ in the
subscriptions of others and in all other publishes. -/
theorem notifications_eq {s₁ s₂ : Store} (h₁ : WellFormed s₁) (h₂ : WellFormed s₂)
    (hfresh₁ : s₁.Fresh c) (hfresh₂ : s₂.Fresh c) (hc : c ≠ "") {evs : List String}
    (hparse : Parses evs (req :: reqs)) (addr md₁ md₂ : String) {rs₁ rs₂ : List Request}
    (hrs₁ : ∀ r ∈ rs₁, r.Regular c ∧ r.Parseable) (hrs₂ : ∀ r ∈ rs₂, r.Regular c ∧ r.Parseable)
    (hsame : rs₁.filterMap (publishAmong (requiredOf (req :: reqs))) =
      rs₂.filterMap (publishAmong (requiredOf (req :: reqs)))) :
    notificationsOf c (serveAll (serve s₁ (.subscribe evs c addr "NAME" md₁)).1 rs₁).2 =
      notificationsOf c (serveAll (serve s₂ (.subscribe evs c addr "NAME" md₂)).1 rs₂).2 := by
  rw [serveAll_eq_answers, serveAll_eq_answers]
  exact clientView.outputs_congr (follows_subscribe h₁ hfresh₁ hc hparse addr md₁)
    (follows_subscribe h₂ hfresh₂ hc hparse addr md₂) hrs₁ hrs₂ hsame

/-- A publish of `b`, between two publishes of `a`, and a subscription that makes `b` lead to the
wrapper, make no difference. -/
theorem notifications_eq_foreign :
    notificationsOf "c" (serveAll
        (serve .empty (.subscribe ["a:2"] "c" "addr" "NAME" "")).1
        [.publish ["a"] "" "m", .publish ["a"] "" "m'"]).2 =
      notificationsOf "c" (serveAll
        (serve .empty (.subscribe ["a:2"] "c" "addr" "NAME" "")).1
        [.subscribe ["a", "b"] "d" "addr'" "NAME" "", .publish ["a"] "" "m",
          .publish ["b"] "" "x", .publish ["a"] "" "m'"]).2 := by
  have ha : Parses ["a:2"] [("a", 2)] := .cons (by decide +kernel) .nil
  have hab : Parses ["a", "b"] [("a", 1), ("b", 1)] :=
    .cons (by decide +kernel) (.cons (by decide +kernel) .nil)
  have hpublish : ∀ e md, Request.Regular "c" (.publish [e] "" md) ∧
      (Request.publish [e] "" md).Parseable := fun e md => ⟨.publish e rfl md, trivial⟩
  have hfresh : Store.empty.Fresh "c" := fun ix => Store.wrapper?_empty ix "c"
  apply notifications_eq ReachableBy.empty ReachableBy.empty hfresh hfresh (by decide) ha
  · simp only [List.mem_cons, List.not_mem_nil, or_false, forall_eq_or_imp, forall_eq]
    exact ⟨hpublish _ _, hpublish _ _⟩
  · simp only [List.mem_cons, List.not_mem_nil, or_false, forall_eq_or_imp, forall_eq]
    exact ⟨⟨.subscribe _ (by decide) _ _ _, hab.parseable⟩, hpublish _ _, hpublish _ _,
      hpublish _ _⟩
  · decide +kernel

end View

end TPST
