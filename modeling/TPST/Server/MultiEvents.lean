import TPST.Foundations.Fields
import TPST.Server.Counting

/-!
# Subscriptions to several events

A client subscribed to several events waits for each of them as often as it is required. The
publishes of its events may come in any order: as long as one of them is missing its counter is
not full (`Quota.fired_eq_zero_of_missing`), so nothing is pushed, and the last of them fills the
counter, whichever it is. `fires_at_the_last` says this for every list of distinct events and every
order, with other requests in between.
-/

namespace TPST

/-- The event of a request, if it is a publish of one event. -/
def eventOf : Request → List String
  | .publish [event] _ _ => [event]
  | _ => []

/-- The events of a run that are among `names`, in the order of their publishes. -/
def ownEvents (names : List String) (rs : List Request) : List String :=
  (rs.flatMap eventOf).filter (· ∈ names)

/-- The request is a publish of one of the events `names`. -/
def PublishesOneOf (names : List String) (r : Request) : Prop :=
  ∃ event matchType metadata, r = .publish [event] matchType metadata ∧ event ∈ names

section OwnEvents

variable {names : List String} {rs rs' : List Request}

theorem ownEvents_append :
    ownEvents names (rs ++ rs') = ownEvents names rs ++ ownEvents names rs' := by
  simp [ownEvents]

theorem ownEvents_cons (r : Request) :
    ownEvents names (r :: rs) = ownEvents names [r] ++ ownEvents names rs :=
  @ownEvents_append names [r] rs

theorem ownEvents_eq_nil (h : ∀ r ∈ rs, ¬ PublishesOneOf names r) : ownEvents names rs = [] := by
  rw [ownEvents, List.filter_eq_nil_iff]
  intro e he hmem
  obtain ⟨r, hr, he⟩ := List.mem_flatMap.1 he
  unfold eventOf at he
  split at he
  · obtain rfl := List.mem_singleton.1 he
    exact h _ hr ⟨_, _, _, rfl, of_decide_eq_true hmem⟩
  · simp at he

theorem length_publishOf (e : String) (r : Request) :
    (publishOf e r).length = (eventOf r).count e := by
  match r with
  | .publish [event] _ _ =>
    rw [publishOf, eventOf, List.count_singleton]
    by_cases hevent : event = e <;> simp [hevent]
  | .publish [] _ _ => rfl
  | .publish (_ :: _ :: _) _ _ => rfl
  | .subscribe .. => rfl

/-- The publishes of an event are counted by its name. -/
theorem length_publishesOf {e : String} (he : e ∈ names) :
    (publishesOf e rs).length = (ownEvents names rs).count e := by
  rw [ownEvents, List.count_filter (by simpa using he)]
  induction rs with
  | nil => rfl
  | cons r rs ih =>
    rw [publishesOf, List.flatMap_cons, ← publishesOf, List.flatMap_cons, List.length_append,
      List.count_append, ih, length_publishOf]

/-- The last publish of one of the events comes after the others. -/
theorem ownEvents_of_last {pre post : List Request} {event mt metadata : String}
    (hevent : event ∈ names) (hpost : ∀ r ∈ post, ¬ PublishesOneOf names r) :
    ownEvents names (pre ++ .publish [event] mt metadata :: post) =
      ownEvents names pre ++ [event] := by
  have hlast : ownEvents names [.publish [event] mt metadata] = [event] :=
    List.filter_eq_self.2 (by simpa [eventOf] using hevent)
  rw [ownEvents_append, ownEvents_cons, hlast, ownEvents_eq_nil hpost, List.append_nil]

end OwnEvents

/-- A notification leaves the counters of a client subscribed by name empty. -/
theorem publishedEvent_of_notified {w : PubsubWrapper} (hname : w.matchType = "NAME")
    {ninfo : NotifyInfo} (hpush : (checkNotify w).2 = some ninfo) :
    (checkNotify w).1.publishedEvent = ∅ := by
  unfold checkNotify at hpush ⊢
  split at hpush
  · cases hpush
  · rename_i hon
    rw [if_neg hon]
    exact congrArg _ (if_pos hname)

/-- A publish that fills the counter of a watched client leaves it empty. -/
theorem Watched.publishedEvent_serve {s : Store} {ix c addr : String}
    {need seen : Multiset String} (h : Watched s ix c addr need seen) {e : String}
    (hix : ix ∈ s.reached e) (hfull : Quota.Full need (e ::ₘ seen)) (md : String) {mt : String}
    (hname : requestMatchType mt = "NAME") :
    ∃ w, (serve s (.publish [e] mt md)).1.wrapper? ix c = some w ∧ w.publishedEvent = ∅ := by
  obtain ⟨w, hsole, hmatch, haddr, hoff, htracks⟩ := h.sole
  have hwrapper := (hsole.serve_publish hoff e md hname).1.wrapper
  rw [if_pos hix] at hwrapper
  have hpush := (checkNotify_visited htracks hmatch hoff md e).2
  rw [if_pos hfull] at hpush
  have hvisited : (visited "NAME" md e w).matchType = "NAME" :=
    (sameTerms_visited "NAME" md e w).2.2.2.1.trans hmatch
  exact ⟨_, hwrapper, publishedEvent_of_notified hvisited hpush⟩

/-- While one of its events is missing, a watched client hears nothing. -/
theorem Watched.quiet {s : Store} {ix c addr : String} {need : Multiset String}
    (h : Watched s ix c addr need 0) (hs : s.Closed) {rs : List Request}
    (hrs : ∀ r ∈ rs, r.Regular c ∧ r.Parseable) {e : String} (he : e ∈ need)
    (hmissing : (hits ix s rs).count e < need.count e) :
    Watched (serveAll s rs).1 ix c addr need (hits ix s rs) ∧ (serveAll s rs).1.Closed ∧
      notificationsOf c (serveAll s rs).2 = [] := by
  obtain ⟨hend, hlen⟩ := h.serve_all fun r hr => (hrs r hr).1
  obtain ⟨hfired, hrun⟩ := Quota.fired_eq_zero_of_missing he
    (show (0 : Multiset String).count e + (hits ix s rs).count e < need.count e by
      rwa [Multiset.count_zero, Nat.zero_add])
  rw [hrun, Multiset.zero_add] at hend
  rw [hfired, List.length_eq_zero_iff] at hlen
  exact ⟨hend, hs.serveAll fun r hr => (hrs r hr).2, hlen⟩

/-- **A subscription to several events fires with the last one missing, in any order.** When a
fresh client is subscribed by name to distinct events, each at least once, and then exactly as many
publishes of them come as are required, it is notified by the last of these publishes and by no
other request, and its counters are empty right after it. -/
theorem fires_at_the_last {s : Store} (hs : WellFormed s) {c : String} (hfresh : s.Fresh c)
    (hc : c ≠ "") {evs : List String} {req : String × Int} {reqs : List (String × Int)}
    (hparse : Parses evs (req :: reqs)) (hdistinct : ((req :: reqs).map Prod.fst).Nodup)
    (hpos : ∀ r ∈ req :: reqs, 1 ≤ r.2) (addr md : String) {start : Store}
    (hstart : start = (serve s (.subscribe evs c addr "NAME" md)).1) {rs : List Request}
    (hrs : ∀ r ∈ rs, r.Regular c ∧ r.Parseable)
    (hown : (ownEvents ((req :: reqs).map Prod.fst) rs : Multiset String) =
      needOf (req :: reqs)) :
    ∃ pre event matchType metadata post,
      rs = pre ++ .publish [event] matchType metadata :: post ∧
      event ∈ (req :: reqs).map Prod.fst ∧
      (∀ r ∈ post, ¬ PublishesOneOf ((req :: reqs).map Prod.fst) r) ∧
      ∃ mid last : Store, mid = (serveAll start pre).1 ∧
        last = (serve mid (.publish [event] matchType metadata)).1 ∧
        notificationsOf c (serveAll start pre).2 = [] ∧
        notificationsOf c (serve mid (.publish [event] matchType metadata)).2 =
          [⟨addr, metadata, c⟩] ∧
        (∃ w, last.wrapper? req.1 c = some w ∧ w.publishedEvent = ∅) ∧
        notificationsOf c (serveAll last post).2 = [] := by
  have hmem : ∀ {e}, e ∈ (req :: reqs).map Prod.fst ↔ e ∈ needOf (req :: reqs) :=
    (mem_needOf hpos).symm
  have hwatched : Watched start req.1 c addr (needOf (req :: reqs)) 0 :=
    hstart ▸ watched_subscribe hs.filed hfresh hc hparse hdistinct hpos addr md
  have hclosed : start.Closed := hstart ▸ hs.closed.serve hparse.parseable
  rcases Cut.exists_last (P := PublishesOneOf ((req :: reqs).map Prod.fst)) rs with
    hnone | ⟨pre, r, post, rfl, ⟨event, mt, metadata, rfl, hevent⟩, hpost⟩
  · -- the first event of the list is required, so there are publishes of it
    rw [ownEvents_eq_nil hnone] at hown
    have hfirst := hmem.1 (List.mem_map_of_mem (f := Prod.fst) (List.mem_cons_self (a := req)))
    rw [← hown] at hfirst
    exact absurd hfirst (Multiset.notMem_zero _)
  have hpre : ∀ r ∈ pre, r.Regular c ∧ r.Parseable := fun r hr => hrs r (by simp [hr])
  have hpost' : ∀ r ∈ post, r.Regular c ∧ r.Parseable := fun r hr => hrs r (by simp [hr])
  obtain ⟨hregular, hr⟩ := hrs (.publish [event] mt metadata) (by simp)
  have hname : requestMatchType mt = "NAME" := by
    cases hregular with
    | publish _ hname _ => exact hname
  have hneed := hmem.1 hevent
  -- the last publish makes up for what is missing before it
  rw [ownEvents_of_last hevent hpost] at hown
  have hseen : ∀ e ∈ needOf (req :: reqs),
      (needOf (req :: reqs)).count e = (hits req.1 start pre).count e + [event].count e := by
    intro e he
    rw [← hown, Multiset.coe_count, List.count_append, hwatched.count_hits hclosed he hpre,
      length_publishesOf (hmem.2 he)]
  have hmissing : (hits req.1 start pre).count event < (needOf (req :: reqs)).count event := by
    have hcount := hseen event hneed
    rw [List.count_singleton_self] at hcount
    omega
  obtain ⟨hmid, hmidClosed, hpushed⟩ := hwatched.quiet hclosed hpre hneed hmissing
  have hfull : Quota.Full (needOf (req :: reqs))
      (event ::ₘ (hits req.1 start pre : Multiset String)) := by
    intro e he
    rw [← Multiset.singleton_add, Multiset.count_add, Nat.add_comm, hseen e he,
      Multiset.coe_count]
    exact congrArg _ (Multiset.coe_count e [event])
  have hix : req.1 ∈ (serveAll start pre).1.reached event := by
    rw [hmidClosed.reached]
    exact hmid.indexed hneed
  obtain ⟨hend, hnotify⟩ := hmid.serve_publish event metadata hname
  rw [if_pos hix, Quota.step, if_pos hfull] at hend
  rw [if_pos ⟨hix, hfull⟩] at hnotify
  refine ⟨pre, event, mt, metadata, post, rfl, hevent, hpost, _, _, rfl, rfl, hpushed, hnotify,
    hmid.publishedEvent_serve hix hfull metadata hname, ?_⟩
  -- after it the client waits for its events again, and none of them comes
  have hendClosed := hmidClosed.serve hr
  have hafter : (hits req.1 (serve (serveAll start pre).1 (.publish [event] mt metadata)).1
      post).count event < (needOf (req :: reqs)).count event := by
    rw [hend.count_hits hendClosed hneed hpost', length_publishesOf hevent,
      ownEvents_eq_nil hpost, List.count_nil]
    exact Multiset.count_pos.2 hneed
  exact (hend.quiet hendClosed hpost' hneed hafter).2.2

/-- The publishes `b`, `x`, `a` and `a` of a client subscribed to two of `a` and one of `b`. -/
theorem fires_at_the_last_three :
    ∃ pre event matchType metadata post,
      [Request.publish ["b"] "" "m₁", .publish ["x"] "NAME" "m₂", .publish ["a"] "NAME" "m₃",
        .publish ["a"] "NAME" "m₄"] = pre ++ .publish [event] matchType metadata :: post ∧
      event ∈ ["a", "b"] ∧ (∀ r ∈ post, ¬ PublishesOneOf ["a", "b"] r) ∧
      ∃ mid last : Store,
        mid = (serveAll (serve .empty (.subscribe ["a:2", "b"] "c" "addr" "NAME" "")).1 pre).1 ∧
        last = (serve mid (.publish [event] matchType metadata)).1 ∧
        notificationsOf "c" (serveAll (serve .empty
          (.subscribe ["a:2", "b"] "c" "addr" "NAME" "")).1 pre).2 = [] ∧
        notificationsOf "c" (serve mid (.publish [event] matchType metadata)).2 =
          [⟨"addr", metadata, "c"⟩] ∧
        (∃ w, last.wrapper? "a" "c" = some w ∧ w.publishedEvent = ∅) ∧
        notificationsOf "c" (serveAll last post).2 = [] := by
  have hparse : Parses ["a:2", "b"] [("a", 2), ("b", 1)] :=
    .cons (by decide +kernel) (.cons (by decide +kernel) .nil)
  have hregular : ∀ r ∈ [Request.publish ["b"] "" "m₁", .publish ["x"] "NAME" "m₂",
      .publish ["a"] "NAME" "m₃", .publish ["a"] "NAME" "m₄"],
      Request.Regular "c" r ∧ r.Parseable := by
    intro r hr
    simp only [List.mem_cons, List.not_mem_nil, or_false] at hr
    rcases hr with rfl | rfl | rfl | rfl
    all_goals exact ⟨.publish _ rfl _, trivial⟩
  exact fires_at_the_last ReachableBy.empty (fun _ => Store.wrapper?_empty _ _) (by simp) hparse
    (by simp) (by simp) "addr" "" rfl hregular (by decide)

end TPST
