import TPST.Foundations.Quota
import TPST.Server.Reach

/-!
# Counted subscriptions

A subscription by name is a quota counter (`TPST.Quota`). `Watched s ix c addr need seen` says
that the only wrapper of the client `c` is filed under `ix`, waits untriggered for `need`, and has
counted `seen`. One request moves it as one event moves the counter, or not at all, and notifies
the client exactly when the counter fires (`Watched.serve_publish`, `Watched.serve_subscribe`); so
a run of requests notifies the client as often as the counter fires (`Watched.serve_all`).

For a subscription to a single event, `n` times, this gives one notification for every `n`
publishes of the event: `notified_every_nth`.
-/

namespace TPST

open Std

/-- The events of a parsed list, each as often as it is required. -/
def needOf (reqs : List (String × Int)) : Multiset String :=
  (reqs.map fun req => Multiset.replicate req.2.toNat req.1).sum

/-- The wrapper requires `need` and has counted `seen`. -/
structure Tracks (need seen : Multiset String) (w : PubsubWrapper) : Prop where
  requires_iff : ∀ e n, w.Requires e n ↔ e ∈ need ∧ n = need.count e
  published_eq : ∀ e, w.published e = seen.count e

/-- The only wrapper of the client `c` is filed under `ix`. It is subscribed by name, it is not
triggered, and it tracks `seen` against `need`. -/
structure Watched (s : Store) (ix c addr : String) (need seen : Multiset String) : Prop where
  filed : s.Filed
  only : ∀ {ix' w}, s.wrapper? ix' c = some w → ix' = ix
  wrapper : ∃ w, s.wrapper? ix c = some w ∧ w.matchType = "NAME" ∧ w.peerURL = addr ∧
    w.iftrigure = false ∧ Tracks need seen w

/-- The only wrapper of the client `c` is `w`, filed under `ix`. -/
structure Sole (s : Store) (ix c : String) (w : PubsubWrapper) : Prop where
  filed : s.Filed
  only : ∀ {ix' w'}, s.wrapper? ix' c = some w' → ix' = ix
  wrapper : s.wrapper? ix c = some w

/-- The notifications for the client `c`. -/
def notificationsOf (c : String) (pushed : List NotifyInfo) : List NotifyInfo :=
  pushed.filter fun ninfo => ninfo.clientid = c

/-- The requests of a run that watches the client `c`: publishes of one event by name, and
subscriptions of other clients. -/
inductive Request.Regular (c : String) : Request → Prop
  | publish (event : String) {matchType : String} (hname : requestMatchType matchType = "NAME")
      (metadata : String) : Regular c (.publish [event] matchType metadata)
  | subscribe (eventList : List String) {clientId : String} (hother : clientId ≠ c)
      (notifyAddr matchType metadata : String) :
      Regular c (.subscribe eventList clientId notifyAddr matchType metadata)

/-- The event of a request, if it is a publish of one event that reaches the index event `ix`. -/
def hit (ix : String) (s : Store) : Request → List String
  | .publish [event] _ _ => if ix ∈ s.reached event then [event] else []
  | _ => []

/-- The events of a run that reach the index event `ix`. -/
def hits (ix : String) : Store → List Request → List String
  | _, [] => []
  | s, r :: rs => hit ix s r ++ hits ix (serve s r).1 rs

/-! ## The counter in a wrapper -/

section Tracks

variable {need seen : Multiset String} {w : PubsubWrapper}

theorem getElem?_publishedEvent_iff {e : String} {n : Int} (hn : n ≠ 0) :
    w.publishedEvent[e]? = some n ↔ w.published e = n := by
  rw [published_eq_getD]
  cases w.publishedEvent[e]? with
  | none => simp [hn.symm]
  | some m => simp

theorem Tracks.countPublish (h : Tracks need seen w) (e : String) :
    Tracks need (e ::ₘ seen) (countPublish e w) := by
  refine ⟨h.requires_iff, fun r => ?_⟩
  rw [published_countPublish, h.published_eq, Multiset.count_cons]
  by_cases her : e = r
  · simp [her]
  · simp [her, Ne.symm her]

/-- The test of a wrapper that counts is the test of its counter. -/
theorem Tracks.checkIfTriggure (h : Tracks need seen w) :
    checkIfTriggure w = true ↔ Quota.Full need seen := by
  rw [checkIfTriggure_iff]
  have hentry : ∀ e ∈ need, w.publishedEvent[e]? = some (need.count e : Int) ↔
      seen.count e = need.count e := by
    intro e he
    have hpos := Multiset.count_pos.2 he
    rw [getElem?_publishedEvent_iff (by omega), h.published_eq]
    omega
  constructor
  · intro hall e he
    exact (hentry e he).1 (hall e _ ((h.requires_iff e _).2 ⟨he, rfl⟩))
  · intro hfull e n hreq
    obtain ⟨he, rfl⟩ := (h.requires_iff e n).1 hreq
    exact (hentry e he).2 (hfull e he)

/-- A wrapper whose counters are deleted has counted nothing. -/
theorem Tracks.deletePubEvent (h : Tracks need seen w) : Tracks need 0 (deletePubEvent w) := by
  refine ⟨h.requires_iff, fun e => ?_⟩
  simp [published_eq_getD, TPST.deletePubEvent]

theorem tracks_congr {w' : PubsubWrapper} (hreq : w'.requiredeventMap = w.requiredeventMap)
    (hpub : w'.publishedEvent = w.publishedEvent) (h : Tracks need seen w) :
    Tracks need seen w' := by
  refine ⟨fun e n => ?_, fun e => ?_⟩
  · rw [PubsubWrapper.Requires, hreq]
    exact h.requires_iff e n
  · rw [PubsubWrapper.published, hpub]
    exact h.published_eq e

/-- **A visit and the task after it**: the wrapper counts on, or it notifies and starts afresh. -/
theorem checkNotify_visited (h : Tracks need seen w) (hname : w.matchType = "NAME")
    (hoff : w.iftrigure = false) (md e : String) :
    Tracks need (Quota.step need seen e) (checkNotify (visited "NAME" md e w)).1 ∧
      (checkNotify (visited "NAME" md e w)).2 =
        if Quota.Full need (e ::ₘ seen) then some ⟨w.peerURL, md, w.clientID⟩ else none := by
  have hcount := h.countPublish e
  rw [visited_NAME, Quota.step]
  by_cases hfull : Quota.Full need (e ::ₘ seen)
  · have hmet := hcount.checkIfTriggure.2 hfull
    rw [if_pos hmet, if_pos hfull, if_pos hfull]
    refine ⟨?_, rfl⟩
    have hdel := hcount.deletePubEvent
    refine tracks_congr ?_ ?_ hdel
    all_goals simp [checkNotify, markTriggered, TPST.deletePubEvent, countPublish, hname]
  · have hmiss : ¬ TPST.checkIfTriggure (countPublish e w) = true := fun hmet =>
      hfull (hcount.checkIfTriggure.1 hmet)
    rw [if_neg hmiss, if_neg hfull, if_neg hfull,
      checkNotify_of_not_iftrigure (show (countPublish e w).iftrigure = false from hoff)]
    exact ⟨hcount, rfl⟩

end Tracks

/-! ## One request -/

/-- Whatever the tasks push for a client comes from a wrapper of that client. -/
theorem clientID_of_mem_runTasks {s : Store} {ps : List Place} {push : Place × NotifyInfo}
    (h : push ∈ (runTasks ps s).2) :
    ∃ w, s.wrapper? push.1.1 push.1.2 = some w ∧ push.2.clientid = w.clientID := by
  have hmem : push ∈ (runTasks ps s).2.filter fun q => q.1 = push.1 :=
    List.mem_filter.2 ⟨h, by simp⟩
  rw [filter_runTasks] at hmem
  split at hmem
  · obtain ⟨ninfo, hninfo, heq⟩ := List.mem_map.1 hmem
    rw [Option.mem_toList, Option.bind_eq_some_iff] at hninfo
    obtain ⟨w, hw, hpush⟩ := hninfo
    refine ⟨w, hw, ?_⟩
    rw [← heq]
    unfold checkNotify at hpush
    split at hpush
    · cases hpush
    · rw [← Option.some.inj hpush]
  · simp at hmem

section Sole

variable {s : Store} {ix c : String} {w : PubsubWrapper}

/-- The notifications of a client with one wrapper are those of its place. -/
theorem Sole.notificationsOf_runTasks (h : Sole s ix c w) {s₁ : Store}
    (hkeeps : s.Keeps s₁) (ps : List Place) :
    notificationsOf c ((runTasks ps s₁).2.map Prod.snd) =
      ((runTasks ps s₁).2.filter fun push => push.1 = (ix, c)).map Prod.snd := by
  rw [notificationsOf, List.filter_map]
  congr 1
  apply List.filter_congr
  intro push hpush
  obtain ⟨w₁, hw₁, hid⟩ := clientID_of_mem_runTasks hpush
  obtain ⟨w, hw, hterms⟩ := hkeeps.wrapper hw₁
  have hclient : push.2.clientid = push.1.2 := by
    rw [hid, hterms.2.1, h.filed.clientID hw]
  rw [Function.comp_apply, hclient, decide_eq_decide]
  constructor
  · rintro rfl
    exact Prod.ext (h.only hw) rfl
  · intro heq
    rw [heq]

theorem Store.Keeps.trans {s₁ s₂ s₃ : Store} (h : s₁.Keeps s₂) (h' : s₂.Keeps s₃) :
    s₁.Keeps s₃ := by
  refine ⟨fun hw => ?_, fun e => (h'.indexEvents_eq e).trans (h.indexEvents_eq e),
    fun hix => h'.rows (h.rows hix)⟩
  obtain ⟨w₂, hw₂, hterms₂⟩ := h'.wrapper hw
  obtain ⟨w₁, hw₁, hterms₁⟩ := h.wrapper hw₂
  exact ⟨w₁, hw₁, hterms₁.trans hterms₂⟩

theorem keeps_publish (L : List String) (mt md : String) (s : Store) :
    s.Keeps (publish L mt md s).1 := by
  have hwalk := keeps_pubsubPublish L (requestMatchType mt) md s
  refine ⟨fun {ix c w} hw => ?_, fun e => ?_, fun {ix} hix => ?_⟩
  · rw [wrapper?_publish] at hw
    exact hwalk.wrapper hw
  · cases hf : (pubsubPublish L (requestMatchType mt) md s).isFault with
    | false =>
      rw [publish_of_not_isFault hf, indexEvents_startNotifies]
      exact hwalk.indexEvents_eq e
    | true =>
      rw [publish_of_isFault hf]
      exact hwalk.indexEvents_eq e
  · cases hf : (pubsubPublish L (requestMatchType mt) md s).isFault with
    | false =>
      rw [publish_of_not_isFault hf]
      exact mem_startNotifies.2 (.inr (hwalk.rows hix))
    | true =>
      rw [publish_of_isFault hf]
      exact hwalk.rows hix

theorem keeps_runTasks (ps : List Place) (s : Store) : s.Keeps (runTasks ps s).1 := by
  induction ps generalizing s with
  | nil => exact ⟨fun {_ _ w} hw => ⟨w, hw, .refl w⟩, fun _ => rfl, id⟩
  | cons p ps ih => exact (keeps_runTask p s).trans (ih _)

theorem keeps_serve_publish (L : List String) (mt md : String) (s : Store) :
    s.Keeps (serve s (.publish L mt md)).1 :=
  (keeps_publish L mt md s).trans (keeps_runTasks _ _)

/-- **A publish of one event** visits an untriggered wrapper if it reaches its index event, and
then its task runs. -/
theorem Sole.serve_publish (h : Sole s ix c w) (hoff : w.iftrigure = false) (e md : String)
    {mt : String} (hname : requestMatchType mt = "NAME") :
    Sole (serve s (.publish [e] mt md)).1 ix c
        (if ix ∈ s.reached e then (checkNotify (visited "NAME" md e w)).1 else w) ∧
      notificationsOf c (serve s (.publish [e] mt md)).2 =
        if ix ∈ s.reached e then (checkNotify (visited "NAME" md e w)).2.toList else [] := by
  have hkeeps := keeps_serve_publish [e] mt md s
  -- the wrapper as the walk leaves it
  have hwalk : (publish [e] mt md s).1.wrapper? ix c =
      some (if ix ∈ s.reached e then visited "NAME" md e w else w) := by
    rw [wrapper?_publish, hname, wrapper?_pubsubPublish_NAME, h.wrapper, eventsAt_singleton]
    split <;> rfl
  have htask : ix ∈ s.reached e → (ix, c) ∈ (publish [e] mt md s).2 := by
    intro hix
    refine mem_tasks_publish.2 ⟨?_, ?_, w, h.wrapper⟩
    · rw [hname, isFault_pubsubPublish_NAME]
    · exact (List.takeWhile_sublist _).subset hix
  refine ⟨⟨h.filed.keeps hkeeps, fun {ix' w'} hw' => ?_, ?_⟩, ?_⟩
  · obtain ⟨w₀, hw₀, -⟩ := hkeeps.wrapper hw'
    exact h.only hw₀
  · rw [serve]
    refine (wrapper?_runTasks _ (ix, c) _).trans ?_
    rw [hwalk, Option.map_some]
    by_cases hix : ix ∈ s.reached e
    · simp [hix, htask hix]
    · simp [hix, checkNotify_of_not_iftrigure hoff]
  · rw [serve, h.notificationsOf_runTasks (keeps_publish [e] mt md s), filter_runTasks, hwalk]
    by_cases hix : ix ∈ s.reached e
    · simp [hix, htask hix, Function.comp_def]
    · simp [hix, checkNotify_of_not_iftrigure hoff]

/-- **A subscription of another client** leaves the wrapper alone. -/
theorem Sole.serve_subscribe (h : Sole s ix c w) (evs : List String) {c' : String}
    (hother : c' ≠ c) (addr' mt md : String) :
    Sole (serve s (.subscribe evs c' addr' mt md)).1 ix c w := by
  rw [serve, subscribe]
  by_cases hempty : c' = ""
  · rw [if_pos hempty]
    exact h
  rw [if_neg hempty]
  have hsame : ∀ ix', (addNewClient c' addr' evs mt md s).state.wrapper? ix' c =
      s.wrapper? ix' c := by
    intro ix'
    rcases addNewClient_cases c' addr' mt md evs s with ⟨req, reqs, hparse⟩ | ⟨hstore, -⟩
    · rw [addNewClient_ok c' addr' mt md hparse]
      exact (wrapper?_subscribed ix' c).trans (if_neg fun heq => hother heq.2)
    · rw [Store.wrapper?, hstore]
      rfl
  refine ⟨h.filed.addNewClient c' addr' mt md evs, fun {ix' w'} hw' => ?_, ?_⟩
  · rw [pubsubSubscribe, hsame] at hw'
    exact h.only hw'
  · rw [pubsubSubscribe, hsame, h.wrapper]

/-- A fresh client has one wrapper once it is subscribed. -/
theorem sole_subscribe (hs : s.Filed) (hfresh : s.Fresh c) (hc : c ≠ "") {evs : List String}
    {req : String × Int} {reqs : List (String × Int)} (hparse : Parses evs (req :: reqs))
    (addr mt md : String) :
    Sole (serve s (.subscribe evs c addr mt md)).1 req.1 c
      (newWrapper c addr mt md (requiredOf (req :: reqs))) := by
  rw [serve, subscribe, if_neg hc, pubsubSubscribe_ok hparse, Flow.state_next]
  refine ⟨hs.subscribed c addr mt md req reqs, fun {ix' w'} hw' => ?_, ?_⟩
  · rw [wrapper?_subscribed] at hw'
    split at hw'
    · rename_i hplace
      exact hplace.1.symm
    · rw [hfresh ix'] at hw'
      cases hw'
  · rw [wrapper?_subscribed, if_pos ⟨rfl, rfl⟩]

end Sole

section Watched

variable {s : Store} {ix c addr : String} {need seen : Multiset String}

theorem Watched.sole (h : Watched s ix c addr need seen) :
    ∃ w, Sole s ix c w ∧ w.matchType = "NAME" ∧ w.peerURL = addr ∧ w.iftrigure = false ∧
      Tracks need seen w := by
  obtain ⟨w, hw, hrest⟩ := h.wrapper
  exact ⟨w, ⟨h.filed, h.only, hw⟩, hrest⟩

/-- **A publish of one event moves the counter** if it reaches the wrapper's index event, and
notifies the client exactly when the counter fires. -/
theorem Watched.serve_publish (h : Watched s ix c addr need seen) (e md : String) {mt : String}
    (hname : requestMatchType mt = "NAME") :
    Watched (serve s (.publish [e] mt md)).1 ix c addr need
        (if ix ∈ s.reached e then Quota.step need seen e else seen) ∧
      notificationsOf c (serve s (.publish [e] mt md)).2 =
        if ix ∈ s.reached e ∧ Quota.Full need (e ::ₘ seen) then [⟨addr, md, c⟩] else [] := by
  obtain ⟨w, hsole, hmatch, haddr, hoff, htracks⟩ := h.sole
  have hid := h.filed.clientID hsole.wrapper
  obtain ⟨⟨hfiled, honly, hwrapper⟩, hpushed⟩ := hsole.serve_publish hoff e md hname
  obtain ⟨hcount, hnotify⟩ := checkNotify_visited htracks hmatch hoff md e
  have hterms : w.SameTerms (checkNotify (visited "NAME" md e w)).1 :=
    (sameTerms_visited "NAME" md e w).trans (sameTerms_checkNotify _)
  refine ⟨⟨hfiled, honly, _, hwrapper, ?_⟩, ?_⟩
  · by_cases hix : ix ∈ s.reached e
    · rw [if_pos hix, if_pos hix]
      exact ⟨hterms.2.2.2.1.trans hmatch, hterms.1.trans haddr, checkNotify_iftrigure _, hcount⟩
    · rw [if_neg hix, if_neg hix]
      exact ⟨hmatch, haddr, hoff, htracks⟩
  · rw [hpushed, hnotify, haddr, hid]
    by_cases hix : ix ∈ s.reached e
    · by_cases hfull : Quota.Full need (e ::ₘ seen) <;> simp [hix, hfull]
    · simp [hix]

/-- **A subscription of another client leaves the counter alone.** -/
theorem Watched.serve_subscribe (h : Watched s ix c addr need seen) (evs : List String)
    {c' : String} (hother : c' ≠ c) (addr' mt md : String) :
    Watched (serve s (.subscribe evs c' addr' mt md)).1 ix c addr need seen := by
  obtain ⟨w, hsole, hrest⟩ := h.sole
  obtain ⟨hfiled, honly, hwrapper⟩ := hsole.serve_subscribe evs hother addr' mt md
  exact ⟨hfiled, honly, w, hwrapper, hrest⟩

end Watched

/-! ## A run of requests -/

theorem notificationsOf_append (c : String) (ns ns' : List NotifyInfo) :
    notificationsOf c (ns ++ ns') = notificationsOf c ns ++ notificationsOf c ns' :=
  List.filter_append ns ns'

/-- **A run notifies the client as often as its counter fires** on the events that reach it. -/
theorem Watched.serve_all {s : Store} {ix c addr : String} {need seen : Multiset String}
    (h : Watched s ix c addr need seen) {rs : List Request} (hrs : ∀ r ∈ rs, r.Regular c) :
    Watched (serveAll s rs).1 ix c addr need (Quota.run need seen (hits ix s rs)) ∧
      (notificationsOf c (serveAll s rs).2).length = Quota.fired need seen (hits ix s rs) := by
  induction rs generalizing s seen with
  | nil => exact ⟨h, rfl⟩
  | cons r rs ih =>
    have hrest : ∀ r ∈ rs, r.Regular c := fun r' hr' => hrs r' (by simp [hr'])
    rw [serveAll, notificationsOf_append, List.length_append, hits]
    cases hrs r (by simp) with
    | publish e hname md =>
      obtain ⟨hwatched, hnotify⟩ := h.serve_publish e md hname
      obtain ⟨hend, hlen⟩ := ih hwatched hrest
      rw [hnotify, hlen, hit]
      by_cases hix : ix ∈ s.reached e
      · rw [if_pos hix] at hend
        rw [if_pos hix, if_pos hix, List.singleton_append, Quota.fired]
        refine ⟨hend, ?_⟩
        by_cases hfull : Quota.Full need (e ::ₘ seen) <;> simp [hix, hfull]
      · rw [if_neg hix] at hend
        rw [if_neg hix, if_neg hix, if_neg fun hand => hix hand.1, List.nil_append,
          List.length_nil, Nat.zero_add]
        exact ⟨hend, rfl⟩
    | subscribe evs hother addr' mt md =>
      obtain ⟨hend, hlen⟩ := ih (h.serve_subscribe evs hother addr' mt md) hrest
      exact ⟨hend, by rw [hlen]; simp [serve, notificationsOf, hit]⟩

/-- An event a watched client waits for leads to its index event. -/
theorem Watched.indexed {s : Store} {ix c addr : String} {need seen : Multiset String}
    (h : Watched s ix c addr need seen) {e : String} (he : e ∈ need) :
    ix ∈ s.indexEvents e := by
  obtain ⟨w, hw, -, -, -, htracks⟩ := h.wrapper
  exact h.filed.indexed hw ((htracks.requires_iff e _).2 ⟨he, rfl⟩)

/-! ## A new subscription -/

section NewSubscription

variable {reqs : List (String × Int)}

theorem mem_needOf (hpos : ∀ req ∈ reqs, 1 ≤ req.2) {e : String} :
    e ∈ needOf reqs ↔ e ∈ reqs.map Prod.fst := by
  induction reqs with
  | nil => simp [needOf]
  | cons req reqs ih =>
    have hhead := hpos req (by simp)
    rw [needOf, List.map_cons, List.sum_cons, ← needOf, Multiset.mem_add,
      ih fun req' hreq' => hpos req' (by simp [hreq']), Multiset.mem_replicate, List.map_cons,
      List.mem_cons]
    refine or_congr_left (and_iff_right ?_)
    omega

theorem count_needOf (hdistinct : (reqs.map Prod.fst).Nodup) {e : String} {n : Int}
    (h : (e, n) ∈ reqs) : (needOf reqs).count e = n.toNat := by
  have hzero : ∀ {rs : List (String × Int)}, e ∉ rs.map Prod.fst → (needOf rs).count e = 0 := by
    intro rs hrs
    induction rs with
    | nil => simp [needOf]
    | cons req rs ih =>
      rw [List.map_cons, List.mem_cons, not_or] at hrs
      rw [needOf, List.map_cons, List.sum_cons, ← needOf, Multiset.count_add, ih hrs.2,
        Multiset.count_replicate, if_neg (Ne.symm hrs.1)]
  induction reqs with
  | nil => simp at h
  | cons req reqs ih =>
    rw [List.map_cons, List.nodup_cons] at hdistinct
    rw [needOf, List.map_cons, List.sum_cons, ← needOf, Multiset.count_add,
      Multiset.count_replicate]
    rcases List.mem_cons.1 h with rfl | htail
    · rw [if_pos rfl, hzero hdistinct.1, Nat.add_zero]
    · have hne : req.1 ≠ e := fun heq =>
        hdistinct.1 (heq ▸ List.mem_map_of_mem (f := Prod.fst) htail)
      rw [if_neg hne, ih hdistinct.2 htail, Nat.zero_add]

/-- A new wrapper waits for the events of its list. -/
theorem tracks_newWrapper (c addr mt md : String) (hdistinct : (reqs.map Prod.fst).Nodup)
    (hpos : ∀ req ∈ reqs, 1 ≤ req.2) :
    Tracks (needOf reqs) 0 (newWrapper c addr mt md (requiredOf reqs)) := by
  refine ⟨fun e n => ?_, fun e => by simp [PubsubWrapper.published, newWrapper]⟩
  rw [requires_newWrapper, mem_needOf hpos]
  constructor
  · intro h
    have hn := hpos _ h
    refine ⟨List.mem_map_of_mem h, ?_⟩
    rw [count_needOf hdistinct h]
    omega
  · rintro ⟨he, rfl⟩
    obtain ⟨⟨e, n⟩, hreq, rfl⟩ := List.mem_map.1 he
    have hn := hpos _ hreq
    rw [count_needOf hdistinct hreq, Int.toNat_of_nonneg (by omega)]
    exact hreq

/-- **A fresh client is watched from its subscription on.** -/
theorem watched_subscribe {s : Store} (hs : s.Filed) {c : String} (hfresh : s.Fresh c)
    (hc : c ≠ "") {evs : List String} {req : String × Int} (hparse : Parses evs (req :: reqs))
    (hdistinct : ((req :: reqs).map Prod.fst).Nodup) (hpos : ∀ r ∈ req :: reqs, 1 ≤ r.2)
    (addr md : String) :
    Watched (serve s (.subscribe evs c addr "NAME" md)).1 req.1 c addr
      (needOf (req :: reqs)) 0 := by
  obtain ⟨hfiled, honly, hwrapper⟩ := sole_subscribe hs hfresh hc hparse addr "NAME" md
  exact ⟨hfiled, honly, _, hwrapper, rfl, rfl, rfl,
    tracks_newWrapper c addr "NAME" md hdistinct hpos⟩

end NewSubscription

/-! ## One event, `n` times -/

/-- The subscriptions of a run have lists that parse. -/
def Request.Parseable : Request → Prop
  | .subscribe eventList _ _ _ _ => TPST.Parseable eventList
  | .publish _ _ _ => True

/-- The metadata of a request, if it is a publish of the one event `e`. -/
def publishOf (e : String) : Request → List String
  | .publish [event] _ metadata => if event = e then [metadata] else []
  | _ => []

/-- The metadata of the publishes of `e` in a run. -/
def publishesOf (e : String) (rs : List Request) : List String := rs.flatMap (publishOf e)

theorem Store.Closed.serve {s : Store} (h : s.Closed) {r : Request} (hr : r.Parseable) :
    (serve s r).1.Closed := by
  cases r with
  | publish L mt md => exact h.keeps (keeps_serve_publish L mt md s)
  | subscribe evs c addr mt md =>
    rw [TPST.serve, TPST.subscribe]
    split
    · exact h
    · obtain ⟨req, reqs, hparse⟩ := TPST.Parseable.parses hr
      rw [pubsubSubscribe_ok hparse]
      exact h.subscribed c addr mt md req reqs

theorem Store.Closed.serveAll {s : Store} (h : s.Closed) {rs : List Request}
    (hrs : ∀ r ∈ rs, r.Parseable) : (serveAll s rs).1.Closed := by
  induction rs generalizing s with
  | nil => exact h
  | cons r rs ih =>
    exact ih (h.serve (hrs r (by simp))) fun r' hr' => hrs r' (by simp [hr'])

/-- Each publish of an event a client waits for comes to it. -/
theorem Watched.count_hits {s : Store} {ix c addr : String} {need seen : Multiset String}
    (h : Watched s ix c addr need seen) (hs : s.Closed) {e : String} (he : e ∈ need)
    {rs : List Request} (hrs : ∀ r ∈ rs, r.Regular c ∧ r.Parseable) :
    (hits ix s rs).count e = (publishesOf e rs).length := by
  induction rs generalizing s seen with
  | nil => rfl
  | cons r rs ih =>
    obtain ⟨hregular, hparse⟩ := hrs r (by simp)
    have hrest : ∀ r ∈ rs, r.Regular c ∧ r.Parseable := fun r' hr' => hrs r' (by simp [hr'])
    rw [hits, List.count_append, publishesOf, List.flatMap_cons, List.length_append,
      ← publishesOf]
    cases hregular with
    | publish x hname md =>
      rw [ih (h.serve_publish x md hname).1 (hs.serve hparse) hrest, hit, publishOf, hs.reached]
      congr 1
      by_cases hx : x = e
      · rw [if_pos (hx ▸ h.indexed he), if_pos hx, hx, List.count_singleton_self]
        rfl
      · rw [if_neg hx]
        split
        · exact List.count_singleton.trans (if_neg (by simpa using hx))
        · rfl
    | subscribe evs hother addr' mt md =>
      rw [ih (h.serve_subscribe evs hother addr' mt md) (hs.serve hparse) hrest]
      simp [hit, publishOf]

/-- **One notification for every `n` publishes.** A client subscribed to one event, `n` times, is
notified in the publish that completes `n` of them since the last notification, with the metadata
of that publish, and in no other; publishes of other events and subscriptions of other clients
make no difference. -/
theorem notified_every_nth {s : Store} (hs : WellFormed s) {c : String} (hfresh : s.Fresh c)
    (hc : c ≠ "") {ev e : String} {n : ℕ} (hev : parseEvent ev = .ok (e, (n : Int)))
    (hn : 1 ≤ n) (addr md : String) {start : Store}
    (hstart : start = (serve s (.subscribe [ev] c addr "NAME" md)).1) {rs : List Request}
    (hrs : ∀ r ∈ rs, r.Regular c ∧ r.Parseable) :
    (notificationsOf c (serveAll start rs).2).length = (publishesOf e rs).length / n ∧
    ∀ pre r post, rs = pre ++ r :: post →
      notificationsOf c (serve (serveAll start pre).1 r).2 =
        if n ∣ (publishesOf e pre).length + 1 then
          (publishOf e r).map fun metadata => ⟨addr, metadata, c⟩
        else [] := by
  have hn0 : n ≠ 0 := by omega
  have hparse : Parses [ev] [(e, (n : Int))] := .cons hev .nil
  have hneed : needOf [(e, (n : Int))] = Multiset.replicate n e := by simp [needOf]
  have hwatched : Watched start e c addr (Multiset.replicate n e) 0 := by
    rw [hstart, ← hneed]
    refine watched_subscribe hs.filed hfresh hc hparse (by simp) (fun r hr => ?_) addr md
    rw [List.mem_singleton.1 hr]
    exact Int.ofNat_le.2 hn
  have hclosed : start.Closed := by
    rw [hstart]
    exact hs.closed.serve hparse.parseable
  have hmem : e ∈ Multiset.replicate n e := Multiset.mem_replicate.2 ⟨hn0, rfl⟩
  constructor
  · rw [(hwatched.serve_all fun r hr => (hrs r hr).1).2, Quota.fired_replicate hn0,
      hwatched.count_hits hclosed hmem hrs]
  intro pre r post hsplit
  have hpre : ∀ r ∈ pre, r.Regular c ∧ r.Parseable := fun r' hr' => hrs r' (by simp [hsplit, hr'])
  obtain ⟨hregular, hr⟩ := hrs r (by simp [hsplit])
  have hmid := (hwatched.serve_all fun r' hr' => (hpre r' hr').1).1
  have hmidclosed := hclosed.serveAll fun r' hr' => (hpre r' hr').2
  cases hregular with
  | publish x hname md' =>
    rw [(hmid.serve_publish x md' hname).2]
    simp only [Quota.full_run_replicate hn0, hwatched.count_hits hclosed hmem hpre,
      hmidclosed.reached, publishOf]
    by_cases hx : x = e
    · subst hx
      simp [hmid.indexed hmem]
    · simp [hx]
  | subscribe evs hother addr' mt md' => simp [serve, notificationsOf, publishOf]

theorem notified_every_nth_twice :
    notificationsOf "c" (serve (serveAll
        (serve .empty (.subscribe ["a:2"] "c" "addr" "NAME" "")).1
          [.publish ["a"] "NAME" "m", .publish ["b"] "" "m'"]).1 (.publish ["a"] "" "m''")).2 =
      [⟨"addr", "m''", "c"⟩] := by
  have hregular : ∀ r ∈ [Request.publish ["a"] "NAME" "m", .publish ["b"] "" "m'",
      .publish ["a"] "" "m''"], Request.Regular "c" r ∧ r.Parseable := by
    intro r hr
    simp only [List.mem_cons, List.not_mem_nil, or_false] at hr
    rcases hr with rfl | rfl | rfl
    all_goals exact ⟨.publish _ rfl _, trivial⟩
  exact ((notified_every_nth (e := "a") (n := 2) ReachableBy.empty
    (fun _ => Store.wrapper?_empty _ _) (by decide) (by decide +kernel) (by decide) "addr" "" rfl
    hregular).2 _ _ [] rfl).trans (by decide)

end TPST
