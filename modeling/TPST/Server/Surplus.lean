import TPST.Server.Counting

/-!
# Surplus publishes

`checkIfTriggure` compares the counts by `!=`, so a subscription is triggered only when the counts
are exactly the required ones. Over a run of publishes:

* `notified_without_surplus`: while no publish finds its event already counted as often as
  required, the client is notified once it has seen what it asked for;
* `not_notified_after_surplus`: one publish too many, and it is never notified again;
* `surplus_disables`: with events `a` and `b`, publishing `a` twice before `b` is enough for that.
-/

namespace TPST

/-- A publish of one event by name. -/
def namePublish (p : String × String) : Request := .publish [p.1] "NAME" p.2

/-- If the client's subscription requires `x`, then a publish of `x` comes to its index event, and
finds `x` counted less often than required. -/
def Store.Accepts (s : Store) (ix c x : String) : Prop :=
  ∀ w, s.wrapper? ix c = some w → ∀ n, w.Requires x n → ix ∈ s.reached x ∧ w.published x < n

instance (s : Store) (ix c x : String) : Decidable (s.Accepts ix c x) :=
  match h : s.wrapper? ix c with
  | none => .isTrue fun w hw => by simp [h] at hw
  | some w =>
    decidable_of_iff (∀ n ∈ (w.requiredeventMap[x]?.map fun nums : OSet Int => nums.toList).getD [],
        ix ∈ s.reached x ∧ w.published x < n) <| by
      rw [Store.Accepts]
      simp only [h, Option.some.injEq, forall_eq', PubsubWrapper.Requires]
      cases w.requiredeventMap[x]? <;> simp [Std.ExtTreeSet.mem_toList]

theorem regular_namePublish (c : String) {ps : List (String × String)} {r : Request}
    (hr : r ∈ ps.map namePublish) : r.Regular c := by
  obtain ⟨p, -, rfl⟩ := List.mem_map.1 hr
  exact .publish p.1 rfl p.2

section Accepts

variable {s : Store} {ix c addr : String} {need seen : Multiset String}

/-- For a watched client, accepting an event is a fact about its counter. -/
theorem Watched.accepts (h : Watched s ix c addr need seen) {x : String} (hx : x ∈ need)
    (haccepts : s.Accepts ix c x) : ix ∈ s.reached x ∧ seen.count x < need.count x := by
  obtain ⟨w, hw, -, -, -, htracks⟩ := h.wrapper
  obtain ⟨hreached, hlt⟩ := haccepts w hw _ ((htracks.requires_iff x _).2 ⟨hx, rfl⟩)
  rw [htracks.published_eq] at hlt
  exact ⟨hreached, by exact_mod_cast hlt⟩

/-- **Accepted publishes** all come to the wrapper, and none is a surplus. -/
theorem Watched.hits_of_accepts (h : Watched s ix c addr need seen) {ps : List (String × String)}
    (haccepts : ∀ pre p post, ps = pre ++ p :: post →
      (serveAll s (pre.map namePublish)).1.Accepts ix c p.1) :
    Quota.NoSurplus need seen (hits ix s (ps.map namePublish)) ∧
      ∀ x ∈ need, (hits ix s (ps.map namePublish)).count x = (ps.map Prod.fst).count x := by
  induction ps generalizing s seen with
  | nil => exact ⟨trivial, fun _ _ => rfl⟩
  | cons p ps ih =>
    have hhead : s.Accepts ix c p.1 := haccepts [] p ps rfl
    have htail : ∀ pre p' post, ps = pre ++ p' :: post →
        (serveAll (serve s (namePublish p)).1 (pre.map namePublish)).1.Accepts ix c p'.1 := by
      rintro pre p' post rfl
      exact haccepts (p :: pre) p' post rfl
    obtain ⟨hsurplus, hcount⟩ := ih (h.serve_publish p.1 p.2 rfl).1 htail
    have hhit : hit ix s (namePublish p) = if ix ∈ s.reached p.1 then [p.1] else [] := rfl
    rw [List.map_cons, hits, hhit]
    refine ⟨?_, fun x hx => ?_⟩
    · by_cases hix : ix ∈ s.reached p.1
      · rw [if_pos hix] at hsurplus
        rw [if_pos hix]
        exact ⟨fun hp => (h.accepts hp hhead).2, hsurplus⟩
      · rw [if_neg hix] at hsurplus
        rwa [if_neg hix]
    · rw [List.count_append, List.map_cons, List.count_cons, Nat.add_comm]
      refine congrArg₂ _ (hcount x hx) ?_
      by_cases hpx : p.1 = x
      · rw [if_pos (h.accepts (hpx ▸ hx) hhead).1]
        simp [hpx]
      · split <;> simp [hpx]

/-- **A client is not notified again after a surplus.** -/
theorem Watched.not_notified_after_surplus (h : Watched s ix c addr need seen) {x : String}
    (hx : x ∈ need) (hsurplus : need.count x < seen.count x) {rs : List Request}
    (hrs : ∀ r ∈ rs, r.Regular c) : notificationsOf c (serveAll s rs).2 = [] := by
  rw [← List.length_eq_zero_iff, (h.serve_all hrs).2, Quota.fired_eq_zero_of_surplus hx hsurplus]

end Accepts

/-- **Without surplus no client is forgotten.** Take any reachable store, a fresh client that
subscribes to distinct events, and a run of publishes of one event each. From the subscription or
from a publish that notified the client on, let every publish be one the client accepts. Once each
of its events has been published as often as required, it has been notified. -/
theorem notified_without_surplus {s : Store} (hs : Reachable s) {c : String}
    (hfresh : s.Fresh c) (hc : c ≠ "") {evs : List String} {req : String × Int}
    {reqs : List (String × Int)} (hparse : Parses evs (req :: reqs))
    (hdistinct : ((req :: reqs).map Prod.fst).Nodup) (hpos : ∀ r ∈ req :: reqs, 1 ≤ r.2)
    (addr md : String) {start : Store}
    (hstart : start = (serve s (.subscribe evs c addr "NAME" md)).1)
    {pre span : List (String × String)}
    (hfrom : pre = [] ∨ ∃ before p, pre = before ++ [p] ∧
      notificationsOf c (serve (serveAll start (before.map namePublish)).1 (namePublish p)).2 ≠ [])
    (haccepts : ∀ q p post, span = q ++ p :: post →
      (serveAll start ((pre ++ q).map namePublish)).1.Accepts req.1 c p.1)
    (hcounts : ∀ r ∈ req :: reqs, r.2 ≤ (span.map Prod.fst).count r.1) :
    notificationsOf c
      (serveAll (serveAll start (pre.map namePublish)).1 (span.map namePublish)).2 ≠ [] := by
  have hnew := hstart ▸ watched_subscribe hs.filed hfresh hc hparse hdistinct hpos addr md
  set need := needOf (req :: reqs) with hneed
  have hmem := fun e => mem_needOf hpos (e := e)
  -- the counters are empty at the start of the span
  have hbegin : Watched (serveAll start (pre.map namePublish)).1 req.1 c addr need 0 := by
    rcases hfrom with rfl | ⟨before, p, rfl, hnotified⟩
    · exact hnew
    · have hregular : ∀ r ∈ before.map namePublish, Request.Regular c r :=
        fun r hr => regular_namePublish c hr
      have hname : requestMatchType "NAME" = "NAME" := rfl
      obtain ⟨hafter, hpush⟩ := (hnew.serve_all hregular).1.serve_publish p.1 p.2 hname
      rw [show (Request.publish [p.1] "NAME" p.2) = namePublish p from rfl] at hafter hpush
      rw [hpush] at hnotified
      obtain ⟨hreached, hfull⟩ := of_not_not fun hnot => hnotified (if_neg hnot)
      rw [if_pos hreached, Quota.step, if_pos hfull] at hafter
      rwa [List.map_append, List.map_singleton, serveAll_append, serveAll_singleton]
  have haccepts' : ∀ q p post, span = q ++ p :: post →
      (serveAll (serveAll start (pre.map namePublish)).1 (q.map namePublish)).1.Accepts
        req.1 c p.1 := by
    intro q p post hsplit
    have h := haccepts q p post hsplit
    rwa [List.map_append, serveAll_append] at h
  obtain ⟨hsurplus, hcount⟩ := hbegin.hits_of_accepts haccepts'
  have hne : need ≠ 0 := fun hzero => by
    have hfirst := (hmem req.1).2 (by simp)
    rw [← hneed, hzero] at hfirst
    exact Multiset.notMem_zero _ hfirst
  have hfired := Quota.fired_pos hne hsurplus fun e he => by
    obtain ⟨⟨e, n⟩, hreq, rfl⟩ := List.mem_map.1 ((hmem e).1 he)
    have hle := hcounts _ hreq
    rw [hcount _ he, hneed, count_needOf hdistinct hreq]
    omega
  rw [← (hbegin.serve_all fun r hr => regular_namePublish c hr).2] at hfired
  exact List.ne_nil_of_length_pos hfired

theorem notified_without_surplus_pair :
    notificationsOf "c" (serveAll
      (serve .empty (.subscribe ["a:2", "b"] "c" "addr" "NAME" "")).1
      [.publish ["a"] "NAME" "m", .publish ["b"] "NAME" "m'",
        .publish ["a"] "NAME" "m''"]).2 ≠ [] := by
  have hparse : Parses ["a:2", "b"] [("a", 2), ("b", 1)] :=
    .cons (by decide +kernel) (.cons (by decide +kernel) .nil)
  refine @notified_without_surplus _ ReachableBy.empty _ (fun _ => Store.wrapper?_empty _ _)
    (by decide) _ _ _ hparse (by decide) (by decide) "addr" "" _ rfl
    [] [("a", "m"), ("b", "m'"), ("a", "m''")] (.inl rfl) (fun q p post hsplit => ?_) (by decide)
  rcases q with _ | ⟨q₁, _ | ⟨q₂, _ | ⟨q₃, q⟩⟩⟩
  all_goals
    simp only [List.cons_append, List.nil_append, List.cons.injEq] at hsplit

  · obtain ⟨rfl, -⟩ := hsplit
    decide +kernel
  · obtain ⟨rfl, rfl, -⟩ := hsplit
    decide +kernel
  · obtain ⟨rfl, rfl, rfl, -⟩ := hsplit
    decide +kernel
  · simp at hsplit

/-- One surplus publish of `a` before `b` comes, and the client waits forever. -/
theorem surplus_disables :
    ¬ ∀ s : Store, Reachable s → ∀ c : String, s.Fresh c → c ≠ "" →
      ∀ (evs : List String) (reqs : List (String × Int)), Parses evs reqs → reqs ≠ [] →
      (reqs.map Prod.fst).Nodup → (∀ r ∈ reqs, 1 ≤ r.2) → ∀ (addr md : String)
      (span : List (String × String)), (∀ r ∈ reqs, r.2 ≤ (span.map Prod.fst).count r.1) →
        notificationsOf c (serveAll (serve s (.subscribe evs c addr "NAME" md)).1
          (span.map namePublish)).2 ≠ [] := by
  intro h
  have hparse : Parses ["a", "b"] [("a", 1), ("b", 1)] :=
    .cons (by decide +kernel) (.cons (by decide +kernel) .nil)
  refine h .empty .empty "c" (fun _ => Store.wrapper?_empty _ _) (by decide) _ _ hparse
    (by decide) (by decide) (by decide) "addr" "" [("a", "m"), ("a", "m'"), ("b", "m''")]
    (by decide) ?_
  decide +kernel

end TPST
