import TPST.Server.Redistribute

/-!
# What becomes of a subscription that is moved

A subscription that is moved goes through three forms. `getSimplepubsubWrapper` keeps the names of
the required events, in map order, and drops their counts and the match type; `RedistributeSub`
sends them with match type `NAME` and metadata `testMeta`; and the destination parses the names
again, each with the count 1, and files the wrapper under the first of them.

The names parse to themselves (`Store.Listed`), so the destination always files a wrapper
(`wrapper?_handleAll`). `intact_iff` says for which subscriptions it has the same terms and the
same place as the one that was moved.
-/

namespace TPST

open Std

/-- The destination handles the call. -/
def SubscribeCall.handle (d : Store) (call : SubscribeCall) : Store :=
  subscribe call.eventList call.clientid call.notifyAddr call.matchType call.metadata d

/-- The destination handles the calls, one after the other. -/
def handleAll (calls : List SubscribeCall) (d : Store) : Store :=
  calls.foldl SubscribeCall.handle d

/-- The store has a wrapper at `(ix, c)` on the terms of `w`: the same required events, match type,
metadata and notify address. -/
def Store.HasTerms (s : Store) (ix c : String) (w : PubsubWrapper) : Prop :=
  ∃ w', s.wrapper? ix c = some w' ∧ w.SameTerms w'

/-! ## The required events of a wrapper -/

/-- The required events are those of a list filed under `ix`, and their names parse to
themselves. -/
def PubsubWrapper.Listed (ix : String) (w : PubsubWrapper) : Prop :=
  ∃ n reqs, w.requiredeventMap = requiredOf ((ix, n) :: reqs) ∧
    ∀ req ∈ (ix, n) :: reqs, parseEvent req.1 = .ok (req.1, 1)

/-- A name that was parsed parses to itself, with the count 1. -/
theorem parseEvent_name {ev name : String} {n : Int} (h : parseEvent ev = .ok (name, n)) :
    parseEvent name = .ok (name, 1) := by
  have hmem : name ∈ split ev ":" := by
    unfold parseEvent at h
    split at h
    · cases h
    · rename_i hsplit
      obtain ⟨rfl, -⟩ := Prod.mk.inj (Except.ok.inj h)
      simp [hsplit]
    · rename_i hsplit
      split at h
      · obtain ⟨rfl, -⟩ := Prod.mk.inj (Except.ok.inj h)
        simp [hsplit]
      · cases h
  rw [parseEvent, split_of_mem_split hmem]

theorem Parses.names {evs : List String} {reqs : List (String × Int)} (h : Parses evs reqs) :
    ∀ req ∈ reqs, parseEvent req.1 = .ok (req.1, 1) := by
  induction h with
  | nil => simp
  | cons hparse _ ih =>
    intro req hreq
    rcases List.mem_cons.1 hreq with rfl | htail
    · exact parseEvent_name hparse
    · exact ih req htail

theorem parses_names {names : List String}
    (h : ∀ name ∈ names, parseEvent name = .ok (name, 1)) :
    Parses names (names.map fun name => (name, 1)) := by
  induction names with
  | nil => exact .nil
  | cons name names ih =>
    exact .cons (h name (by simp)) (ih fun name' hname' => h name' (by simp [hname']))

/-- **Every wrapper is listed**, in every reachable store. -/
theorem ReachableBy.listed {admits : List String → Prop} {s : Store} (h : ReachableBy admits s) :
    ∀ {ix c w}, s.wrapper? ix c = some w → w.Listed ix := by
  intro ix c w hw
  refine h.terms_induction (P := fun p w => w.Listed p.1) (fun hterms hlisted => ?_)
    (fun {evs req reqs} c addr mt md hparse => ?_) (p := (ix, c)) hw
  · obtain ⟨n, reqs, hreq, hnames⟩ := hlisted
    exact ⟨n, reqs, hterms.2.2.2.2.trans hreq, hnames⟩
  · exact ⟨req.2, reqs, rfl, hparse.names⟩

section Required

variable {m m' : OMap String (OSet Int)} {w : PubsubWrapper} {ix : String}

/-- Two maps of required events with the same events and the same counts are the same. -/
theorem requiredeventMap_ext (hkeys : ∀ e, e ∈ m ↔ e ∈ m')
    (hnums : ∀ (e : String) (n : Int), (∃ nums, m[e]? = some nums ∧ n ∈ nums) ↔
      ∃ nums, m'[e]? = some nums ∧ n ∈ nums) : m = m' := by
  apply ExtTreeMap.ext_getElem?
  intro e
  have hkey := hkeys e
  rw [ExtTreeMap.mem_iff_isSome_getElem?, ExtTreeMap.mem_iff_isSome_getElem?] at hkey
  have hnum := hnums e
  cases hm : m[e]? with
  | none =>
    rw [hm] at hkey
    exact (Option.not_isSome_iff_eq_none.1 fun h => by simpa using hkey.2 h).symm
  | some nums =>
    rw [hm] at hkey hnum
    obtain ⟨nums', hm'⟩ := Option.isSome_iff_exists.1 (hkey.1 rfl)
    rw [hm'] at hnum ⊢
    congr 1
    apply ExtTreeSet.ext_mem
    intro n
    simpa using hnum n

/-- The names of the required events, in the order in which they are sent. -/
theorem PubsubWrapper.Listed.parses (h : w.Listed ix) : ∃ name names,
    w.requiredeventMap.keys = name :: names ∧
      Parses w.requiredeventMap.keys ((name, 1) :: names.map fun name => (name, 1)) := by
  obtain ⟨n, reqs, hreq, hnames⟩ := h
  have hparse : ∀ name ∈ w.requiredeventMap.keys, parseEvent name = .ok (name, 1) := by
    intro name hname
    rw [ExtTreeMap.mem_keys, hreq, mem_keys_requiredOf] at hname
    obtain ⟨req, hmem, rfl⟩ := List.mem_map.1 hname
    exact hnames req hmem
  have hix : ix ∈ w.requiredeventMap.keys := by
    rw [ExtTreeMap.mem_keys, hreq, mem_keys_requiredOf]
    simp
  obtain ⟨name, names, hkeys⟩ := List.exists_cons_of_ne_nil (List.ne_nil_of_mem hix)
  refine ⟨name, names, hkeys, ?_⟩
  have hall := parses_names hparse
  rw [hkeys] at hall ⊢
  exact hall

/-- The required events survive the move if all counts are 1. -/
theorem PubsubWrapper.Listed.requiredOf_keys (h : w.Listed ix) :
    requiredOf (w.requiredeventMap.keys.map fun name => (name, 1)) = w.requiredeventMap ↔
      ∀ e n, w.Requires e n → n = 1 := by
  obtain ⟨k, reqs, hreq, -⟩ := h
  constructor
  · intro heq e n hn
    rw [PubsubWrapper.Requires, ← heq, mem_requiredOf, List.mem_map] at hn
    obtain ⟨name, -, hname⟩ := hn
    exact (Prod.mk.inj hname).2.symm
  · intro hone
    apply requiredeventMap_ext
    · intro e
      rw [mem_keys_requiredOf, List.map_map, ← ExtTreeMap.mem_keys]
      simp
    · intro e n
      rw [mem_requiredOf, List.mem_map]
      constructor
      · rintro ⟨name, hname, hpair⟩
        obtain ⟨rfl, rfl⟩ := Prod.mk.inj hpair
        rw [ExtTreeMap.mem_keys, hreq, mem_keys_requiredOf] at hname
        obtain ⟨⟨name, n⟩, hmem, rfl⟩ := List.mem_map.1 hname
        have hn : w.Requires name n := by
          rw [PubsubWrapper.Requires, hreq]
          exact mem_requiredOf.2 hmem
        rw [← hone name n hn]
        exact hn
      · intro hn
        refine ⟨e, ?_, by rw [hone e n hn]⟩
        obtain ⟨nums, hnums, -⟩ := hn
        rw [ExtTreeMap.mem_keys, ExtTreeMap.mem_iff_isSome_getElem?, hnums]
        rfl

end Required

/-! ## At the destination -/

/-- The destination files the wrapper under the index event `ix`: the client has an id, and `ix` is
the first required event in map order. -/
def Lands (ix : String) (w : PubsubWrapper) : Prop :=
  w.clientID ≠ "" ∧ w.requiredeventMap.keys.head? = some ix

instance (ix : String) (w : PubsubWrapper) : Decidable (Lands ix w) :=
  inferInstanceAs (Decidable (_ ∧ _))

/-- The move keeps the terms: they are those it sends for every subscription. -/
def KeepsTerms (w : PubsubWrapper) : Prop :=
  w.matchType = "NAME" ∧ w.subMetadata = "testMeta" ∧ ∀ e n, w.Requires e n → n = 1

/-- The wrapper that the destination makes of the moved wrapper `w`. -/
def movedWrapper (w : PubsubWrapper) : PubsubWrapper :=
  newWrapper w.clientID w.peerURL "NAME" "testMeta"
    (requiredOf (w.requiredeventMap.keys.map fun name => (name, 1)))

section Destination

variable {ix dstAddr : String} {w : PubsubWrapper} {d : Store}

theorem sameTerms_movedWrapper (h : w.Listed ix) :
    w.SameTerms (movedWrapper w) ↔ KeepsTerms w := by
  rw [KeepsTerms, ← h.requiredOf_keys]
  constructor
  · rintro ⟨-, -, hmeta, hmatch, hreq⟩
    exact ⟨hmatch.symm, hmeta.symm, hreq⟩
  · rintro ⟨hmatch, hmeta, hreq⟩
    exact ⟨rfl, rfl, hmeta.symm, hmatch.symm, hreq⟩

/-- **What one call does at the destination.** -/
theorem wrapper?_handle (h : w.Listed ix) (dstAddr ix' c' : String) (d : Store) :
    (SubscribeCall.handle d (subscribeCall dstAddr (getSimplepubsubWrapper w))).wrapper? ix' c' =
      if Lands ix' w ∧ w.clientID = c' then some (movedWrapper w) else d.wrapper? ix' c' := by
  obtain ⟨name, names, hkeys, hparse⟩ := h.parses
  change (subscribe w.requiredeventMap.keys w.clientID w.peerURL "NAME" "testMeta" d).wrapper?
    ix' c' = _
  have hlands : Lands ix' w ↔ w.clientID ≠ "" ∧ name = ix' := by
    rw [Lands, hkeys, List.head?_cons, Option.some.injEq]
  unfold subscribe
  by_cases hid : w.clientID = ""
  · rw [if_pos hid, if_neg fun hfiled => (hlands.1 hfiled.1).1 hid]
  · rw [if_neg hid, pubsubSubscribe_ok hparse, Flow.state_next, wrapper?_subscribed]
    simp [hlands, hid, movedWrapper, hkeys]

/-- The calls for other clients make no difference to a client. -/
theorem wrapper?_handleAll_of_notMem {ws : List PubsubWrapper} {c : String}
    (hlisted : ∀ w ∈ ws, ∃ ix, w.Listed ix) (hc : c ∉ ws.map (·.clientID)) (ix' : String)
    (d : Store) :
    (handleAll (ws.map fun w => subscribeCall dstAddr (getSimplepubsubWrapper w)) d).wrapper?
      ix' c = d.wrapper? ix' c := by
  induction ws generalizing d with
  | nil => rfl
  | cons w ws ih =>
    rw [List.map_cons, List.mem_cons, not_or] at hc
    obtain ⟨ix, hw⟩ := hlisted w (by simp)
    rw [List.map_cons, handleAll, List.foldl_cons, ← handleAll,
      ih (fun w' hw' => hlisted w' (by simp [hw'])) hc.2, wrapper?_handle hw,
      if_neg fun h => hc.1 h.2.symm]

/-- **What the calls do at the destination**: each files its wrapper, if the client has an id. -/
theorem wrapper?_handleAll {ws : List PubsubWrapper} (hlisted : ∀ w ∈ ws, ∃ ix, w.Listed ix)
    (hnodup : (ws.map (·.clientID)).Nodup) (hw : w ∈ ws) (ix' : String) (d : Store) :
    (handleAll (ws.map fun w => subscribeCall dstAddr (getSimplepubsubWrapper w)) d).wrapper?
        ix' w.clientID =
      if Lands ix' w then some (movedWrapper w) else d.wrapper? ix' w.clientID := by
  induction ws generalizing d with
  | nil => cases hw
  | cons w₀ ws ih =>
    have hrest : ∀ w ∈ ws, ∃ ix, w.Listed ix := fun w' hw' => hlisted w' (by simp [hw'])
    obtain ⟨ix₀, hw₀⟩ := hlisted w₀ (by simp)
    rw [List.map_cons, List.nodup_cons] at hnodup
    rw [List.map_cons, handleAll, List.foldl_cons, ← handleAll]
    rcases List.mem_cons.1 hw with rfl | hmem
    · rw [wrapper?_handleAll_of_notMem hrest hnodup.1, wrapper?_handle hw₀]
      simp
    · have hne : w₀.clientID ≠ w.clientID := fun heq =>
        hnodup.1 (heq ▸ List.mem_map_of_mem hmem)
      have hother : ¬ (Lands ix' w₀ ∧ w₀.clientID = w.clientID) := fun h => hne h.2
      rw [ih hrest hnodup.2 hmem, wrapper?_handle hw₀, if_neg hother]

end Destination

/-! ## The whole move -/

section Moves

variable {s : Store} {event srcAddr dstAddr c : String} {diff : Int} {w : PubsubWrapper}

/-- The wrappers that the request takes out of the row. -/
def takenWrappers (diff : Int) (event : String) (s : Store) : List PubsubWrapper :=
  (taken diff 0 (s.entries event)).map Prod.snd

theorem listed_takenWrappers (hs : Reachable s) :
    ∀ w ∈ takenWrappers diff event s, ∃ ix, w.Listed ix := by
  intro w hw
  obtain ⟨⟨c, w⟩, hentry, rfl⟩ := List.mem_map.1 hw
  exact ⟨event, hs.listed (mem_entries.1 ((taken_sublist _).subset hentry))⟩

/-- The client ids of the wrappers taken are those they are filed under. -/
theorem clientIDs_takenWrappers (hs : Reachable s) :
    (takenWrappers diff event s).map (·.clientID) =
      (taken diff 0 (s.entries event)).map Prod.fst := by
  rw [takenWrappers, List.map_map]
  apply List.map_congr_left
  intro entry hentry
  exact hs.filed.clientID (mem_entries.1 ((taken_sublist _).subset hentry))

/-- The request moves a wrapper when it takes its client. -/
theorem mem_takenWrappers (hw : s.wrapper? event c = some w)
    (hmoved : (redistributeSub event srcAddr dstAddr diff s).state.1.wrapper? event c = none) :
    w ∈ takenWrappers diff event s := by
  rw [redistributeSub_eq.2.1, wrapper?_eraseAll, hw] at hmoved
  have htaken : c ∈ (taken diff 0 (s.entries event)).map Prod.fst := by
    by_contra hnot
    simp [hnot] at hmoved
  obtain ⟨⟨c, w'⟩, hentry, rfl⟩ := List.mem_map.1 htaken
  have hw' := mem_entries.1 ((taken_sublist _).subset hentry)
  obtain rfl := Option.some.inj (hw'.symm.trans hw)
  exact List.mem_map.2 ⟨_, hentry, rfl⟩

theorem calls_eq (hreturns : (redistributeSub event srcAddr dstAddr diff s).isFault = false) :
    (redistributeSub event srcAddr dstAddr diff s).state.2 =
      (takenWrappers diff event s).map fun w =>
        subscribeCall dstAddr (getSimplepubsubWrapper w) := by
  rw [redistributeSub_eq.1] at hreturns
  rw [redistributeSub_eq.2.2 hreturns, takenWrappers, List.map_map]
  rfl

/-- **Which subscriptions survive a move.** Once a subscription has been moved and the destination
has handled the calls, the destination has it at the same place and on the same terms exactly if
the call files it at that place and the terms are those every call sends (or if the call files it
elsewhere, and the destination had it before). -/
theorem intact_iff (hs : Reachable s)
    (hreturns : (redistributeSub event srcAddr dstAddr diff s).isFault = false)
    (hw : s.wrapper? event c = some w)
    (hmoved : (redistributeSub event srcAddr dstAddr diff s).state.1.wrapper? event c = none)
    (d : Store) :
    (handleAll (redistributeSub event srcAddr dstAddr diff s).state.2 d).HasTerms event c w ↔
      (Lands event w ∧ KeepsTerms w) ∨ (¬ Lands event w ∧ d.HasTerms event c w) := by
  have hmem := mem_takenWrappers hw hmoved
  have hnodup : ((takenWrappers diff event s).map (·.clientID)).Nodup := by
    rw [clientIDs_takenWrappers hs]
    exact taken_clients.1
  have hfiled := @wrapper?_handleAll dstAddr w _ (listed_takenWrappers hs) hnodup hmem event d
  rw [hs.filed.clientID hw] at hfiled
  rw [calls_eq hreturns, Store.HasTerms, hfiled]
  by_cases hlands : Lands event w
  · simp [hlands, sameTerms_movedWrapper (hs.listed hw)]
  · simp [hlands, Store.HasTerms]

end Moves

/-- The store after a subscription that has the terms every call sends. -/
def plainStore : Store :=
  Store.empty.subscribed "c" "addr" "NAME" "testMeta" ("a", 1) [("b", 1)]

theorem reachable_plainStore : Reachable plainStore :=
  have hab : Parses ["a", "b"] [("a", 1), ("b", 1)] :=
    .cons (by decide +kernel) (.cons (by decide +kernel) .nil)
  ReachableBy.empty.subscribed trivial hab

theorem intact_plainStore :
    (handleAll (redistributeSub "a" "src" "dst" 1 plainStore).state.2 .empty).HasTerms "a" "c"
      (newWrapper "c" "addr" "NAME" "testMeta" (requiredOf [("a", 1), ("b", 1)])) := by
  have hw : plainStore.wrapper? "a" "c" = some
      (newWrapper "c" "addr" "NAME" "testMeta" (requiredOf [("a", 1), ("b", 1)])) :=
    (wrapper?_subscribed "a" "c").trans (if_pos ⟨rfl, rfl⟩)
  have hmoved : ((redistributeSub "a" "src" "dst" 1 plainStore).state.1.wrapper? "a" "c").isNone =
      true := by decide +kernel
  apply (intact_iff reachable_plainStore (by decide +kernel) hw (Option.isNone_iff_eq_none.1 hmoved)
    .empty).2
  refine .inl ⟨⟨by decide, by decide +kernel⟩, rfl, rfl, fun e n hn => ?_⟩
  have hreq := requires_newWrapper.1 hn
  simp only [List.mem_cons, Prod.mk.injEq, List.not_mem_nil, or_false] at hreq
  exact hreq.elim (·.2) (·.2)

/-- The store after a subscription to two publishes of `a`. -/
def twiceStore : Store := Store.empty.subscribed "c" "addr" "NAME" "testMeta" ("a", 2) []

theorem reachable_twiceStore : Reachable twiceStore :=
  have ha : Parses ["a:2"] [("a", 2)] := .cons (by decide +kernel) .nil
  ReachableBy.empty.subscribed trivial ha

/-- A subscription to two publishes of `a` arrives as one to a single publish. -/
theorem intact_fails :
    ¬ ∀ s : Store, Reachable s → ∀ (event srcAddr dstAddr : String) (diff : Int),
      (redistributeSub event srcAddr dstAddr diff s).isFault = false →
        ∀ c w, s.wrapper? event c = some w →
          (redistributeSub event srcAddr dstAddr diff s).state.1.wrapper? event c = none →
            ∀ d, (handleAll (redistributeSub event srcAddr dstAddr diff s).state.2 d).HasTerms
              event c w := by
  intro h
  have hw : twiceStore.wrapper? "a" "c" = some
      (newWrapper "c" "addr" "NAME" "testMeta" (requiredOf [("a", 2)])) :=
    (wrapper?_subscribed "a" "c").trans (if_pos ⟨rfl, rfl⟩)
  have hmoved : ((redistributeSub "a" "src" "dst" 1 twiceStore).state.1.wrapper? "a" "c").isNone =
      true := by decide +kernel
  obtain ⟨w', hw', hterms⟩ := h twiceStore reachable_twiceStore "a" "src" "dst" 1
    (by decide +kernel) "c" _ hw (Option.isNone_iff_eq_none.1 hmoved) .empty
  have harrived : ((handleAll (redistributeSub "a" "src" "dst" 1 twiceStore).state.2
      .empty).wrapper? "a" "c").map (fun w => (w.requiredeventMap["a"]?).map (·.toList)) =
        some (some [1]) := by decide +kernel
  rw [hw', Option.map_some, hterms.2.2.2.2] at harrived
  revert harrived
  decide +kernel

end TPST
