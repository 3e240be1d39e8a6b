import Mathlib.Data.List.Infix
import TPST.Foundations.Schedules
import TPST.Server.Redistribute
import TPST.Server.Rules

/-!
# The default match type

`Publish` reads an empty match type as `NAME`. `Subscribe` files it as it is, and `checkNotify`
deletes the counters of a wrapper only if the match type there is `NAME`; so a client that
subscribes without a match type keeps, after its first notification, the counters it had, and waits
for counts that they have passed.

Here two servers take the same steps, after a subscription by `NAME` on one of them and the same
subscription without match type on the other. `default_matchType` says what is enough for the two to
notify alike, and when the counters stay alike as well.
-/

namespace TPST

open Std

/-- The steps of a server, one at a time. -/
inductive ServerStep
  | operation (op : Operation)
  | redistributeSub (event srcAddr dstAddr : String) (diff : Int)
  | unSubscribe (event clientId : String)
  deriving DecidableEq, Repr

/-- The store after a step, and what it pushes to the notify queue. -/
def ServerStep.run (s : Store) : ServerStep → Store × List (Place × NotifyInfo)
  | .operation (.checkNotify p) => runTask p s
  | .operation op => (op.run s, [])
  | .redistributeSub event srcAddr dstAddr diff =>
    ((TPST.redistributeSub event srcAddr dstAddr diff s).state.1, [])
  | .unSubscribe event clientId => (eventUnSubscribe event clientId s, [])

/-- What the steps of a run push, one after the other. -/
def pushes : List ServerStep → Store → List (List (Place × NotifyInfo))
  | [], _ => []
  | step :: steps, s => (step.run s).2 :: pushes steps (step.run s).1

/-- Two servers take the same step. -/
def bothRun (step : ServerStep) (s : Store × Store) : Store × Store :=
  ((step.run s.1).1, (step.run s.2).1)

/-- At every visit of a publish by name, the wrappers of the two servers are both met, or both not,
by what they have counted. -/
def ChecksAlike (step : ServerStep) (s : Store × Store) : Prop :=
  match step with
  | .operation (.publish L mt _) =>
    requestMatchType mt = "NAME" →
      ∀ ix ∈ s.1.subtoClient.keys, ∀ c ∈ s.1.clients ix,
        ∀ es ∈ (s.1.eventsAt ix L).inits, es ≠ [] →
          (s.1.wrapper? ix c).map (fun w => checkIfTriggure (countAll es w)) =
            (s.2.wrapper? ix c).map (fun w => checkIfTriggure (countAll es w))
  | _ => True

instance (step : ServerStep) (s : Store × Store) : Decidable (ChecksAlike step s) := by
  unfold ChecksAlike
  split <;> infer_instance

/-- A task that notifies a client whose match types differ finds nothing counted. -/
def FindsNoCounts (step : ServerStep) (s : Store × Store) : Prop :=
  match step with
  | .operation (.checkNotify p) =>
    ∀ w₁ w₂, s.1.wrapper? p.1 p.2 = some w₁ → s.2.wrapper? p.1 p.2 = some w₂ →
      w₁.iftrigure = true → w₁.matchType = w₂.matchType ∨ w₁.publishedEvent = ∅
  | _ => True

/-- Every client has the same counters on the two servers. -/
def SameCounters (s : Store × Store) : Prop :=
  ∀ ix c, (s.1.wrapper? ix c).map (·.publishedEvent) = (s.2.wrapper? ix c).map (·.publishedEvent)

/-! ## Wrappers that differ in the match type -/

/-- The wrappers are the same, but that one may have the match type `NAME`, and the other none and
other counters, unless these are to be the `same`. -/
def Defaulted (same : Prop) (w₁ w₂ : PubsubWrapper) : Prop :=
  w₁ = w₂ ∨ w₁.matchType = "NAME" ∧
    ∃ counts, (same → counts = w₁.publishedEvent) ∧
      w₂ = { w₁ with matchType := "", publishedEvent := counts }

theorem requiredeventMap_countAll (es : List String) (w : PubsubWrapper) :
    (countAll es w).requiredeventMap = w.requiredeventMap := by
  induction es generalizing w with
  | nil => rfl
  | cons e es ih => exact ih (countPublish e w)

/-- The visit after those of `es` checks what counting all of them comes to. -/
theorem checkIfTriggure_visitAll (md : String) (es : List String) (e : String)
    (w : PubsubWrapper) :
    checkIfTriggure (countPublish e (visitAll md es w)) =
      checkIfTriggure (countAll (es ++ [e]) w) := by
  rw [Bool.eq_iff_iff, ← metAfter_snoc md es e w, checkIfTriggure_iff, MetAfter]
  simp only [PubsubWrapper.Requires, requiredeventMap_countAll]

theorem checkIfTriggure_countAll_congr {w₁ w₂ : PubsubWrapper} {es : List String}
    (hreq : w₂.requiredeventMap = w₁.requiredeventMap)
    (hpub : w₂.publishedEvent = w₁.publishedEvent) :
    checkIfTriggure (countAll es w₂) = checkIfTriggure (countAll es w₁) := by
  rw [checkIfTriggure, checkIfTriggure, requiredeventMap_countAll, requiredeventMap_countAll,
    hreq, publishedEvent_countAll_congr hpub]

section Defaulted

variable {same : Prop} {w₁ w₂ : PubsubWrapper} {mt md e : String}

theorem Defaulted.subMetadata_eq (h : Defaulted same w₁ w₂) :
    w₂.subMetadata = w₁.subMetadata := by
  rcases h with rfl | ⟨-, counts, -, rfl⟩ <;> rfl

theorem Defaulted.requiredeventMap_eq (h : Defaulted same w₁ w₂) :
    w₂.requiredeventMap = w₁.requiredeventMap := by
  rcases h with rfl | ⟨-, counts, -, rfl⟩ <;> rfl

theorem Defaulted.publishedEvent_eq (h : Defaulted True w₁ w₂) :
    w₂.publishedEvent = w₁.publishedEvent := by
  rcases h with rfl | ⟨-, counts, hcounts, rfl⟩
  · rfl
  · exact hcounts trivial

/-- A visit that comes to the same check keeps the wrappers alike. -/
theorem Defaulted.visited_NAME (h : Defaulted same w₁ w₂)
    (hcheck : checkIfTriggure (countPublish e w₁) = checkIfTriggure (countPublish e w₂)) :
    Defaulted same (visited "NAME" md e w₁) (visited "NAME" md e w₂) := by
  rw [TPST.visited_NAME, TPST.visited_NAME, ← hcheck]
  rcases h with rfl | ⟨hname, counts, hcounts, rfl⟩
  · exact .inl rfl
  · refine .inr ⟨?_, (countPublish e { w₁ with publishedEvent := counts }).publishedEvent,
      fun hsame => ?_, ?_⟩
    · split <;> exact hname
    · rw [hcounts hsame]
      split <;> rfl
    · split <;> rfl

/-- So do the visits of a publish. -/
theorem Defaulted.visitAll (h : Defaulted same w₁ w₂) {es : List String}
    (hchecks : ∀ es' ∈ es.inits, es' ≠ [] →
      checkIfTriggure (countAll es' w₁) = checkIfTriggure (countAll es' w₂)) :
    Defaulted same (visitAll md es w₁) (visitAll md es w₂) := by
  induction es using List.reverseRecOn with
  | nil => exact h
  | append_singleton es e ih =>
    have happ : ∀ w, TPST.visitAll md (es ++ [e]) w =
        visited "NAME" md e (TPST.visitAll md es w) := fun w => by simp [TPST.visitAll]
    rw [happ, happ]
    refine (ih fun es' hes' => hchecks es' ?_).visited_NAME ?_
    · exact (List.mem_inits _ _).2
        (((List.mem_inits _ _).1 hes').trans (List.prefix_append es [e]))
    · rw [checkIfTriggure_visitAll, checkIfTriggure_visitAll]
      exact hchecks _ ((List.mem_inits _ _).2 List.prefix_rfl) (by simp)

/-- A visit of another match type looks at neither of the two. -/
theorem Defaulted.visited_other (h : Defaulted same w₁ w₂) (hmt : mt ≠ "NAME") :
    Defaulted same (visited mt md e w₁) (visited mt md e w₂) := by
  rcases h with rfl | ⟨hname, counts, hcounts, rfl⟩
  · exact .inl rfl
  · have hgrid : checkIfTriggureMetaGrid
        { w₁ with matchType := "", publishedEvent := counts } md =
          checkIfTriggureMetaGrid w₁ md := rfl
    unfold visited visitWrapper
    rw [if_neg hmt, if_neg hmt, hgrid]
    by_cases hmeta : mt = "META_GRID"
    · rw [if_pos hmeta, if_pos hmeta]
      cases checkIfTriggureMetaGrid w₁ md with
      | error x => exact .inr ⟨hname, counts, hcounts, rfl⟩
      | ok tempiftrigure =>
        cases tempiftrigure <;> exact .inr ⟨hname, counts, hcounts, rfl⟩
    · rw [if_neg hmeta, if_neg hmeta]
      exact .inr ⟨hname, counts, hcounts, rfl⟩

theorem Defaulted.visits_other (h : Defaulted same w₁ w₂) (hmt : mt ≠ "NAME") (vs : List Visit) :
    Defaulted same (vs.foldl (fun w v => visited mt md v.event w) w₁)
      (vs.foldl (fun w v => visited mt md v.event w) w₂) := by
  induction vs generalizing w₁ w₂ with
  | nil => exact h
  | cons v vs ih => exact ih (h.visited_other hmt)

/-- **A task notifies alike**, and leaves the wrappers alike; the counters too, if there is nothing
to delete. -/
theorem Defaulted.checkNotify (h : Defaulted same w₁ w₂)
    (hcounts : same → w₁.iftrigure = true →
      w₁.matchType = w₂.matchType ∨ w₁.publishedEvent = ∅) :
    (checkNotify w₁).2 = (checkNotify w₂).2 ∧
      Defaulted same (checkNotify w₁).1 (checkNotify w₂).1 := by
  rcases h with rfl | ⟨hname, counts, hsame, rfl⟩
  · exact ⟨rfl, .inl rfl⟩
  · rcases Bool.eq_false_or_eq_true w₁.iftrigure with htrig | htrig
    · have hcounted : same → counts = ∅ := by
        intro h
        rcases hcounts h htrig with hmatch | hempty
        · rw [hname] at hmatch
          exact absurd (show "NAME" = "" from hmatch) (by decide)
        · rw [hsame h, hempty]
      simp only [TPST.checkNotify, htrig, hname, deletePubEvent, Bool.true_eq_false, ↓reduceIte,
        String.reduceEq, true_and]
      exact .inr ⟨rfl, counts, hcounted, rfl⟩
    · rw [checkNotify_of_not_iftrigure htrig, checkNotify_of_not_iftrigure (by exact htrig)]
      exact ⟨rfl, .inr ⟨hname, counts, hsame, rfl⟩⟩

end Defaulted

/-! ## Stores that differ in such wrappers -/

/-- The stores are the same but for wrappers that differ in the match type. -/
structure Alike (same : Prop) (s₁ s₂ : Store) : Prop where
  getIndexMap_eq : s₂.getIndexMap = s₁.getIndexMap
  mem_iff : ∀ ix, ix ∈ s₂.subtoClient ↔ ix ∈ s₁.subtoClient
  wrapper : ∀ ix c, Option.Rel (Defaulted same) (s₁.wrapper? ix c) (s₂.wrapper? ix c)

section Alike

variable {same : Prop} {s₁ s₂ : Store}

theorem Defaulted.rel_refl (o : Option PubsubWrapper) : Option.Rel (Defaulted same) o o := by
  cases o with
  | none => exact .none
  | some w => exact .some (.inl rfl)

theorem Alike.refl (s : Store) : Alike same s s :=
  ⟨rfl, fun _ => Iff.rfl, fun _ _ => Defaulted.rel_refl _⟩

/-- What is done to two wrappers at one place is to keep them alike. -/
theorem rel_map {o₁ o₂ : Option PubsubWrapper} {f g : PubsubWrapper → PubsubWrapper}
    (h : Option.Rel (Defaulted same) o₁ o₂)
    (hfg : ∀ w₁ w₂, o₁ = some w₁ → o₂ = some w₂ → Defaulted same w₁ w₂ →
      Defaulted same (f w₁) (g w₂)) :
    Option.Rel (Defaulted same) (o₁.map f) (o₂.map g) := by
  cases h with
  | none => exact .none
  | some hw => exact .some (hfg _ _ rfl rfl hw)

/-- What is the same for two such wrappers is the same at a place. -/
theorem rel_map_eq {o₁ o₂ : Option PubsubWrapper} {α : Type*} {f : PubsubWrapper → α}
    (h : Option.Rel (Defaulted same) o₁ o₂)
    (hf : ∀ w₁ w₂, Defaulted same w₁ w₂ → f w₂ = f w₁) : o₁.map f = o₂.map f := by
  cases h with
  | none => rfl
  | some hw => rw [Option.map_some, Option.map_some, hf _ _ hw]

theorem rel_exists {o₁ o₂ : Option PubsubWrapper} (h : Option.Rel (Defaulted same) o₁ o₂) :
    (∃ w, o₂ = some w) ↔ ∃ w, o₁ = some w := by
  cases h <;> simp

theorem Alike.clients_eq (h : Alike same s₁ s₂) (ix : String) : s₂.clients ix = s₁.clients ix := by
  apply OMap.rowKeys_eq_of_mem_iff
  intro c
  change c ∈ s₂.clients ix ↔ c ∈ s₁.clients ix
  rw [Store.mem_clients, Store.mem_clients]
  exact rel_exists (h.wrapper ix c)

theorem Alike.sameShape (h : Alike same s₁ s₂) : s₁.SameShape s₂ :=
  ⟨h.getIndexMap_eq, h.mem_iff, h.clients_eq⟩

/-! ### The steps -/

theorem Alike.insertCell (h : Alike same s₁ s₂) (m : OMap String (OSet String)) (ix c : String)
    {w₁ w₂ : PubsubWrapper} (hw : Defaulted same w₁ w₂) :
    Alike same ⟨m, OMap.insertCell s₁.subtoClient ix c w₁⟩
      ⟨m, OMap.insertCell s₂.subtoClient ix c w₂⟩ := by
  refine ⟨rfl, fun ix' => ?_, fun ix' c' => ?_⟩
  · rw [OMap.mem_insertCell, OMap.mem_insertCell, h.mem_iff]
  · rw [Store.wrapper?, Store.wrapper?, OMap.cell_insertCell, OMap.cell_insertCell]
    split
    · exact .some hw
    · exact h.wrapper ix' c'

/-- Subscriptions that file such wrappers keep the stores alike. -/
theorem Alike.subscribe (h : Alike same s₁ s₂) (evs : List String) {c addr md mt₁ mt₂ : String}
    (hnew : ∀ required, Defaulted same (newWrapper c addr mt₁ md required)
      (newWrapper c addr mt₂ md required)) :
    Alike same (subscribe evs c addr mt₁ md s₁) (subscribe evs c addr mt₂ md s₂) := by
  unfold TPST.subscribe
  split
  · exact h
  · unfold pubsubSubscribe addNewClient
    cases evs with
    | nil => exact h
    | cons first rest =>
      dsimp only
      cases parseEvent first with
      | error x => exact h
      | ok req =>
        dsimp only
        rw [h.getIndexMap_eq]
        cases Flow.forEach (requireEvent req.1) (first :: rest) (s₁.getIndexMap, ∅) with
        | next st =>
          obtain ⟨m, required⟩ := st
          exact h.insertCell m req.1 c (hnew required)
        | ret st => exact ⟨rfl, h.mem_iff, h.wrapper⟩
        | fault x st => exact ⟨rfl, h.mem_iff, h.wrapper⟩

/-- A visit faults on both servers or on neither. -/
theorem Alike.faultsAt_eq (h : Alike same s₁ s₂) (mt md : String) :
    s₂.faultsAt mt md = s₁.faultsAt mt md := by
  funext v
  unfold Store.faultsAt
  have hfaults : ∀ {w₁ w₂ : PubsubWrapper}, Defaulted same w₁ w₂ →
      visitFaults mt md w₂ = visitFaults mt md w₁ := by
    intro w₁ w₂ hw
    rw [Bool.eq_iff_iff, visitFaults_iff, visitFaults_iff, checkIfTriggureMetaGrid,
      checkIfTriggureMetaGrid, hw.subMetadata_eq]
  have hrel := h.wrapper v.index v.client
  generalize s₁.wrapper? v.index v.client = o₁ at hrel
  generalize s₂.wrapper? v.index v.client = o₂ at hrel
  cases hrel with
  | none => rfl
  | some hw => exact hfaults hw

/-- The walk of a publish that comes to the same checks keeps the stores alike. -/
theorem Alike.pubsubPublish (h : Alike same s₁ s₂) (L : List String) (mt md : String)
    (hchecks : mt = "NAME" → ∀ ix c w₁ w₂, s₁.wrapper? ix c = some w₁ → s₂.wrapper? ix c = some w₂ →
      ∀ es ∈ (s₁.eventsAt ix L).inits, es ≠ [] →
        checkIfTriggure (countAll es w₁) = checkIfTriggure (countAll es w₂)) :
    Alike same (pubsubPublish L mt md s₁).state (pubsubPublish L mt md s₂).state := by
  have hshape₁ := sameShape_pubsubPublish mt md L s₁
  have hshape₂ := sameShape_pubsubPublish mt md L s₂
  refine ⟨?_, fun ix => ?_, fun ix c => ?_⟩
  · rw [hshape₁.getIndexMap_eq, hshape₂.getIndexMap_eq, h.getIndexMap_eq]
  · rw [hshape₁.mem_iff, hshape₂.mem_iff, h.mem_iff]
  · by_cases hmt : mt = "NAME"
    · subst hmt
      rw [wrapper?_pubsubPublish_NAME, wrapper?_pubsubPublish_NAME, h.sameShape.eventsAt_eq]
      exact rel_map (h.wrapper ix c) fun w₁ w₂ hw₁ hw₂ hw =>
        hw.visitAll (hchecks rfl ix c w₁ w₂ hw₁ hw₂)
    · rw [wrapper?_pubsubPublish, wrapper?_pubsubPublish, h.sameShape.visits_eq, Store.completed,
        Store.completed, h.faultsAt_eq]
      exact rel_map (h.wrapper ix c) fun w₁ w₂ _ _ hw => hw.visits_other hmt _

theorem Alike.startNotifies (h : Alike same s₁ s₂) (ixs : List String) :
    Alike same (startNotifies ixs s₁).1 (startNotifies ixs s₂).1 := by
  refine ⟨?_, fun ix => ?_, fun ix c => ?_⟩
  · rw [getIndexMap_startNotifies, getIndexMap_startNotifies, h.getIndexMap_eq]
  · rw [mem_startNotifies, mem_startNotifies, h.mem_iff]
  · rw [wrapper?_startNotifies, wrapper?_startNotifies]
    exact h.wrapper ix c

theorem Alike.isFault_eq (h : Alike same s₁ s₂) (L : List String) (mt md : String) :
    (TPST.pubsubPublish L mt md s₂).isFault = (TPST.pubsubPublish L mt md s₁).isFault := by
  rw [isFault_pubsubPublish, isFault_pubsubPublish, h.sameShape.visits_eq, h.faultsAt_eq]

/-- So does its handler. -/
theorem Alike.publish (h : Alike same s₁ s₂) {L : List String} {mt md : String}
    (hchecks : ChecksAlike (.operation (.publish L mt md)) (s₁, s₂)) :
    Alike same (publish L mt md s₁).1 (publish L mt md s₂).1 := by
  have hwalk : Alike same (TPST.pubsubPublish L (requestMatchType mt) md s₁).state
      (TPST.pubsubPublish L (requestMatchType mt) md s₂).state := by
    refine h.pubsubPublish L (requestMatchType mt) md fun hmt ix c w₁ w₂ hw₁ hw₂ es hes hne => ?_
    have hc : c ∈ s₁.clients ix := Store.mem_clients.2 ⟨w₁, hw₁⟩
    have hix : ix ∈ s₁.subtoClient.keys := by
      rw [ExtTreeMap.mem_keys]
      exact OMap.mem_of_cell hw₁
    have hcheck := hchecks hmt ix hix c hc es hes hne
    simpa only [hw₁, hw₂, Option.map_some, Option.some.injEq] using hcheck
  cases hfault : (TPST.pubsubPublish L (requestMatchType mt) md s₁).isFault with
  | true =>
    rw [publish_of_isFault hfault, publish_of_isFault ((h.isFault_eq _ _ _).trans hfault)]
    exact hwalk
  | false =>
    rw [publish_of_not_isFault hfault, publish_of_not_isFault ((h.isFault_eq _ _ _).trans hfault),
      notifiedIndexEvents_congr h.sameShape]
    exact hwalk.startNotifies _

/-- A task pushes the same on both servers. -/
theorem Alike.runTask (h : Alike same s₁ s₂) {p : Place}
    (hcounts : same → FindsNoCounts (.operation (.checkNotify p)) (s₁, s₂)) :
    (runTask p s₁).2 = (runTask p s₂).2 ∧ Alike same (runTask p s₁).1 (runTask p s₂).1 := by
  have hshape₁ := sameShape_runTask p s₁
  have hshape₂ := sameShape_runTask p s₂
  refine ⟨?_, ⟨?_, fun ix => ?_, fun ix c => ?_⟩⟩
  · unfold TPST.runTask
    have hrel := h.wrapper p.1 p.2
    cases hw₁ : s₁.wrapper? p.1 p.2 with
    | none =>
      rw [hw₁] at hrel
      cases hw₂ : s₂.wrapper? p.1 p.2 with
      | none => rfl
      | some w₂ => rw [hw₂] at hrel; cases hrel
    | some w₁ =>
      rw [hw₁] at hrel
      cases hw₂ : s₂.wrapper? p.1 p.2 with
      | none => rw [hw₂] at hrel; cases hrel
      | some w₂ =>
        rw [hw₂] at hrel
        cases hrel with
        | some hw =>
          dsimp only
          rw [(hw.checkNotify fun hsame => hcounts hsame w₁ w₂ hw₁ hw₂).1]
  · rw [hshape₁.getIndexMap_eq, hshape₂.getIndexMap_eq, h.getIndexMap_eq]
  · rw [hshape₁.mem_iff, hshape₂.mem_iff, h.mem_iff]
  · rw [wrapper?_runTask p (ix, c), wrapper?_runTask p (ix, c)]
    refine rel_map (h.wrapper ix c) fun w₁ w₂ hw₁ hw₂ hw => ?_
    split
    · rename_i hp
      subst hp
      exact (hw.checkNotify fun hsame => hcounts hsame w₁ w₂ hw₁ hw₂).2
    · exact hw

/-- The entries taken are chosen by their number. -/
theorem map_taken {α β : Type*} (f : α → β) (diff count : Int) (l : List α) :
    (taken diff count l).map f = taken diff count (l.map f) := by
  induction count, l using taken.induct diff with
  | case1 count => rfl
  | case2 count a => rfl
  | case3 count a b l hlast => simp [taken, hlast]
  | case4 count a b l hne ih => simp [taken, hne, ih]

theorem Alike.redistributeSub (h : Alike same s₁ s₂) (event srcAddr dstAddr : String)
    (diff : Int) :
    Alike same (redistributeSub event srcAddr dstAddr diff s₁).state.1
      (redistributeSub event srcAddr dstAddr diff s₂).state.1 := by
  rw [redistributeSub_eq.2.1, redistributeSub_eq.2.1, map_taken, map_taken, map_fst_entries,
    map_fst_entries, h.clients_eq]
  refine ⟨?_, fun ix => ?_, fun ix c => ?_⟩
  · rw [getIndexMap_eraseAll, getIndexMap_eraseAll, h.getIndexMap_eq]
  · rw [mem_eraseAll, mem_eraseAll, h.mem_iff]
  · rw [wrapper?_eraseAll, wrapper?_eraseAll]
    split
    · exact .none
    · exact h.wrapper ix c

theorem Alike.eventUnSubscribe (h : Alike same s₁ s₂) (event clientId : String) :
    Alike same (eventUnSubscribe event clientId s₁) (eventUnSubscribe event clientId s₂) := by
  refine ⟨?_, fun ix => ?_, fun ix c => ?_⟩
  · rw [getIndexMap_eventUnSubscribe, getIndexMap_eventUnSubscribe, h.getIndexMap_eq]
  · rw [mem_eventUnSubscribe, mem_eventUnSubscribe, h.mem_iff]
  · rw [wrapper?_eventUnSubscribe, wrapper?_eventUnSubscribe]
    split
    · exact .none
    · exact h.wrapper ix c

/-- **A step that comes to the same checks keeps the stores alike** and pushes the same. -/
theorem Alike.run (h : Alike same s₁ s₂) {step : ServerStep} (hchecks : ChecksAlike step (s₁, s₂))
    (hcounts : same → FindsNoCounts step (s₁, s₂)) :
    (step.run s₁).2 = (step.run s₂).2 ∧ Alike same (step.run s₁).1 (step.run s₂).1 := by
  cases step with
  | operation op =>
    cases op with
    | subscribe evs c addr mt md => exact ⟨rfl, h.subscribe evs fun _ => .inl rfl⟩
    | publish L mt md => exact ⟨rfl, h.publish hchecks⟩
    | checkNotify p => exact h.runTask hcounts
  | redistributeSub event srcAddr dstAddr diff =>
    exact ⟨rfl, h.redistributeSub event srcAddr dstAddr diff⟩
  | unSubscribe event clientId => exact ⟨rfl, h.eventUnSubscribe event clientId⟩

/-- Wrappers with the same counters check alike. -/
theorem Alike.checksAlike (h : Alike True s₁ s₂) (step : ServerStep) :
    ChecksAlike step (s₁, s₂) := by
  unfold ChecksAlike
  split
  · intro _ ix _ c _ es _ _
    exact rel_map_eq (h.wrapper ix c) fun _ _ hw =>
      checkIfTriggure_countAll_congr hw.requiredeventMap_eq hw.publishedEvent_eq
  · trivial

theorem Alike.sameCounters (h : Alike True s₁ s₂) : SameCounters (s₁, s₂) :=
  fun ix c => rel_map_eq (h.wrapper ix c) fun _ _ hw => hw.publishedEvent_eq

/-- A task that deletes the counters of one of the wrappers only, and finds some, leaves different
ones. -/
theorem Alike.findsNoCounts (h : Alike True s₁ s₂) {step : ServerStep}
    (hsame : SameCounters (bothRun step (s₁, s₂))) : FindsNoCounts step (s₁, s₂) := by
  unfold FindsNoCounts
  split
  · rename_i p
    intro w₁ w₂ hw₁ hw₂ htrig
    have hrel := h.wrapper p.1 p.2
    have hafter := hsame p.1 p.2
    simp only [bothRun, ServerStep.run, wrapper?_runTask p p, hw₁, hw₂, ↓reduceIte,
      Option.map_some, Option.some.injEq] at hafter
    rw [hw₁, hw₂] at hrel
    cases hrel with
    | some hw =>
      rcases hw with rfl | ⟨hname, counts, hcounts, rfl⟩
      · exact .inl rfl
      · right
        simp only [checkNotify, htrig, hname, deletePubEvent, hcounts trivial, Bool.true_eq_false,
          ↓reduceIte, String.reduceEq] at hafter
        exact hafter.symm
  · trivial

end Alike

/-- **The notifications of a run**, when all its checks come to the same. -/
theorem Alike.pushes {s₁ s₂ : Store} (h : Alike False s₁ s₂) {steps : List ServerStep}
    (hchecks : Schedule.Along bothRun ChecksAlike steps (s₁, s₂)) :
    pushes steps s₂ = pushes steps s₁ := by
  induction steps generalizing s₁ s₂ with
  | nil => rfl
  | cons step steps ih =>
    obtain ⟨hpush, hnext⟩ := h.run hchecks.1 False.elim
    rw [TPST.pushes, TPST.pushes, hpush, ih hnext hchecks.2]

/-- The two stores after the subscription. -/
theorem alike_subscribe (same : Prop) (L : List String) (c addr md : String) (s : Store) :
    Alike same (subscribe L c addr "NAME" md s) (subscribe L c addr "" md s) :=
  (Alike.refl s).subscribe L fun _ => .inr ⟨rfl, ∅, fun _ => rfl, rfl⟩

/-- **When an empty match type does as `NAME`**: the two servers notify alike as long as every check
comes to the same on both, and the client's counters are reset as with `NAME` exactly if every
notification finds nothing counted. -/
theorem default_matchType (L : List String) (c addr md : String) (s : Store)
    (steps : List ServerStep) :
    (Schedule.Along bothRun ChecksAlike steps
        (subscribe L c addr "NAME" md s, subscribe L c addr "" md s) →
      pushes steps (subscribe L c addr "" md s) = pushes steps (subscribe L c addr "NAME" md s)) ∧
    (Schedule.Always bothRun SameCounters steps
        (subscribe L c addr "NAME" md s, subscribe L c addr "" md s) ↔
      Schedule.Along bothRun FindsNoCounts steps
        (subscribe L c addr "NAME" md s, subscribe L c addr "" md s)) := by
  refine ⟨(alike_subscribe False L c addr md s).pushes, ?_⟩
  exact Schedule.always_iff_along
    (fun (s : Store × Store) (h : Alike True s.1 s.2) => h.sameCounters)
    (fun step _ h hcounts => (h.run (h.checksAlike step) fun _ => hcounts).2)
    (fun _ _ h hsame => h.findsNoCounts hsame) (alike_subscribe True L c addr md s) steps

/-- Up to the first notification all checks come to the same. -/
example : Schedule.Along bothRun ChecksAlike
    [.operation (.publish ["a", "b"] "" "first"), .operation (.checkNotify ("a", "c"))]
    (subscribe ["a", "b"] "c" "addr" "NAME" "md" .empty,
      subscribe ["a", "b"] "c" "addr" "" "md" .empty) := by
  decide +kernel

/-- One event, published twice: the client without match type is notified once. -/
theorem default_matchType_fails :
    ¬ ∀ (L : List String) (c addr md : String) (s : Store) (steps : List ServerStep),
      pushes steps (subscribe L c addr "" md s) =
        pushes steps (subscribe L c addr "NAME" md s) := by
  intro h
  have hpushes := h ["a"] "c" "addr" "md" .empty
    [.operation (.publish ["a"] "" "first"), .operation (.checkNotify ("a", "c")),
      .operation (.publish ["a"] "" "second"), .operation (.checkNotify ("a", "c"))]
  revert hpushes
  decide +kernel

end TPST
