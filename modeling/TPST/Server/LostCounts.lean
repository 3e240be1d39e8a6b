import TPST.Server.Adding
import TPST.Server.FailedSubscribe
import TPST.Server.Moving

/-!
# Counts lost to a subscription being added

While a subscription is added, a publish may come to an index event whose row is not there yet, and
returns; and it may copy a row in which the new wrapper has taken the place of one that was there
before. `counter_run` keeps the account of the counts that a wrapper gets, is owed and loses in this
way, and `countsAll_iff` says that all wrappers get their counts exactly if no step loses any.
-/

namespace TPST

open Std

namespace Adding

/-! ## Counts -/

/-- The subscriptions of a store: a place, and an event that the wrapper there requires. -/
def wants (s : Store) : List (Place × String) :=
  s.subtoClient.toList.flatMap fun row => row.2.toList.flatMap fun entry =>
    entry.2.requiredeventMap.keys.map fun event => ((row.1, entry.1), event)

/-- How often an event counts as published for the wrapper filed at `p` when the run began. -/
def counter (m : Shared Ref) (p : Place) (r : String) : ℤ :=
  ((m.heap (.old p)).map fun w => w.published r).getD 0

/-- The counts of `r` that the wrapper filed at `p` is to get from the rest of the publish: one for
each event `r` still to come, and one for the present event if the wrapper's row, or its pointer in
the row copied, is still ahead. -/
def owed (p : Place) (r : String) : Walk Ref → ℕ
  | .events eventList => eventList.count r
  | .registered event eventList => (if r = event then 1 else 0) + eventList.count r
  | .indexEvents event indexEventSet eventList =>
    (if r = event then indexEventSet.count p.1 else 0) + eventList.count r
  | .row event indexEvent indexEventSet eventList =>
    (if r = event then (indexEvent :: indexEventSet).count p.1 else 0) + eventList.count r
  | .clients event _ innermap indexEventSet eventList =>
    (if r = event then innermap.count (p.2, some (.old p)) + indexEventSet.count p.1 else 0) +
      eventList.count r
  | .trigger event _ _ innermap indexEventSet eventList =>
    (if r = event then innermap.count (p.2, some (.old p)) + indexEventSet.count p.1 else 0) +
      eventList.count r
  | .done | .raised | .crashed => 0

/-- The counts of `r` that the wrapper filed at `p` loses when a thread takes its next step: all
that it is owed if `pubsubPublish` returns because a row is not there, and one if it copies the row
of the wrapper for the event `r` after the wrapper has been replaced there. -/
def lost (p : Place) (r : String) (t : Thread) (σ : State) : ℕ :=
  match t, σ.publisher with
  | .publisher, .indexEvents _ (indexEvent :: _) _ =>
    if indexEvent ∈ σ.shared.subtoClient then 0 else owed p r σ.publisher
  | .publisher, .row event indexEvent _ _ =>
    if r = event ∧ p.1 = indexEvent ∧
        OMap.cell σ.shared.subtoClient indexEvent p.2 ≠ some (some (.old p)) then 1
    else 0
  | _, _ => 0

/-- What a wrapper has and is owed. -/
def State.due (p : Place) (r : String) (σ : State) : ℤ :=
  counter σ.shared p r + owed p r σ.publisher

/-- Every wrapper that was filed when the run began got a count for each publish of an event that
it requires. -/
def CountsAll (s : Store) (published : List String) (σ : State) : Prop :=
  ∀ p w, s.wrapper? p.1 p.2 = some w → ∀ r ∈ w.requiredeventMap,
    counter σ.shared p r = w.published r + published.count r

/-! ## What the steps keep -/

/-- An entry is that of a row, which still has the client. -/
def OfRow (m : Shared Ref) (ix : String) (entry : String × Option Ref) : Prop :=
  (entry.2 = some (.old (ix, entry.1)) ∨ entry.2 = some .new) ∧
    ∃ psw, OMap.cell m.subtoClient ix entry.1 = some psw

/-- The entries copied from a row are those of the row, and a client that is to be marked is there.
So no null pointer is followed. -/
def Copied (m : Shared Ref) : Walk Ref → Prop
  | .clients _ indexEvent innermap _ _ => ∀ entry ∈ innermap, OfRow m indexEvent entry
  | .trigger _ indexEvent clientId innermap _ _ =>
    (∃ psw, OMap.cell m.subtoClient indexEvent clientId = some psw) ∧
      ∀ entry ∈ innermap, OfRow m indexEvent entry
  | .raised | .crashed => False
  | _ => True

/-- What holds all along: the events that the wrappers of the start require lead to them, these
wrappers are in memory, and a pointer at a place is to the wrapper that was filed there, or to the
new one. -/
structure Inv (s : Store) (σ : State) : Prop where
  indexed : ∀ {p r}, (p, r) ∈ wants s → ∃ set, σ.shared.getIndexMap[r]? = some set ∧ p.1 ∈ set
  kept : ∀ {p r}, (p, r) ∈ wants s → ∃ w, σ.shared.heap (.old p) = some w
  filed : ∀ {ix c psw}, OMap.cell σ.shared.subtoClient ix c = some psw →
    psw = some (.old (ix, c)) ∨ psw = some .new
  copied : Copied σ.shared σ.publisher

section Steps

variable {s : Store} {σ : State} {call : AddCall} {metadata : String} {p : Place} {r : String}

theorem mem_wants :
    (p, r) ∈ wants s ↔ ∃ w, s.wrapper? p.1 p.2 = some w ∧ r ∈ w.requiredeventMap := by
  simp only [wants, List.mem_flatMap, List.mem_map, Prod.exists, Prod.mk.injEq,
    ExtTreeMap.mem_toList_iff_getElem?_eq_some, ExtTreeMap.mem_keys, Store.wrapper?,
    OMap.cell_eq_some]
  constructor
  · rintro ⟨ix, row, hrow, c, w, hw, e, he, rfl, rfl⟩
    exact ⟨w, ⟨row, hrow, hw⟩, he⟩
  · rintro ⟨w, ⟨row, hrow, hw⟩, he⟩
    exact ⟨p.1, row, hrow, p.2, w, hw, r, he, rfl, rfl⟩

/-- `addNewClient` writes to no wrapper of the start. -/
theorem heap_addStep : (addStep call σ).shared.heap (.old p) = σ.shared.heap (.old p) := by
  unfold addStep
  dsimp only
  split
  · rfl
  · split <;> rfl
  · dsimp only
    exact Function.update_of_ne Ref.noConfusion _ _

theorem publisher_addStep : (addStep call σ).publisher = σ.publisher := by
  unfold addStep
  dsimp only
  split
  · rfl
  · split <;> rfl
  · rfl

/-- What `addNewClient` finds at a place it leaves there, or the new pointer. -/
theorem cell_addStep {ix c : String} :
    OMap.cell (addStep call σ).shared.subtoClient ix c = OMap.cell σ.shared.subtoClient ix c ∨
      OMap.cell (addStep call σ).shared.subtoClient ix c = some (some .new) := by
  unfold addStep
  dsimp only
  split
  · exact .inl rfl
  · split <;> exact .inl rfl
  · dsimp only
    rw [OMap.cell_insertCell]
    split
    · exact .inr rfl
    · exact .inl rfl

theorem exists_cell_addStep {ix c : String}
    (h : ∃ psw, OMap.cell σ.shared.subtoClient ix c = some psw) :
    ∃ psw, OMap.cell (addStep call σ).shared.subtoClient ix c = some psw := by
  rcases @cell_addStep σ call ix c with hsame | hnew
  · rwa [hsame]
  · exact ⟨_, hnew⟩

/-- The entries that a publish has copied stay those of its row. -/
theorem copied_addStep {walk : Walk Ref} (h : Copied σ.shared walk) :
    Copied (addStep call σ).shared walk := by
  have hrow {ix : String} {innermap : List (String × Option Ref)}
      (h : ∀ entry ∈ innermap, OfRow σ.shared ix entry) :
      ∀ entry ∈ innermap, OfRow (addStep call σ).shared ix entry :=
    fun entry hentry => ⟨(h entry hentry).1, exists_cell_addStep (h entry hentry).2⟩
  cases walk with
  | clients => exact hrow h
  | trigger => exact ⟨exists_cell_addStep h.1, hrow h.2⟩
  | raised | crashed => exact h
  | _ => trivial

/-- `addNewClient` keeps the invariants. -/
theorem Inv.addStep (h : Inv s σ) : Inv s (addStep call σ) where
  indexed hq := by
    unfold Adding.addStep
    dsimp only
    split
    · exact h.indexed hq
    · split
      · exact mem_addIndex.2 (.inr (h.indexed hq))
      · exact h.indexed hq
    · exact h.indexed hq
  kept hq := by
    rw [heap_addStep]
    exact h.kept hq
  filed {ix c psw} hpsw := by
    rcases @cell_addStep σ call ix c with hsame | hnew
    · exact h.filed (hsame.symm.trans hpsw)
    · exact .inr (Option.some.inj (hpsw.symm.trans hnew))
  copied := by
    rw [publisher_addStep]
    exact copied_addStep h.copied

theorem Copied.nonNull {walk : Walk Ref} (h : Copied σ.shared walk) : walk.NonNull := by
  have hrow {ix : String} {innermap : List (String × Option Ref)}
      (h : ∀ entry ∈ innermap, OfRow σ.shared ix entry) : ∀ entry ∈ innermap, entry.2 ≠ none := by
    intro entry hentry hnull
    rcases (h entry hentry).1 with hold | hnew
    · cases hnull.symm.trans hold
    · cases hnull.symm.trans hnew
  cases walk with
  | clients => exact hrow h
  | trigger => exact hrow h.2
  | _ => exact fun entry hentry => absurd hentry List.not_mem_nil

/-- A client that is to be marked has a wrapper. -/
theorem Inv.marked (h : Inv s σ) {q : Place} (hq : σ.publisher.marks = some q) :
    ∃ psw, OMap.cell σ.shared.subtoClient q.1 q.2 = some (some psw) := by
  have hcopied := h.copied
  cases hpc : σ.publisher with
  | trigger event ix c innermap ixs L =>
    rw [hpc] at hcopied hq
    obtain rfl := Option.some.inj hq
    obtain ⟨psw, hpsw⟩ := hcopied.1
    rcases h.filed hpsw with rfl | rfl <;> exact ⟨_, hpsw⟩
  | _ =>
    rw [hpc] at hq
    cases hq

/-- `pubsubPublish` leaves the maps alone. -/
theorem Inv.subtoClient_publishStep (h : Inv s σ) :
    (publishStep metadata σ).shared.subtoClient = σ.shared.subtoClient := by
  refine (walkStep_ne_crashed h.copied.nonNull (fun hcrashed => ?_) fun q => h.marked).2
  have hcopied := h.copied
  rw [hcrashed] at hcopied
  exact hcopied

/-- At an entry that was copied, a publish counts for its wrapper. -/
theorem Inv.publishStep_client (h : Inv s σ) (metadata : String) {event ix : String}
    {entry : String × Option Ref} {innermap : List (String × Option Ref)} {ixs L : List String}
    (hpc : σ.publisher = .clients event ix (entry :: innermap) ixs L) :
    ∃ psw, entry.2 = some psw ∧ (psw = .old (ix, entry.1) ∨ psw = .new) ∧ ∃ b : Bool,
      publishStep metadata σ =
        { σ with
          publisher := if b then .trigger event ix entry.1 innermap ixs L
            else .clients event ix innermap ixs L
          shared := σ.shared.modify psw (countPublish event) } := by
  obtain ⟨c, clientWrapper⟩ := entry
  have hcopied := h.copied
  rw [hpc] at hcopied
  obtain ⟨psw, hpsw, hold⟩ :
      ∃ psw, clientWrapper = some psw ∧ (psw = .old (ix, c) ∨ psw = .new) := by
    rcases (hcopied _ List.mem_cons_self).1 with hold | hnew
    · exact ⟨_, hold, .inl rfl⟩
    · exact ⟨_, hnew, .inr rfl⟩
  obtain ⟨b, hstep⟩ := walkStep_client_NAME metadata σ.shared event ix c psw innermap ixs L
  refine ⟨psw, hpsw, hold, b, ?_⟩
  rw [publishStep, hpc, hpsw, hstep]

/-- A client that matched is marked. -/
theorem Inv.publishStep_trigger (h : Inv s σ) (metadata : String) {event ix c : String}
    {innermap : List (String × Option Ref)} {ixs L : List String}
    (hpc : σ.publisher = .trigger event ix c innermap ixs L) :
    ∃ psw, publishStep metadata σ =
      { σ with
        publisher := .clients event ix innermap ixs L
        shared := σ.shared.modify psw (markTriggered metadata) } := by
  obtain ⟨psw, hpsw⟩ := h.marked (q := (ix, c)) (by rw [hpc]; rfl)
  refine ⟨psw, ?_⟩
  simp only [publishStep, hpc, walkStep, hpsw]

theorem copied_publishStep (h : Inv s σ) :
    Copied (publishStep metadata σ).shared (publishStep metadata σ).publisher := by
  have hcopied := h.copied
  cases hpc : σ.publisher with
  | events eventList =>
    cases eventList with
    | nil => simp only [publishStep, hpc, walkStep, Copied]
    | cons event eventList =>
      simp only [publishStep, hpc, walkStep]
      split <;> trivial
  | registered | done => simp only [publishStep, hpc, walkStep, Copied]
  | indexEvents event indexEventSet eventList =>
    cases indexEventSet with
    | nil => simp only [publishStep, hpc, walkStep, Copied]
    | cons indexEvent indexEventSet =>
      simp only [publishStep, hpc, walkStep]
      split <;> trivial
  | row event indexEvent indexEventSet eventList =>
    simp only [publishStep, hpc, walkStep]
    intro entry hentry
    have hcell := OMap.mem_rowEntries.1 hentry
    exact ⟨h.filed hcell, _, hcell⟩
  | clients event indexEvent innermap indexEventSet eventList =>
    rw [hpc] at hcopied
    cases innermap with
    | nil => simp only [publishStep, hpc, walkStep, Copied]
    | cons entry innermap =>
      obtain ⟨psw, -, -, b, hstep⟩ := h.publishStep_client metadata hpc
      rw [hstep]
      cases b with
      | false => exact fun entry' hentry' => hcopied entry' (.tail _ hentry')
      | true =>
        exact ⟨(hcopied entry List.mem_cons_self).2,
          fun entry' hentry' => hcopied entry' (.tail _ hentry')⟩
  | trigger event indexEvent clientId innermap indexEventSet eventList =>
    rw [hpc] at hcopied
    obtain ⟨psw, hstep⟩ := h.publishStep_trigger metadata hpc
    rw [hstep]
    exact hcopied.2
  | raised | crashed =>
    rw [hpc] at hcopied
    exact hcopied.elim

/-- `pubsubPublish` keeps the invariants. -/
theorem Inv.publishStep (h : Inv s σ) : Inv s (publishStep metadata σ) where
  indexed hq := by
    rw [Adding.publishStep, getIndexMap_walkStep]
    exact h.indexed hq
  kept hq := by
    rw [← Option.isSome_iff_exists, Adding.publishStep, isSome_heap_walkStep,
      Option.isSome_iff_exists]
    exact h.kept hq
  filed hpsw := by
    rw [h.subtoClient_publishStep] at hpsw
    exact h.filed hpsw
  copied := copied_publishStep h

/-- A row that is copied has the pointer to a wrapper of the start once, if it still has it. -/
theorem count_rowEntries (h : Inv s σ) (ix : String) :
    (OMap.rowEntries σ.shared.subtoClient ix).count (p.2, some (.old p)) =
      if p.1 = ix ∧ OMap.cell σ.shared.subtoClient ix p.2 = some (some (.old p)) then 1 else 0 := by
  by_cases hcell : OMap.cell σ.shared.subtoClient ix p.2 = some (some (.old p))
  · have hix : p.1 = ix := by
      rcases h.filed hcell with hold | hnew
      · exact congrArg Prod.fst (Ref.old.inj (Option.some.inj hold))
      · cases hnew
    rw [if_pos ⟨hix, hcell⟩]
    exact List.count_eq_one_of_mem (OMap.nodup_rowEntries _ _) (OMap.mem_rowEntries.2 hcell)
  · rw [if_neg fun h => hcell h.2]
    exact List.count_eq_zero.2 fun hmem => hcell (OMap.mem_rowEntries.1 hmem)

theorem counter_modify (m : Shared Ref) (psw : Ref) (f : PubsubWrapper → PubsubWrapper) :
    counter (m.modify psw f) p r =
      if .old p = psw then ((m.heap (.old p)).map fun w => (f w).published r).getD 0
      else counter m p r := by
  rw [counter, Shared.heap_modify]
  split
  · rw [Option.map_map]
    rfl
  · rfl

/-- At the index map, `event` is owed once to each wrapper of the start that requires it. -/
theorem due_registered (h : Inv s σ) (hq : (p, r) ∈ wants s) {event : String}
    {eventList : List String} (hpc : σ.publisher = .registered event eventList) :
    (publishStep metadata σ).due p r + lost p r .publisher σ = σ.due p r := by
  simp only [State.due, publishStep, walkStep, hpc, lost, owed]
  by_cases he : r = event
  · subst he
    obtain ⟨set, hset, hmem⟩ := h.indexed hq
    have hcount : set.toList.count p.1 = 1 :=
      List.count_eq_one_of_mem (OSet.nodup_toList set) (ExtTreeSet.mem_toList.2 hmem)
    simp only [↓reduceIte, Shared.indexEvents, hset, Option.map_some, Option.getD_some, hcount]
    omega
  · simp only [if_neg he]
    omega

/-- At a row, the wrapper of the start there is copied, unless it has been replaced. -/
theorem due_row (h : Inv s σ) {event indexEvent : String} {indexEventSet eventList : List String}
    (hpc : σ.publisher = .row event indexEvent indexEventSet eventList) :
    (publishStep metadata σ).due p r + lost p r .publisher σ = σ.due p r := by
  have hcount := count_rowEntries (p := p) h indexEvent
  simp only [State.due, publishStep, walkStep, hpc, lost, owed, List.count_cons, beq_iff_eq,
    hcount]
  by_cases he : r = event
  · simp only [he, ↓reduceIte, true_and, eq_comm (a := indexEvent)]
    by_cases hix : p.1 = indexEvent
    · by_cases hcell : OMap.cell σ.shared.subtoClient indexEvent p.2 = some (some (.old p))
      · simp only [hix, hcell, and_self, ne_eq, not_true, and_false, ↓reduceIte]
        omega
      · simp only [hix, hcell, and_false, ne_eq, not_false_eq_true, and_self, ↓reduceIte]
        omega
    · simp only [hix, false_and, ↓reduceIte]
      omega
  · simp only [he, false_and, ↓reduceIte]
    omega

/-- At an entry copied from the row, its wrapper is counted. -/
theorem due_client (h : Inv s σ) (hq : (p, r) ∈ wants s) {event indexEvent : String}
    {entry : String × Option Ref} {innermap : List (String × Option Ref)}
    {indexEventSet eventList : List String}
    (hpc : σ.publisher = .clients event indexEvent (entry :: innermap) indexEventSet eventList) :
    (publishStep metadata σ).due p r + lost p r .publisher σ = σ.due p r := by
  obtain ⟨psw, hpsw, hold, b, hstep⟩ := h.publishStep_client metadata hpc
  obtain ⟨w, hw⟩ := h.kept hq
  -- the pointer is to the wrapper just when the entry is that of the wrapper
  have hentry : entry = (p.2, some (.old p)) ↔ .old p = psw := by
    constructor
    · rintro rfl
      exact Option.some.inj hpsw
    · rintro rfl
      rcases hold with hold | hnew
      · rw [Prod.ext_iff, Ref.old.inj hold]
        exact ⟨rfl, hpsw.trans (by rw [hold])⟩
      · cases hnew
  have howed : owed p r (if b then .trigger event indexEvent entry.1 innermap indexEventSet
        eventList else .clients event indexEvent innermap indexEventSet eventList) =
      owed p r (.clients event indexEvent innermap indexEventSet eventList) := by
    cases b <;> rfl
  simp only [State.due, hstep, howed, hpc, lost]
  rw [counter_modify]
  simp only [owed, List.count_cons, beq_iff_eq, hentry]
  by_cases hp : .old p = psw
  · simp only [hp.symm, ↓reduceIte, counter, hw, Option.map_some, Option.getD_some,
      published_countPublish]
    by_cases he : r = event
    · simp only [he, ↓reduceIte]
      omega
    · simp only [he, Ne.symm he, ↓reduceIte]
      omega
  · simp only [hp, ↓reduceIte, Nat.add_zero]
    omega

/-- **One step of the publish**: what the wrapper has and what it is owed change by what it
loses. -/
theorem due_publishStep (h : Inv s σ) (hq : (p, r) ∈ wants s) :
    (publishStep metadata σ).due p r + lost p r .publisher σ = σ.due p r := by
  cases hpc : σ.publisher with
  | registered event eventList => exact due_registered h hq hpc
  | row event indexEvent indexEventSet eventList => exact due_row h hpc
  | done | raised | crashed =>
    simp only [State.due, publishStep, walkStep, hpc, lost, owed]
    omega
  | events eventList =>
    cases eventList with
    | nil =>
      simp only [State.due, publishStep, walkStep, hpc, lost, owed, List.count_nil]
      omega
    | cons event eventList =>
      simp only [State.due, publishStep, walkStep, hpc, lost, owed, List.count_cons, beq_iff_eq]
      by_cases hregistered : event ∈ σ.shared.getIndexMap
      · simp only [if_pos hregistered, eq_comm (a := event)]
        omega
      · -- an event that the wrapper requires is registered
        have he : event ≠ r := by
          rintro rfl
          obtain ⟨set, hset, -⟩ := h.indexed hq
          exact hregistered (ExtTreeMap.mem_iff_isSome_getElem?.2 (by simp [hset]))
        simp only [if_neg hregistered, if_neg he]
        omega
  | indexEvents event indexEventSet eventList =>
    cases indexEventSet with
    | nil =>
      simp only [State.due, publishStep, walkStep, hpc, lost, owed, List.count_nil, ite_self]
      omega
    | cons indexEvent indexEventSet =>
      simp only [State.due, publishStep, walkStep, hpc, lost]
      by_cases hix : indexEvent ∈ σ.shared.subtoClient
      · simp only [if_pos hix, owed]
        omega
      · simp only [if_neg hix, owed]
        omega
  | clients event indexEvent innermap indexEventSet eventList =>
    cases innermap with
    | nil =>
      simp only [State.due, publishStep, walkStep, hpc, lost, owed, List.count_nil, Nat.zero_add]
      omega
    | cons entry innermap => exact due_client h hq hpc
  | trigger event indexEvent clientId innermap indexEventSet eventList =>
    obtain ⟨psw, hstep⟩ := h.publishStep_trigger metadata hpc
    have hsame : counter (σ.shared.modify psw (markTriggered metadata)) p r =
        counter σ.shared p r := by
      rw [counter_modify]
      split <;> rfl
    simp only [State.due, hstep, hpc, lost, owed, hsame]
    omega

end Steps

/-! ## Runs -/

section Runs

variable {s : Store} {call : AddCall} {published : List String} {metadata : String} {p : Place}
  {r : String} {ts : List Thread}

/-- The events that a wrapper requires lead to it in a reachable store. -/
theorem inv_start (hs : Reachable s) : Inv s (start call published s) where
  indexed {p r} hq := by
    obtain ⟨w, hw, hmem⟩ := mem_wants.1 hq
    obtain ⟨n, reqs, hreq, -⟩ := hs.listed hw
    rw [hreq, mem_keys_requiredOf] at hmem
    obtain ⟨req, hreqs, rfl⟩ := List.mem_map.1 hmem
    have hrequires : w.Requires req.1 req.2 := by
      rw [PubsubWrapper.Requires, hreq]
      exact mem_requiredOf.2 hreqs
    exact Store.mem_indexEvents.1 (hs.filed.indexed hw hrequires)
  kept {p r} hq := by
    obtain ⟨w, hw, -⟩ := mem_wants.1 hq
    exact ⟨w, hw⟩
  filed {ix c psw} hpsw := by
    rw [start, cell_stored, Option.map_eq_some_iff] at hpsw
    obtain ⟨_, -, rfl⟩ := hpsw
    exact .inl rfl
  copied := trivial

theorem Inv.step {σ : State} (t : Thread) (h : Inv s σ) : Inv s (step call metadata t σ) := by
  cases t with
  | adder => exact h.addStep
  | publisher => exact h.publishStep

/-- **One step** of either call. -/
theorem due_step {σ : State} (hq : (p, r) ∈ wants s) (t : Thread) (h : Inv s σ) :
    (step call metadata t σ).due p r + lost p r t σ = σ.due p r := by
  cases t with
  | adder =>
    have hcounter : counter (addStep call σ).shared p r = counter σ.shared p r := by
      rw [counter, heap_addStep]
      rfl
    rw [step, State.due, State.due, hcounter, publisher_addStep]
    simp [lost]
  | publisher => exact due_publishStep h hq

/-- **The account of a run**: a wrapper has got what it was to get, less what it has lost and what
it is still owed. -/
theorem counter_run (hs : Reachable s) {w : PubsubWrapper} (hw : s.wrapper? p.1 p.2 = some w)
    (hr : r ∈ w.requiredeventMap) :
    (Schedule.run (step call metadata) ts (start call published s)).due p r +
        Schedule.total (step call metadata) (lost p r) ts (start call published s) =
      w.published r + published.count r := by
  rw [Schedule.measure_run (fun t σ => Inv.step t)
    (fun t σ => due_step (mem_wants.2 ⟨w, hw, hr⟩) t) (inv_start hs)]
  have hheap : (Shared.stored refs s).heap (.old p) = some w := (heap_stored refs s p).trans hw
  simp [State.due, counter, start, hheap, owed]

/-- No step takes a count from a wrapper of the start. -/
def LosesNone (s : Store) (call : AddCall) (published : List String) (metadata : String)
    (ts : List Thread) : Prop :=
  Schedule.Along (step call metadata) (fun t σ => ∀ q ∈ wants s, lost q.1 q.2 t σ = 0) ts
    (start call published s)

/-- **When a subscription being added leaves the publish alone**: every wrapper of the start gets
its counts exactly if no step takes one. -/
theorem countsAll_iff (hs : Reachable s)
    (hdone : (Schedule.run (step call metadata) ts (start call published s)).publisher = .done) :
    CountsAll s published (Schedule.run (step call metadata) ts (start call published s)) ↔
      LosesNone s call published metadata ts := by
  have hcounter : ∀ p w, s.wrapper? p.1 p.2 = some w → ∀ r ∈ w.requiredeventMap,
      (counter (Schedule.run (step call metadata) ts (start call published s)).shared p r =
          w.published r + published.count r ↔
        Schedule.Along (step call metadata) (fun t σ => lost p r t σ = 0) ts
          (start call published s)) := by
    intro p w hw r hr
    have haccount := @counter_run s call published metadata p r ts hs w hw hr
    rw [State.due, hdone, owed] at haccount
    rw [← Schedule.total_eq_zero_iff]
    omega
  rw [LosesNone, Schedule.along_forall]
  constructor
  · rintro hall ⟨p, r⟩ hq
    obtain ⟨w, hw, hr⟩ := mem_wants.1 hq
    exact (hcounter p w hw r hr).1 (hall p w hw r hr)
  · intro hnone p w hw r hr
    exact (hcounter p w hw r hr).2 (hnone (p, r) (mem_wants.2 ⟨w, hw, hr⟩))

end Runs

instance (s : Store) (call : AddCall) (published : List String) (metadata : String)
    (ts : List Thread) : Decidable (LosesNone s call published metadata ts) :=
  inferInstanceAs (Decidable (Schedule.Along _ _ _ _))

/-- A subscription to `a` and `b`. -/
def bothCall : AddCall := ⟨"d", "addr'", ["a", "b"], "NAME", ""⟩

/-- The subscription enters its index event for `b` after the publish has copied the index set. -/
theorem countsAll_iff_late :
    CountsAll loneStore ["b"] (Schedule.run (step bothCall "m")
      (.publisher :: .publisher :: .adder :: .adder :: List.replicate 7 .publisher ++ [.adder])
      (start bothCall ["b"] loneStore)) :=
  (countsAll_iff reachable_loneStore (by decide +kernel)).2 (by decide +kernel)

/-- The calls are at their ends. -/
def State.finished (σ : State) : Bool :=
  match σ.adder, σ.publisher with
  | .done, .done => true
  | _, _ => false

/-- The publish copies the index set of `b` when the row of `a` is not there, and returns before it
counts for the client of `b`. -/
theorem countsAll_fails :
    ¬ ∀ (s : Store) (call : AddCall) (published : List String) (metadata : String)
      (ts : List Thread), WellFormed s → Parseable call.eventList →
        (Schedule.run (step call metadata) ts (start call published s)).finished = true →
          CountsAll s published
            (Schedule.run (step call metadata) ts (start call published s)) := by
  intro h
  have hb : Parses ["b"] [("b", 1)] := .cons (by decide +kernel) .nil
  have hab : Parses ["a", "b"] [("a", 1), ("b", 1)] :=
    .cons (by decide +kernel) (.cons (by decide +kernel) .nil)
  have hs : WellFormed loneStore := ReachableBy.empty.subscribed hb.parseable hb
  have hall := h loneStore bothCall ["b"] "m"
    [.adder, .adder, .publisher, .publisher, .publisher, .adder] hs hab.parseable
    (by decide +kernel)
  have hheld : loneStore.wrapper? "b" "c" = some (newWrapper "c" "addr" "NAME" ""
      (requiredOf [("b", 1)])) := (wrapper?_subscribed "b" "c").trans (if_pos ⟨rfl, rfl⟩)
  have hcount := hall ("b", "c") _ hheld "b" (by decide +kernel)
  revert hcount
  decide +kernel

end Adding

end TPST
