import TPST.Server.Redistribute
import TPST.Server.Walk

/-!
# Clients removed while a publish is under way

`eventUnSubscribe` and `RedistributeSub` erase clients from the rows of `subtoClient`, under the
lock. A publish that has copied a row before goes on with the pointers it has copied; but to mark a
client that matched it looks the client up again, by `subtoClient[indexEvent][clientId]`, which
enters a null pointer for a client that is gone, and is followed at once.

This is a model of any number of publishes and removals under any interleaving of their atomic
steps. `nullFree_iff`: no null pointer is entered or followed exactly if every client is still there
when a publish comes to mark it.
-/

namespace TPST

open Std

/-- The arguments of a call of `pubsubPublish`. -/
structure PublishCall where
  eventList : List String
  matchType : String
  metadata : String
  deriving DecidableEq, Repr

namespace Removing

/-- Where `eventUnSubscribe` is: before either of its lookups, about to erase, or at its end. -/
inductive UnSubscribe
  | findEvent
  | findClient
  | erase
  | done
  deriving DecidableEq, Repr

/-- The arguments of a call of `eventUnSubscribe`. -/
structure UnSubscribeCall where
  event : String
  clientId : String
  deriving DecidableEq, Repr

/-- What the threads share, and the calls of the two functions. -/
structure State (ι κ : Type*) where
  shared : Shared Place
  walks : ι → Walk Place
  unSubscribes : κ → UnSubscribe

/-- What happens next: a call takes its next step, or `RedistributeSub` erases the entry it has come
to. -/
inductive Event (ι κ : Type*)
  | publish (i : ι) (stray : Bool)
  | unSubscribe (j : κ)
  | redistribute (event clientid : String)

variable {ι κ : Type*}

/-- The next step of `eventUnSubscribe`. -/
def unSubscribeStep (call : UnSubscribeCall) (pc : UnSubscribe) (m : Shared Place) :
    UnSubscribe × Shared Place :=
  match pc with
  | .findEvent => (if call.event ∈ m.subtoClient then .findClient else .done, m)
  | .findClient =>
    (if (OMap.cell m.subtoClient call.event call.clientId).isSome then .erase else .done, m)
  | .erase =>
    (.done, { m with subtoClient := OMap.eraseCell m.subtoClient call.event call.clientId })
  | .done => (.done, m)

/-- The locked section of `RedistributeSub`: the wrapper is deleted and its entry erased. -/
def redistributeStep (event clientid : String) (m : Shared Place) : Shared Place :=
  match OMap.cell m.subtoClient event clientid with
  | none => m
  | some psw =>
    { m with
      subtoClient := OMap.eraseCell m.subtoClient event clientid
      heap := match psw with
        | none => m.heap
        | some p => Function.update m.heap p none }

/-- One step. -/
def step [DecidableEq ι] [DecidableEq κ] (calls : ι → PublishCall)
    (removals : κ → UnSubscribeCall) (event : Event ι κ) (σ : State ι κ) : State ι κ :=
  match event with
  | .publish i stray =>
    let next := walkStep (calls i).matchType (calls i).metadata stray (σ.walks i, σ.shared)
    { σ with shared := next.2, walks := Function.update σ.walks i next.1 }
  | .unSubscribe j =>
    let next := unSubscribeStep (removals j) (σ.unSubscribes j) σ.shared
    { σ with shared := next.2, unSubscribes := Function.update σ.unSubscribes j next.1 }
  | .redistribute event clientid =>
    { σ with shared := redistributeStep event clientid σ.shared }

/-- The calls at their beginning, on a store. -/
def start (calls : ι → PublishCall) (s : Store) : State ι κ where
  shared := .ofStore s
  walks i := .events (calls i).eventList
  unSubscribes _ := .findEvent

/-- No null pointer has been followed, and there is none in `subtoClient`. -/
def NullFree (σ : State ι κ) : Prop :=
  (∀ i, σ.walks i ≠ .crashed) ∧ ∀ ix c, OMap.cell σ.shared.subtoClient ix c ≠ some none

/-- A publish that comes to mark a client finds it in its row. -/
def FindsClient (event : Event ι κ) (σ : State ι κ) : Prop :=
  match event with
  | .publish i _ =>
    match (σ.walks i).marks with
    | some p => OMap.cell σ.shared.subtoClient p.1 p.2 ≠ none
    | none => True
  | _ => True

instance (event : Event ι κ) (σ : State ι κ) : Decidable (FindsClient event σ) := by
  unfold FindsClient
  split
  · split <;> infer_instance
  · infer_instance

/-! ## A removal alone -/

section Alone

variable {s : Store}

theorem subtoClient_ofStore_eraseCell (s : Store) (event clientId : String)
    (s' : Store) (hs' : s'.subtoClient = OMap.eraseCell s.subtoClient event clientId) :
    (Shared.ofStore s').subtoClient =
      OMap.eraseCell (Shared.ofStore s).subtoClient event clientId := by
  refine OMap.ext_cell (fun ix => ?_) fun ix c => ?_
  · rw [OMap.mem_eraseCell]
    refine ExtTreeMap.mem_map.trans (Iff.trans ?_ ExtTreeMap.mem_map.symm)
    rw [hs', OMap.mem_eraseCell]
  · rw [OMap.cell_eraseCell, cell_ofStore, cell_ofStore, Store.wrapper?, hs',
      OMap.cell_eraseCell]
    split <;> rfl

/-- Erasing what is not there changes nothing. -/
theorem eraseCell_of_none {event clientId : String}
    (h : OMap.cell (Shared.ofStore s).subtoClient event clientId = none) :
    OMap.eraseCell (Shared.ofStore s).subtoClient event clientId =
      (Shared.ofStore s).subtoClient := by
  refine OMap.ext_cell (fun ix => OMap.mem_eraseCell) fun ix c => ?_
  rw [OMap.cell_eraseCell]
  split
  · rename_i hplace
    rw [← hplace.1, ← hplace.2, h]
  · rfl

/-- The erase step of `RedistributeSub` is that of its loop. -/
theorem redistributeStep_ofStore (s : Store) (event clientid : String) :
    redistributeStep event clientid (.ofStore s) = .ofStore (s.erase event clientid) := by
  have hmap := subtoClient_ofStore_eraseCell s event clientid (s.erase event clientid) rfl
  have hheap : ∀ p : Place, (Shared.ofStore (s.erase event clientid)).heap p =
      if event = p.1 ∧ clientid = p.2 then none else (Shared.ofStore s).heap p := fun p =>
    OMap.cell_eraseCell s.subtoClient event p.1 clientid p.2
  unfold redistributeStep
  have hcell := cell_ofStore s event clientid
  cases hw : s.wrapper? event clientid with
  | none =>
    rw [hw, Option.map_none] at hcell
    rw [hcell]
    ext1
    · rfl
    · rw [hmap, eraseCell_of_none hcell]
    · funext p
      rw [hheap]
      by_cases hplace : event = p.1 ∧ clientid = p.2
      · rw [if_pos hplace]
        change s.wrapper? p.1 p.2 = none
        rw [← hplace.1, ← hplace.2, hw]
      · rw [if_neg hplace]
  | some w =>
    rw [hw, Option.map_some] at hcell
    rw [hcell]
    ext1
    · rfl
    · exact hmap.symm
    · funext p
      rw [hheap]
      dsimp only
      rw [Function.update_apply]
      by_cases hp : p = (event, clientid)
      · simp [hp]
      · rw [if_neg hp, if_neg fun h => hp (Prod.ext h.1.symm h.2.symm)]

/-- A call of `eventUnSubscribe` that runs alone leaves the maps of `eventUnSubscribe`. -/
theorem unSubscribe_alone (call : UnSubscribeCall) (s : Store) :
    let first := unSubscribeStep call .findEvent (.ofStore s)
    let second := unSubscribeStep call first.1 first.2
    let third := unSubscribeStep call second.1 second.2
    third.1 = .done ∧
      third.2.subtoClient =
        (Shared.ofStore (eventUnSubscribe call.event call.clientId s)).subtoClient := by
  have hcell := cell_ofStore s call.event call.clientId
  unfold eventUnSubscribe
  cases hw : s.wrapper? call.event call.clientId with
  | none =>
    rw [hw, Option.map_none] at hcell
    by_cases hrow : call.event ∈ (Shared.ofStore s).subtoClient <;>
      simp [unSubscribeStep, hrow, hcell]
  | some w =>
    rw [hw, Option.map_some] at hcell
    have hrow : call.event ∈ (Shared.ofStore s).subtoClient := OMap.mem_of_cell hcell
    simp only [unSubscribeStep, hrow, hcell, ↓reduceIte, Option.isSome_some, true_and]
    exact (subtoClient_ofStore_eraseCell s call.event call.clientId _ rfl).symm

end Alone

/-! ## Null pointers -/

/-- Nor has any publish copied one. -/
structure Inv (σ : State ι κ) : Prop where
  nullFree : NullFree σ
  copied : ∀ i, (σ.walks i).NonNull

section Steps

variable [DecidableEq ι] [DecidableEq κ] {σ : State ι κ} {calls : ι → PublishCall}
  {removals : κ → UnSubscribeCall} {m : Shared Place}

theorem ne_null_eraseCell (h : ∀ ix c, OMap.cell m.subtoClient ix c ≠ some none)
    (event clientid ix c : String) :
    OMap.cell (OMap.eraseCell m.subtoClient event clientid) ix c ≠ some none := by
  rw [OMap.cell_eraseCell]
  split
  · simp
  · exact h ix c

theorem ne_null_unSubscribeStep (h : ∀ ix c, OMap.cell m.subtoClient ix c ≠ some none)
    (call : UnSubscribeCall) (pc : UnSubscribe) (ix c : String) :
    OMap.cell (unSubscribeStep call pc m).2.subtoClient ix c ≠ some none := by
  cases pc with
  | erase => exact ne_null_eraseCell h _ _ ix c
  | _ => exact h ix c

theorem ne_null_redistributeStep (h : ∀ ix c, OMap.cell m.subtoClient ix c ≠ some none)
    (event clientid ix c : String) :
    OMap.cell (redistributeStep event clientid m).subtoClient ix c ≠ some none := by
  unfold redistributeStep
  split
  · exact h ix c
  · exact ne_null_eraseCell h _ _ ix c

/-- A publish that finds its client in the row keeps to pointers that are not null. -/
theorem Inv.publish (h : Inv σ) {i : ι} {stray : Bool}
    (hfinds : FindsClient (.publish i stray : Event ι κ) σ) :
    Inv (step calls removals (.publish i stray) σ) := by
  have hmarks : ∀ p, (σ.walks i).marks = some p →
      ∃ q, OMap.cell σ.shared.subtoClient p.1 p.2 = some (some q) := by
    intro p hp
    rw [FindsClient, hp] at hfinds
    cases hcell : OMap.cell σ.shared.subtoClient p.1 p.2 with
    | none => exact absurd hcell hfinds
    | some psw =>
      cases psw with
      | none => exact absurd hcell (h.nullFree.2 _ _)
      | some q => exact ⟨q, rfl⟩
  obtain ⟨hwalk, hmap⟩ := @walkStep_ne_crashed Place _ (calls i).matchType (calls i).metadata
    stray (σ.walks i) σ.shared (h.copied i) (h.nullFree.1 i) hmarks
  refine ⟨⟨fun j => ?_, fun ix c => ?_⟩, fun j => ?_⟩
  · dsimp only [step]
    rw [Function.update_apply]
    split
    · exact hwalk
    · exact h.nullFree.1 j
  · dsimp only [step]
    rw [hmap]
    exact h.nullFree.2 ix c
  · dsimp only [step]
    rw [Function.update_apply]
    split
    · exact nonNull_walkStep (h.copied i) h.nullFree.2
    · exact h.copied j

/-- **A step that finds its client keeps the invariant.** -/
theorem Inv.step (h : Inv σ) {event : Event ι κ} (hfinds : FindsClient event σ) :
    Inv (step calls removals event σ) := by
  cases event with
  | publish i stray => exact h.publish hfinds
  | unSubscribe j =>
    exact ⟨⟨h.nullFree.1, fun ix c => ne_null_unSubscribeStep h.nullFree.2 _ _ ix c⟩, h.copied⟩
  | redistribute event clientid =>
    exact ⟨⟨h.nullFree.1, fun ix c => ne_null_redistributeStep h.nullFree.2 _ _ ix c⟩, h.copied⟩

/-- A publish that does not find the client it comes to mark follows a null pointer. -/
theorem findsClient_of_nullFree {event : Event ι κ}
    (hgood : NullFree (Removing.step calls removals event σ)) : FindsClient event σ := by
  unfold FindsClient
  split
  · rename_i i stray
    split
    · rename_i p hp
      intro hcell
      apply hgood.1 i
      dsimp only [Removing.step]
      rw [Function.update_self]
      exact walkStep_crashed hp hcell
    · trivial
  · trivial

end Steps

theorem inv_start (calls : ι → PublishCall) (s : Store) :
    Inv (start calls s : State ι κ) where
  nullFree := by
    refine ⟨fun i => by simp [start], fun ix c => ?_⟩
    rw [start, cell_ofStore]
    cases s.wrapper? ix c <;> simp
  copied i entry hentry := by cases hentry

/-- **When no null pointer is entered or followed**: exactly if every client is still in its row
when a publish comes to mark it. -/
theorem nullFree_iff [DecidableEq ι] [DecidableEq κ] (calls : ι → PublishCall)
    (removals : κ → UnSubscribeCall) (s : Store) (events : List (Event ι κ)) :
    Schedule.Always (step calls removals) NullFree events (start calls s) ↔
      Schedule.Along (step calls removals) FindsClient events (start calls s) :=
  Schedule.always_iff_along (fun (σ : State ι κ) (h : Inv σ) => h.nullFree)
    (fun _ _ h hfinds => h.step hfinds) (fun _ _ _ hgood => findsClient_of_nullFree hgood)
    (inv_start calls s) events

/-- A client that unsubscribes between the test and the mark of a publish. -/
theorem nullFree_fails :
    ¬ ∀ (calls : Unit → PublishCall) (removals : Unit → UnSubscribeCall) (s : Store),
      Reachable s → ∀ events : List (Event Unit Unit),
        Schedule.Always (step calls removals) NullFree events (start calls s) := by
  intro h
  have hparse : Parses ["a"] [("a", 1)] := .cons (by decide +kernel) .nil
  have hs : Reachable (Store.empty.subscribed "c" "addr" "NAME" "md" ("a", 1) []) :=
    ReachableBy.empty.subscribed trivial hparse
  have hgood := (h (fun _ => ⟨["a"], "NAME", "m"⟩) (fun _ => ⟨"a", "c"⟩) _ hs
    [.publish () false, .publish () false, .publish () false, .publish () false,
      .publish () false, .unSubscribe (), .unSubscribe (), .unSubscribe (),
      .publish () false]).run
  exact hgood.1 () (by decide +kernel)

end Removing

end TPST
