import TPST.Server.Reach
import TPST.Server.Walk

/-!
# A subscription while a publish is under way

`addNewClient` and `pubsubPublish` run at the same time. `addNewClient` enters its index event for
one event after the other in `getIndexMap`, and files its wrapper in `subtoClient` at last;
`pubsubPublish` copies an index set, then the rows it leads to one by one, and writes to the
wrappers through the pointers it has copied.

This is a model of the two calls under any interleaving of their atomic steps. The publish is a walk
(`walkStep`), with a pointer more than the store has. Each of the calls alone does what it does in
one go (`publisher_alone`, `adder_alone`).
-/

namespace TPST

open Std

namespace Adding

/-- A pointer to a wrapper: to the one filed at a place when the run begins, or to the one that
`addNewClient` allocates. -/
inductive Ref
  | old (p : Place)
  | new
  deriving DecidableEq, Repr

/-- The pointers to the wrappers that are filed when the run begins. -/
def refs : Pointers Ref where
  ptr := .old
  place?
    | .old p => some p
    | .new => none
  place?_eq_some q p := by cases q <;> simp

/-- The arguments of the call of `addNewClient`. -/
structure AddCall where
  clientid : String
  notifyAddr : String
  eventList : List String
  matchType : String
  subMetadata : String

/-- Where `addNewClient` is: about to enter the index event for the next event of the list or, at
its end, to file the wrapper. -/
inductive Adder
  | adding (index : String) (eventList : List String) (requiredeventMap : OMap String (OSet Int))
  | done

/-- The maps and the memory, and the two calls. -/
structure State where
  shared : Shared Ref
  adder : Adder
  publisher : Walk Ref

inductive Thread
  | adder
  | publisher
  deriving DecidableEq, Repr

/-- The next step of `addNewClient`. An exception of `ParseEvent` ends it. -/
def addStep (call : AddCall) (σ : State) : State :=
  let m := σ.shared
  match σ.adder with
  | .done => σ
  | .adding index (fullEvent :: eventList) requiredeventMap =>
    match parseEvent fullEvent with
    | .ok (event, num) =>
      { σ with
        shared := { m with getIndexMap := addIndex m.getIndexMap event index }
        adder := .adding index eventList (addRequired requiredeventMap event num) }
    | .error _ => { σ with adder := .done }
  | .adding index [] requiredeventMap =>
    { σ with
      shared := { m with
        subtoClient := OMap.insertCell m.subtoClient index call.clientid (some .new)
        heap := Function.update m.heap .new (some (newWrapper call.clientid call.notifyAddr
          call.matchType call.subMetadata requiredeventMap)) }
      adder := .done }

/-- The next step of `pubsubPublish` with match type `NAME`. No wrapper is deleted meanwhile. -/
def publishStep (metadata : String) (σ : State) : State :=
  let next := walkStep "NAME" metadata false (σ.publisher, σ.shared)
  { σ with publisher := next.1, shared := next.2 }

/-- A thread takes its next step; one that is done does nothing. -/
def step (call : AddCall) (metadata : String) : Thread → State → State
  | .adder => addStep call
  | .publisher => publishStep metadata

/-- `addNewClient` at its beginning. -/
def startAdder (eventList : List String) : Adder :=
  match eventList with
  | [] => .done
  | first :: _ =>
    match parseEvent first with
    | .ok (index, _) => .adding index eventList ∅
    | .error _ => .done

/-- The two calls at their beginning, on a store. -/
def start (call : AddCall) (published : List String) (s : Store) : State where
  shared := .stored refs s
  adder := startAdder call.eventList
  publisher := .events published

/-! ## Each call alone -/

section Alone

variable {call : AddCall} {metadata : String} {published : List String} {s : Store}

/-- The steps of a walk are steps of `pubsubPublish`. -/
theorem publishes_of_walks {σ : State} {next : Walk Ref × Shared Ref}
    (h : Walks "NAME" metadata (σ.publisher, σ.shared) next) :
    Schedule.Alone (step call metadata) .publisher σ
      { σ with publisher := next.1, shared := next.2 } := by
  obtain ⟨n, rfl⟩ := h
  refine ⟨n, ?_⟩
  induction n generalizing σ with
  | zero => rfl
  | succ n ih =>
    rw [List.replicate_succ, List.replicate_succ, Schedule.run_cons, Schedule.run_cons]
    exact ih

/-- **A publish that runs alone** does what `pubsubPublish` does. -/
theorem publisher_alone (call : AddCall) (metadata : String) (published : List String)
    (s : Store) :
    Schedule.Alone (step call metadata) .publisher (start call published s)
      { start call published s with
        shared := .stored refs (pubsubPublish published "NAME" metadata s).state
        publisher := .done } := by
  have hwalk := walk_alone refs "NAME" metadata published s
  have hname := isFault_pubsubPublish_NAME published metadata s
  cases hr : pubsubPublish published "NAME" metadata s with
  | next s' =>
    rw [hr] at hwalk
    exact publishes_of_walks (σ := start call published s) hwalk
  | ret s' =>
    rw [hr] at hwalk
    exact publishes_of_walks (σ := start call published s) hwalk
  | fault x s' =>
    rw [hr] at hname
    cases hname

/-- **A subscription that runs alone** leaves the maps of `addNewClient`, with a pointer to its
wrapper. -/
theorem adder_alone {req : String × Int} {reqs : List (String × Int)}
    (hparse : Parses call.eventList (req :: reqs)) :
    Schedule.run (step call metadata) (List.replicate (call.eventList.length + 1) .adder)
        (start call published s) =
      { start call published s with
        shared :=
          { getIndexMap := (s.subscribed call.clientid call.notifyAddr call.matchType
              call.subMetadata req reqs).getIndexMap
            subtoClient :=
              OMap.insertCell (Shared.stored refs s).subtoClient req.1 call.clientid (some .new)
            heap := Function.update (Shared.stored refs s).heap .new (some (newWrapper
              call.clientid call.notifyAddr call.matchType call.subMetadata
              (requiredOf (req :: reqs)))) }
        adder := .done } := by
  -- from any point of the loop on
  have hloop : ∀ {evs : List String} {reqs : List (String × Int)}, Parses evs reqs →
      ∀ (m : Shared Ref) (required : OMap String (OSet Int)),
        Schedule.run (step call metadata) (List.replicate (evs.length + 1) .adder)
            { start call published s with shared := m, adder := .adding req.1 evs required } =
          { start call published s with
            shared :=
              { getIndexMap := indexAll m.getIndexMap req.1 reqs
                subtoClient := OMap.insertCell m.subtoClient req.1 call.clientid (some .new)
                heap := Function.update m.heap .new (some (newWrapper call.clientid
                  call.notifyAddr call.matchType call.subMetadata
                  (reqs.foldl (fun m req => addRequired m req.1 req.2) required))) }
            adder := .done } := by
    intro evs reqs h
    induction h with
    | nil => exact fun _ _ => rfl
    | cons hev _ ih =>
      intro m required
      rw [List.length_cons, List.replicate_succ, Schedule.run_cons]
      simp only [step, addStep, hev]
      exact ih _ _
  have hstart : start call published s =
      { start call published s with adder := .adding req.1 call.eventList ∅ } := by
    obtain ⟨first, rest, hfirst, -, heq⟩ := List.forall₂_cons_right_iff.1 hparse
    simp only [start, startAdder, heq, hfirst]
  rw [hstart]
  exact hloop hparse (.stored refs s) ∅

end Alone

end Adding

end TPST
