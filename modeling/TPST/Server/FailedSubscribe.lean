import TPST.Server.Reach

/-!
# Subscriptions that fail

`addNewClient` enters the index event for one event of its list after the other, as it parses them,
and files the wrapper at the end. When `ParseEvent` raises for one of the events, the entries made
for those before it stay: the index map then leads to an index event that may have no row in
`subtoClient`, and a publish that comes upon it returns early, before it has counted for the
clients filed under later index events.

`addNewClient_of_isFault` says what a failed subscription leaves, and `leavesNoTrace_iff` when that
is the store it found.
-/

namespace TPST

open Std

/-- The events of a list that parse, up to the first that does not. -/
def parsedPrefix : List String → List (String × Int)
  | [] => []
  | ev :: evs =>
    match parseEvent ev with
    | .ok req => req :: parsedPrefix evs
    | .error _ => []

/-- The index map after a subscription that entered `reqs` and then failed. -/
def indexPrefix (m : OMap String (OSet String)) : List (String × Int) → OMap String (OSet String)
  | [] => m
  | req :: reqs => indexAll m req.1 (req :: reqs)

/-- The subscription leaves the store as it found it, and every later publish does to every client
what it would have done without it. -/
def LeavesNoTrace (c addr : String) (evs : List String) (mt md : String) (s : Store) : Prop :=
  (addNewClient c addr evs mt md s).state.getIndexMap = s.getIndexMap ∧
    (addNewClient c addr evs mt md s).state.subtoClient = s.subtoClient ∧
    ∀ L mt' md' ix c',
      (pubsubPublish L mt' md' (addNewClient c addr evs mt md s).state).state.wrapper? ix c' =
        (pubsubPublish L mt' md' s).state.wrapper? ix c'

section Failed

variable {c addr mt md : String} {evs : List String} {s : Store}

/-- The loop of a subscription enters what it parses. -/
theorem state_forEach_requireEvent (index : String) (evs : List String)
    (m : OMap String (OSet String)) (required : OMap String (OSet Int)) :
    (Flow.forEach (requireEvent index) evs (m, required)).state.1 =
      indexAll m index (parsedPrefix evs) := by
  induction evs generalizing m required with
  | nil => rfl
  | cons ev evs ih =>
    rw [Flow.forEach_cons, requireEvent, parsedPrefix]
    cases hparse : parseEvent ev with
    | error x => rfl
    | ok req =>
      dsimp only
      rw [Flow.next_andThen, ih]
      rfl

/-- **What a failed subscription leaves**: the wrappers as they were, and the index entries made
before the fault. -/
theorem addNewClient_of_isFault (hfault : (addNewClient c addr evs mt md s).isFault = true) :
    (addNewClient c addr evs mt md s).state =
      { s with getIndexMap := indexPrefix s.getIndexMap (parsedPrefix evs) } := by
  cases evs with
  | nil => cases hfault
  | cons first rest =>
    rw [addNewClient] at hfault ⊢
    cases hparse : parseEvent first with
    | error x =>
      rw [parsedPrefix, hparse]
      rfl
    | ok req =>
      simp only [hparse] at hfault ⊢
      have hloop := state_forEach_requireEvent req.1 (first :: rest) s.getIndexMap ∅
      have hparsed : parsedPrefix (first :: rest) = req :: parsedPrefix rest := by
        rw [parsedPrefix, hparse]
      cases hr : Flow.forEach (requireEvent req.1) (first :: rest) (s.getIndexMap, ∅) with
      | next st => simp [hr] at hfault
      | ret st => simp [hr] at hfault
      | fault x st =>
        rw [hr, Flow.state_fault, hparsed] at hloop
        rw [hparsed, indexPrefix, ← hloop]
        rfl

/-- An entry that is there already makes no difference. -/
theorem addIndex_eq_self {m : OMap String (OSet String)} {e ix : String}
    (h : ∃ set, m[e]? = some set ∧ ix ∈ set) : addIndex m e ix = m := by
  obtain ⟨set, hset, hix⟩ := h
  have hinsert : set.insert ix = set := by
    apply ExtTreeSet.ext_mem
    intro k
    rw [ExtTreeSet.mem_insert, Std.compare_eq_iff_eq]
    constructor
    · rintro (rfl | hk)
      · exact hix
      · exact hk
    · exact .inr
  apply ExtTreeMap.ext_getElem?
  intro k
  rw [addIndex, ExtTreeMap.getElem?_alter]
  by_cases hk : e = k
  · subst hk
    simp [hset, hinsert]
  · simp [hk]

theorem indexAll_eq_self_iff {m : OMap String (OSet String)} {ix : String}
    {reqs : List (String × Int)} :
    indexAll m ix reqs = m ↔ ∀ req ∈ reqs, ∃ set, m[req.1]? = some set ∧ ix ∈ set := by
  constructor
  · intro h req hreq
    rw [← h]
    exact mem_indexAll.2 (.inl ⟨rfl, List.mem_map_of_mem hreq⟩)
  · intro h
    induction reqs with
    | nil => rfl
    | cons req reqs ih =>
      rw [indexAll, List.foldl_cons, addIndex_eq_self (h req (by simp))]
      exact ih fun req' hreq' => h req' (by simp [hreq'])

/-- **When a failed subscription leaves no trace**: its first event does not parse, or each event
before the first that does not leads to the index event of the list already. -/
theorem leavesNoTrace_iff (hfault : (addNewClient c addr evs mt md s).isFault = true) :
    LeavesNoTrace c addr evs mt md s ↔
      ∀ index ∈ (parsedPrefix evs).head?, ∀ req ∈ parsedPrefix evs,
        index.1 ∈ s.indexEvents req.1 := by
  have hstate := addNewClient_of_isFault hfault
  have hindex : indexPrefix s.getIndexMap (parsedPrefix evs) = s.getIndexMap ↔
      ∀ index ∈ (parsedPrefix evs).head?, ∀ req ∈ parsedPrefix evs,
        index.1 ∈ s.indexEvents req.1 := by
    cases parsedPrefix evs with
    | nil => simp [indexPrefix]
    | cons req reqs =>
      rw [indexPrefix, indexAll_eq_self_iff]
      simp only [List.head?_cons, Option.mem_def, Option.some.injEq, forall_eq',
        Store.mem_indexEvents]
  rw [← hindex, LeavesNoTrace, hstate]
  constructor
  · exact fun h => h.1
  · intro h
    rw [h]
    exact ⟨rfl, rfl, fun _ _ _ _ _ => rfl⟩

end Failed

/-- The store after a subscription to `b`. -/
def loneStore : Store := Store.empty.subscribed "c" "addr" "NAME" "" ("b", 1) []

theorem reachable_loneStore : Reachable loneStore :=
  have hb : Parses ["b"] [("b", 1)] := .cons (by decide +kernel) .nil
  ReachableBy.empty.subscribed trivial hb

theorem leavesNoTrace_loneStore : LeavesNoTrace "d" "addr'" ["b", "x:y"] "NAME" "" loneStore := by
  apply (leavesNoTrace_iff (by decide +kernel)).2
  have hparsed : parsedPrefix ["b", "x:y"] = [("b", 1)] := by decide +kernel
  rw [hparsed]
  simp only [List.head?_cons, Option.mem_def, Option.some.injEq, forall_eq', List.mem_singleton,
    forall_eq]
  decide +kernel

/-- A subscription to `a`, `b` and `x:y` fails, and a publish of `b` no longer comes to the client
that was subscribed to it before. -/
theorem leavesNoTrace_fails :
    ¬ ∀ s : Store, Reachable s → ∀ (c addr : String) (evs : List String) (mt md : String),
      evs ≠ [] → (addNewClient c addr evs mt md s).isFault = true →
        LeavesNoTrace c addr evs mt md s := by
  intro h
  obtain ⟨-, -, hlater⟩ := h loneStore reachable_loneStore "d" "addr'" ["a", "b", "x:y"] "NAME" ""
    (by decide) (by decide +kernel)
  have hcount := congrArg (Option.map fun w => w.published "b") (hlater ["b"] "NAME" "m" "b" "c")
  revert hcount
  decide +kernel

end TPST
