import TPST.Server.Reach

/-!
# Moving subscriptions to another server

`RedistributeSub` takes subscriptions out of one row of `subtoClient` and subscribes their clients
at the destination. Its loop erases the entry under the iterator and advances, and the loop header
advances once more, so that every other entry stays; and it stops early only if the number taken
comes to equal `diff`.

`redistributeLoop_eq` says what the loop does in terms of the entries it takes (`taken`) and of
whether it advances beyond the end (`overruns`), `length_taken` and `overruns_iff` count them, and
`movesExactly_iff` says for which `diff` the right number of subscriptions is moved.
-/

namespace TPST

open Std

/-- `SimplepubsubWrapper`. -/
structure SimplepubsubWrapper where
  eventList : List String
  peerURL : String
  clientID : String
  subMetadata : String
  deriving DecidableEq, Repr

/-- `getSimplepubsubWrapper`, which keeps the names of the required events only. -/
def getSimplepubsubWrapper (psw : PubsubWrapper) : SimplepubsubWrapper where
  eventList := psw.requiredeventMap.keys
  peerURL := psw.peerURL
  clientID := psw.clientID
  subMetadata := psw.subMetadata

/-- A call of `Subscribe` on another server. -/
structure SubscribeCall where
  server : String
  eventList : List String
  clientid : String
  notifyAddr : String
  source : String
  matchType : String
  metadata : String
  deriving DecidableEq, Repr

/-- The call `RedistributeSub` makes for a subscription it has taken. -/
def subscribeCall (dstAddr : String) (temppsw : SimplepubsubWrapper) : SubscribeCall where
  server := dstAddr
  eventList := temppsw.eventList
  clientid := temppsw.clientID
  notifyAddr := temppsw.peerURL
  source := "SERVERINGROUP"
  matchType := "NAME"
  metadata := "testMeta"

namespace Store

/-- The row at `event`, in map order. -/
def entries (s : Store) (event : String) : List (String × PubsubWrapper) :=
  (s.subtoClient[event]?.map fun row => row.toList).getD []

/-- `subtoClient[event].erase(clientid)`. -/
def erase (s : Store) (event clientid : String) : Store :=
  { s with subtoClient := OMap.eraseCell s.subtoClient event clientid }

end Store

/-- The loop of `RedistributeSub`, from the entry under the iterator on. An iterator at the end of
the map cannot be advanced. -/
def redistributeLoop (event : String) (diff : Int) :
    List (String × PubsubWrapper) → Int → Store × List SimplepubsubWrapper →
      Flow Fault (Store × List SimplepubsubWrapper)
  | [], _, st => .next st
  | (clientid, psw) :: itera, count, (s, spsw) =>
    let st := (s.erase event clientid, spsw ++ [getSimplepubsubWrapper psw])
    if count + 1 = diff then .next st
    else
      match itera with
      | [] => .fault .undefinedBehaviour st
      | _ :: itera => redistributeLoop event diff itera (count + 1) st

/-- `RedistributeSub`: the store it leaves and the calls it makes. The source address is printed
only. -/
def redistributeSub (event _srcAddr dstAddr : String) (diff : Int) (s : Store) :
    Flow Fault (Store × List SubscribeCall) :=
  if event ∈ s.subtoClient then
    match redistributeLoop event diff (s.entries event) 0 (s, []) with
    | .next (s', spsw) => .next (s', spsw.map (subscribeCall dstAddr))
    | .ret (s', _) => .ret (s', [])
    | .fault e (s', _) => .fault e (s', [])
  else .ret (s, [])

/-! ## Which entries are taken -/

section Taken

variable {α β : Type*} (diff : Int)

/-- The entries the loop takes: every other one, until `diff` are taken. -/
def taken : Int → List α → List α
  | _, [] => []
  | _, [a] => [a]
  | count, a :: _ :: l => if count + 1 = diff then [a] else a :: taken (count + 1) l

/-- The loop advances beyond the end. -/
def overruns : Int → List α → Bool
  | _, [] => false
  | count, [_] => count + 1 ≠ diff
  | count, _ :: _ :: l => if count + 1 = diff then false else overruns (count + 1) l

variable {diff} {count : Int}

theorem taken_sublist (l : List α) : (taken diff count l).Sublist l := by
  induction count, l using taken.induct diff with
  | case1 count => exact .slnil
  | case2 count a => exact .refl _
  | case3 count a b l hlast => simp [taken, hlast]
  | case4 count a b l hne ih =>
    rw [taken, if_neg hne]
    exact (ih.cons b).cons_cons a

/-- **How many entries are taken.** -/
theorem length_taken (l : List α) :
    ((taken diff count l).length : Int) =
      if count < diff ∧ 2 * (diff - count) ≤ l.length + 1 then diff - count
      else (l.length + 1) / 2 := by
  induction count, l using taken.induct diff with
  | case1 count => simp [taken]; omega
  | case2 count a => simp [taken]; omega
  | case3 count a b l hlast =>
    rw [taken, if_pos hlast, if_pos (by simp only [List.length_cons]; omega)]
    simp only [List.length_singleton]
    omega
  | case4 count a b l hne ih =>
    rw [taken, if_neg hne, List.length_cons, Int.natCast_add, ih]
    simp only [List.length_cons, Int.natCast_add, Int.natCast_one]
    split <;> split <;> omega

/-- **When the loop advances beyond the end**: the row has an odd number of entries, and `diff` is
not reached in time. -/
theorem overruns_iff (l : List α) :
    overruns diff count l = true ↔
      (l.length : Int) % 2 = 1 ∧ ¬(count < diff ∧ 2 * (diff - count) ≤ l.length + 1) := by
  induction count, l using taken.induct diff with
  | case1 count => simp [overruns]
  | case2 count a => simp [overruns]; omega
  | case3 count a b l hlast =>
    simp only [overruns, if_pos hlast, Bool.false_eq_true, List.length_cons, false_iff]
    omega
  | case4 count a b l hne ih =>
    rw [overruns, if_neg hne, ih]
    simp only [List.length_cons, Int.natCast_add, Int.natCast_one]
    omega

end Taken

/-! ## What the loop does -/

/-- Erase the entries of the clients in a list. -/
def Store.eraseAll (s : Store) (event : String) (clients : List String) : Store :=
  clients.foldl (fun s clientid => s.erase event clientid) s

theorem wrapper?_eraseAll (s : Store) (event ix c : String) (clients : List String) :
    (s.eraseAll event clients).wrapper? ix c =
      if ix = event ∧ c ∈ clients then none else s.wrapper? ix c := by
  induction clients generalizing s with
  | nil => simp [Store.eraseAll]
  | cons c' clients ih =>
    rw [Store.eraseAll, List.foldl_cons, ← Store.eraseAll, ih, Store.erase, Store.wrapper?,
      OMap.cell_eraseCell]
    simp only [List.mem_cons]
    by_cases hix : ix = event
    · by_cases hc : c = c'
      · simp [hix, hc]
      · by_cases hmem : c ∈ clients
        · simp [hix, hmem]
        · simp [hix, hc, hmem, Ne.symm hc, Store.wrapper?]
    · simp [hix, Ne.symm hix, Store.wrapper?]

@[simp] theorem getIndexMap_eraseAll (s : Store) (event : String) (clients : List String) :
    (s.eraseAll event clients).getIndexMap = s.getIndexMap := by
  induction clients generalizing s with
  | nil => rfl
  | cons c clients ih => exact ih (s.erase event c)

@[simp] theorem mem_eraseAll {s : Store} {event ix : String} {clients : List String} :
    ix ∈ (s.eraseAll event clients).subtoClient ↔ ix ∈ s.subtoClient := by
  induction clients generalizing s with
  | nil => rfl
  | cons c clients ih => exact ih.trans OMap.mem_eraseCell

/-- **The loop takes the entries `taken`**, and faults if it `overruns`. -/
theorem redistributeLoop_eq (event : String) (diff count : Int)
    (itera : List (String × PubsubWrapper)) (s : Store) (spsw : List SimplepubsubWrapper) :
    redistributeLoop event diff itera count (s, spsw) =
      if overruns diff count itera then
        .fault .undefinedBehaviour (s.eraseAll event ((taken diff count itera).map Prod.fst),
          spsw ++ (taken diff count itera).map fun entry => getSimplepubsubWrapper entry.2)
      else
        .next (s.eraseAll event ((taken diff count itera).map Prod.fst),
          spsw ++ (taken diff count itera).map fun entry => getSimplepubsubWrapper entry.2) := by
  induction count, itera using taken.induct diff generalizing s spsw with
  | case1 count => simp [redistributeLoop, overruns, taken, Store.eraseAll]
  | case2 count a =>
    obtain ⟨c, psw⟩ := a
    by_cases hlast : count + 1 = diff
    all_goals simp [redistributeLoop, overruns, taken, Store.eraseAll, hlast]
  | case3 count a b l hlast =>
    simp [redistributeLoop, overruns, taken, Store.eraseAll, hlast]
  | case4 count a b l hne ih =>
    rw [redistributeLoop, if_neg hne, taken, if_neg hne, overruns, if_neg hne]
    simp only [ih, List.map_cons, List.append_assoc, List.singleton_append]
    rfl

/-! ## The request -/

/-- `RedistributeSub` does what it is asked to: without fault it takes the right number of
subscriptions out of the row, subscribes each of their clients at the destination, once and with
its own terms, and leaves all others alone. -/
def MovesExactly (event srcAddr dstAddr : String) (diff : Int) (s : Store) : Prop :=
  (redistributeSub event srcAddr dstAddr diff s).isFault = false ∧
  ∃ moved : List String, moved.Nodup ∧ (∀ c ∈ moved, c ∈ s.clients event) ∧
    (moved.length : Int) = min (max diff 0) (s.clients event).length ∧
    (redistributeSub event srcAddr dstAddr diff s).state.2.map (·.clientid) = moved ∧
    (∀ call ∈ (redistributeSub event srcAddr dstAddr diff s).state.2,
      ∃ w, s.wrapper? event call.clientid = some w ∧
        call = subscribeCall dstAddr (getSimplepubsubWrapper w)) ∧
    ∀ ix c, (redistributeSub event srcAddr dstAddr diff s).state.1.wrapper? ix c =
      if ix = event ∧ c ∈ moved then none else s.wrapper? ix c

section Moves

variable {s : Store} {event srcAddr dstAddr : String} {diff : Int}

theorem map_fst_entries (s : Store) (event : String) :
    (s.entries event).map Prod.fst = s.clients event := by
  unfold Store.entries Store.clients OMap.rowKeys
  cases s.subtoClient[event]? with
  | none => rfl
  | some row => exact ExtTreeMap.map_fst_toList_eq_keys

theorem mem_entries {c : String} {w : PubsubWrapper} :
    (c, w) ∈ s.entries event ↔ s.wrapper? event c = some w := by
  unfold Store.entries Store.wrapper? OMap.cell
  cases s.subtoClient[event]? with
  | none => simp
  | some row => simp [ExtTreeMap.mem_toList_iff_getElem?_eq_some]

theorem entries_of_notMem (h : event ∉ s.subtoClient) : s.entries event = [] := by
  rw [Store.entries, ExtTreeMap.getElem?_eq_none h]
  rfl

/-- What the request does, whether its row exists or not. -/
theorem redistributeSub_eq :
    (redistributeSub event srcAddr dstAddr diff s).isFault = overruns diff 0 (s.entries event) ∧
    (redistributeSub event srcAddr dstAddr diff s).state.1 =
      s.eraseAll event ((taken diff 0 (s.entries event)).map Prod.fst) ∧
    (overruns diff 0 (s.entries event) = false →
      (redistributeSub event srcAddr dstAddr diff s).state.2 =
        (taken diff 0 (s.entries event)).map fun entry =>
          subscribeCall dstAddr (getSimplepubsubWrapper entry.2)) := by
  unfold redistributeSub
  by_cases hrow : event ∈ s.subtoClient
  · rw [if_pos hrow, redistributeLoop_eq]
    cases overruns diff 0 (s.entries event) <;> simp
  · rw [if_neg hrow, entries_of_notMem hrow]
    simp [overruns, taken, Store.eraseAll]

theorem length_entries : (s.entries event).length = (s.clients event).length := by
  rw [← map_fst_entries, List.length_map]

/-- The clients taken are different clients of the row. -/
theorem taken_clients :
    ((taken diff 0 (s.entries event)).map Prod.fst).Nodup ∧
      ∀ c ∈ (taken diff 0 (s.entries event)).map Prod.fst, c ∈ s.clients event := by
  have hsub := (@taken_sublist _ diff 0 (s.entries event)).map Prod.fst
  rw [map_fst_entries] at hsub
  exact ⟨(OMap.nodup_rowKeys _ _).sublist hsub, fun c hc => hsub.subset hc⟩

/-- **Each client taken is subscribed once at the destination**, with its own terms. -/
theorem calls_of_not_overruns (hs : Reachable s)
    (hok : overruns diff 0 (s.entries event) = false) :
    (redistributeSub event srcAddr dstAddr diff s).state.2.map (·.clientid) =
        (taken diff 0 (s.entries event)).map Prod.fst ∧
      ∀ call ∈ (redistributeSub event srcAddr dstAddr diff s).state.2,
        ∃ w, s.wrapper? event call.clientid = some w ∧
          call = subscribeCall dstAddr (getSimplepubsubWrapper w) := by
  have hwrapper : ∀ entry ∈ taken diff 0 (s.entries event),
      s.wrapper? event entry.1 = some entry.2 := fun entry hentry =>
    mem_entries.1 ((taken_sublist _).subset hentry)
  have hid : ∀ entry ∈ taken diff 0 (s.entries event),
      (subscribeCall dstAddr (getSimplepubsubWrapper entry.2)).clientid = entry.1 :=
    fun entry hentry => hs.filed.clientID (hwrapper entry hentry)
  rw [redistributeSub_eq.2.2 hok, List.map_map]
  constructor
  · exact List.map_congr_left hid
  · intro call hcall
    obtain ⟨entry, hentry, rfl⟩ := List.mem_map.1 hcall
    exact ⟨entry.2, hid entry hentry ▸ hwrapper entry hentry, rfl⟩

/-- **For which numbers the right number of subscriptions is moved**: the row is empty, or the
number is positive and the loop meets it before the entries it skips use up the row. -/
theorem movesExactly_iff (hs : Reachable s) :
    MovesExactly event srcAddr dstAddr diff s ↔
      (s.clients event).length = 0 ∨
        (1 ≤ diff ∧ 2 * diff ≤ (s.clients event).length + 1) := by
  obtain ⟨hfault, hstore, -⟩ := @redistributeSub_eq s event srcAddr dstAddr diff
  have htaken := @length_taken _ diff 0 (s.entries event)
  have hover := @overruns_iff _ diff 0 (s.entries event)
  rw [length_entries] at htaken hover
  constructor
  · rintro ⟨hok, moved, -, -, hmoved, hclients, -⟩
    rw [hfault] at hok
    rw [(calls_of_not_overruns hs hok).1] at hclients
    rw [← hclients, List.length_map, htaken] at hmoved
    rw [← Bool.not_eq_true, hover] at hok
    split at hmoved <;> omega
  · intro hcond
    have hok : overruns diff 0 (s.entries event) = false := by
      rw [← Bool.not_eq_true, hover]
      omega
    have hlength : (((taken diff 0 (s.entries event)).map Prod.fst).length : Int) =
        min (max diff 0) (s.clients event).length := by
      rw [List.length_map, htaken]
      split <;> omega
    obtain ⟨hcalls, hterms⟩ := calls_of_not_overruns hs hok
    refine ⟨hfault.trans hok, _, taken_clients.1, taken_clients.2, hlength, hcalls, hterms, ?_⟩
    intro ix c
    rw [hstore, wrapper?_eraseAll]

end Moves

/-- The store after two subscriptions to `a`. -/
def rowStore : Store :=
  (Store.empty.subscribed "c" "addr" "NAME" "" ("a", 1) []).subscribed "d" "addr'" "NAME" ""
    ("a", 1) []

theorem reachable_rowStore : Reachable rowStore := by
  have ha : Parses ["a"] [("a", 1)] := .cons (by decide +kernel) .nil
  exact (ReachableBy.empty.subscribed trivial ha).subscribed trivial ha

theorem movesExactly_rowStore : MovesExactly "a" "src" "dst" 1 rowStore :=
  (movesExactly_iff reachable_rowStore).2 (.inr (by decide +kernel))

/-- Asked to move two of two subscriptions, the loop skips one. -/
theorem movesExactly_fails :
    ¬ ∀ s : Store, Reachable s → ∀ (event srcAddr dstAddr : String) (diff : Int),
      MovesExactly event srcAddr dstAddr diff s := by
  intro h
  obtain ⟨-, moved, -, -, hlen, hclients, -⟩ := h rowStore reachable_rowStore "a" "src" "dst" 2
  have hcalls : (redistributeSub "a" "src" "dst" 2 rowStore).state.2.map (·.clientid) = ["c"] := by
    decide +kernel
  have hrow : (rowStore.clients "a").length = 2 := by decide +kernel
  rw [← hclients, hcalls, hrow] at hlen
  exact absurd hlen (by decide)

end TPST
