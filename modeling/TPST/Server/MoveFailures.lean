import TPST.Server.Moving

/-!
# Moves whose calls fail

`RedistributeSub` takes the subscriptions out of its own store first and makes the calls to the
destination afterwards. When a call fails it prints a message, and the subscription is gone.
`losesNone_iff` says that a move loses no client exactly if every call is answered.
-/

namespace TPST

open Std

/-- How a call goes: it is answered, it does not reach the server, or its answer is lost. -/
inductive Rpc
  | answered
  | lost
  | unanswered
  deriving DecidableEq, Repr

/-- The message in the reply of `Subscribe`, which leaves it empty when it refuses the client. -/
def subscribeReply (call : SubscribeCall) : String :=
  if call.clientid = "" then "" else "SUBSCRIBED"

/-- `GreeterClient::Subscribe`: the destination's store and the reply. -/
def subscribeRpc (rpc : Rpc) (call : SubscribeCall) (d : Store) : Store × String :=
  match rpc with
  | .answered => (call.handle d, subscribeReply call)
  | .lost => (d, "RPC failed")
  | .unanswered => (call.handle d, "RPC failed")

/-- The calls, the `i`-th of which goes as `rpcs i`: the destination's store, and the reply for each
client. -/
def subscribeRpcs (rpcs : ℕ → Rpc) : List SubscribeCall → Store → Store × List (String × String)
  | [], d => (d, [])
  | call :: calls, d =>
    let done := subscribeRpc (rpcs 0) call d
    let others := subscribeRpcs (fun i => rpcs (i + 1)) calls done.1
    (others.1, (call.clientid, done.2) :: others.2)

/-- No client is lost: after the request everyone who was subscribed is held by the source or by the
destination, and those without a reply `SUBSCRIBED` are still in the row at the source. -/
structure LosesNone (event srcAddr dstAddr : String) (diff : Int) (rpcs : ℕ → Rpc)
    (s d : Store) : Prop where
  held : ∀ ix, ∀ c ∈ s.clients ix,
    c ∈ (redistributeSub event srcAddr dstAddr diff s).state.1.clients ix ∨
      ∃ ix', c ∈ (subscribeRpcs rpcs
        (redistributeSub event srcAddr dstAddr diff s).state.2 d).1.clients ix'
  kept : ∀ c reply, (c, reply) ∈ (subscribeRpcs rpcs
      (redistributeSub event srcAddr dstAddr diff s).state.2 d).2 → reply ≠ "SUBSCRIBED" →
    c ∈ (redistributeSub event srcAddr dstAddr diff s).state.1.clients event

/-- How many of `n` subscriptions the request takes. -/
def movedCount (diff : Int) (n : ℕ) : ℕ :=
  if 0 < diff ∧ 2 * diff ≤ n + 1 then diff.toNat else (n + 1) / 2

/-- Every call is answered, and for a client with an id: the `i`-th call is for the client at
position `2 * i` of the row. -/
def AllAnswered (event : String) (diff : Int) (rpcs : ℕ → Rpc) (s : Store) : Prop :=
  ∀ i < movedCount diff (s.clients event).length,
    rpcs i = .answered ∧ (s.clients event)[2 * i]? ≠ some ""

/-! ## The calls -/

section Calls

variable {rpcs : ℕ → Rpc} {calls : List SubscribeCall} {d : Store}

theorem getElem?_taken {α : Type*} {diff count : Int} {l : List α} {i : ℕ}
    (hi : i < (taken diff count l).length) : (taken diff count l)[i]? = l[2 * i]? := by
  induction count, l using taken.induct diff generalizing i with
  | case1 count => simp [taken] at hi
  | case2 count a =>
    obtain rfl : i = 0 := by simpa [taken] using hi
    rfl
  | case3 count a b l hlast =>
    obtain rfl : i = 0 := by simpa [taken, hlast] using hi
    simp [taken, hlast]
  | case4 count a b l hne ih =>
    rw [taken, if_neg hne] at hi ⊢
    cases i with
    | zero => rfl
    | succ i =>
      rw [List.getElem?_cons_succ, ih (by simpa using hi), Nat.mul_succ]
      rfl

theorem length_taken_entries (diff : Int) (event : String) (s : Store) :
    (taken diff 0 (s.entries event)).length = movedCount diff (s.clients event).length := by
  have hlength := @length_taken _ diff 0 (s.entries event)
  rw [length_entries] at hlength
  unfold movedCount
  split at hlength <;> split <;> omega

/-- The reply for each call. -/
theorem getElem?_subscribeRpcs (rpcs : ℕ → Rpc) (calls : List SubscribeCall) (d : Store) (i : ℕ) :
    (subscribeRpcs rpcs calls d).2[i]? =
      calls[i]?.map fun call => (call.clientid, (subscribeRpc (rpcs i) call d).2) := by
  induction calls generalizing rpcs d i with
  | nil => rfl
  | cons call calls ih =>
    cases i with
    | zero => rfl
    | succ i =>
      rw [subscribeRpcs, List.getElem?_cons_succ, List.getElem?_cons_succ, ih]
      -- the reply does not depend on the store
      congr 1
      funext call'
      cases rpcs (i + 1) <;> rfl

/-- When every call is answered, the destination handles them all. -/
theorem subscribeRpcs_of_answered (h : ∀ i < calls.length, rpcs i = .answered) (d : Store) :
    (subscribeRpcs rpcs calls d).1 = handleAll calls d := by
  induction calls generalizing rpcs d with
  | nil => rfl
  | cons call calls ih =>
    have hrest : ∀ i < calls.length, rpcs (i + 1) = .answered := fun i hi =>
      h (i + 1) (by simpa using hi)
    rw [subscribeRpcs, ih hrest, h 0 (by simp), handleAll, handleAll, List.foldl_cons]
    rfl

theorem subscribeRpc_eq_SUBSCRIBED {rpc : Rpc} {call : SubscribeCall} :
    (subscribeRpc rpc call d).2 = "SUBSCRIBED" ↔ rpc = .answered ∧ call.clientid ≠ "" := by
  cases rpc with
  | answered =>
    by_cases hid : call.clientid = "" <;> simp [subscribeRpc, subscribeReply, hid]
  | lost => simp [subscribeRpc]
  | unanswered => simp [subscribeRpc]

end Calls

/-! ## The request -/

section Request

variable {s d : Store} {event srcAddr dstAddr : String} {diff : Int} {rpcs : ℕ → Rpc}

/-- The clients of the calls, in order. -/
theorem getElem?_clientids (hs : Reachable s)
    (hreturns : (redistributeSub event srcAddr dstAddr diff s).isFault = false) {i : ℕ}
    (hi : i < movedCount diff (s.clients event).length) :
    ((redistributeSub event srcAddr dstAddr diff s).state.2.map (·.clientid))[i]? =
      (s.clients event)[2 * i]? := by
  rw [redistributeSub_eq.1] at hreturns
  rw [← length_taken_entries] at hi
  rw [(calls_of_not_overruns hs hreturns).1, List.getElem?_map, getElem?_taken hi,
    ← List.getElem?_map, map_fst_entries]

theorem length_calls (hreturns : (redistributeSub event srcAddr dstAddr diff s).isFault = false) :
    (redistributeSub event srcAddr dstAddr diff s).state.2.length =
      movedCount diff (s.clients event).length := by
  rw [calls_eq hreturns, List.length_map, takenWrappers, List.length_map, length_taken_entries]

/-- A client for which a call is made is no longer in the row. -/
theorem notMem_clients_of_call (hs : Reachable s)
    (hreturns : (redistributeSub event srcAddr dstAddr diff s).isFault = false)
    {call : SubscribeCall}
    (hcall : call ∈ (redistributeSub event srcAddr dstAddr diff s).state.2) :
    call.clientid ∉ (redistributeSub event srcAddr dstAddr diff s).state.1.clients event := by
  have htaken := List.mem_map_of_mem (f := (·.clientid)) hcall
  rw [redistributeSub_eq.1] at hreturns
  rw [(calls_of_not_overruns hs hreturns).1] at htaken
  rw [Store.mem_clients, redistributeSub_eq.2.1]
  rintro ⟨w, hw⟩
  rw [wrapper?_eraseAll, if_pos ⟨rfl, htaken⟩] at hw
  cases hw

/-- A client that is taken out is held by the destination if its call is answered. -/
theorem held_of_answered (hs : Reachable s)
    (hreturns : (redistributeSub event srcAddr dstAddr diff s).isFault = false)
    (hall : AllAnswered event diff rpcs s) {c : String} (hc : c ∈ s.clients event)
    (htaken : c ∉ (redistributeSub event srcAddr dstAddr diff s).state.1.clients event) :
    ∃ ix, c ∈ (subscribeRpcs rpcs
      (redistributeSub event srcAddr dstAddr diff s).state.2 d).1.clients ix := by
  obtain ⟨w, hw⟩ := Store.mem_clients.1 hc
  have hmoved : (redistributeSub event srcAddr dstAddr diff s).state.1.wrapper? event c = none := by
    rw [← Option.not_isSome_iff_eq_none, Option.isSome_iff_exists]
    exact fun h => htaken (Store.mem_clients.2 h)
  have hmem := mem_takenWrappers hw hmoved
  have hnodup : ((takenWrappers diff event s).map (·.clientID)).Nodup := by
    rw [clientIDs_takenWrappers hs]
    exact taken_clients.1
  obtain ⟨name, names, hkeys, -⟩ := (hs.listed hw).parses
  have hid : w.clientID = c := hs.filed.clientID hw
  -- its call is one of those that are answered, for a client with an id
  have hcall : c ∈ (redistributeSub event srcAddr dstAddr diff s).state.2.map (·.clientid) := by
    rw [calls_eq hreturns, List.map_map]
    exact List.mem_map.2 ⟨w, hmem, hid⟩
  obtain ⟨i, hi, hget⟩ := List.getElem_of_mem hcall
  rw [List.length_map, length_calls hreturns] at hi
  have hne : c ≠ "" := by
    rintro rfl
    apply (hall i hi).2
    rw [← getElem?_clientids hs hreturns hi]
    exact List.getElem?_eq_some_iff.2 ⟨_, hget⟩
  have hlands : Lands name w := ⟨by rw [hid]; exact hne, by rw [hkeys]; rfl⟩
  refine ⟨name, Store.mem_clients.2 ⟨movedWrapper w, ?_⟩⟩
  rw [subscribeRpcs_of_answered fun i hi => (hall i (length_calls hreturns ▸ hi)).1,
    calls_eq hreturns, ← hid, wrapper?_handleAll (listed_takenWrappers hs) hnodup hmem,
    if_pos hlands]

/-- **A move loses no client exactly if every call is answered**, and none is for a client without
id. -/
theorem losesNone_iff (hs : Reachable s)
    (hreturns : (redistributeSub event srcAddr dstAddr diff s).isFault = false) (d : Store) :
    LosesNone event srcAddr dstAddr diff rpcs s d ↔ AllAnswered event diff rpcs s := by
  constructor
  · intro hnone i hi
    have hi' := length_calls hreturns ▸ hi
    have hcall := List.getElem_mem hi'
    set call := (redistributeSub event srcAddr dstAddr diff s).state.2[i] with hdef
    have hclient : (s.clients event)[2 * i]? = some call.clientid := by
      rw [← getElem?_clientids hs hreturns hi, List.getElem?_map, List.getElem?_eq_getElem hi']
      rfl
    have hreply : (call.clientid, (subscribeRpc (rpcs i) call d).2) ∈ (subscribeRpcs rpcs
        (redistributeSub event srcAddr dstAddr diff s).state.2 d).2 := by
      apply List.mem_of_getElem? (i := i)
      rw [getElem?_subscribeRpcs, List.getElem?_eq_getElem hi']
      rfl
    have hsubscribed : (subscribeRpc (rpcs i) call d).2 = "SUBSCRIBED" := by
      by_contra hfailed
      exact notMem_clients_of_call hs hreturns hcall (hnone.kept _ _ hreply hfailed)
    obtain ⟨hanswered, hid⟩ := subscribeRpc_eq_SUBSCRIBED.1 hsubscribed
    refine ⟨hanswered, ?_⟩
    rw [hclient]
    simpa using hid
  · intro hall
    constructor
    · intro ix c hc
      by_cases hstays : c ∈ (redistributeSub event srcAddr dstAddr diff s).state.1.clients ix
      · exact .inl hstays
      · right
        obtain ⟨w, hw⟩ := Store.mem_clients.1 hc
        have hix : ix = event := by
          by_contra hix
          apply hstays
          rw [Store.mem_clients, redistributeSub_eq.2.1]
          exact ⟨w, by rw [wrapper?_eraseAll, if_neg fun h => hix h.1, hw]⟩
        subst hix
        exact held_of_answered hs hreturns hall hc hstays
    · intro c reply hreply hfailed
      obtain ⟨i, hi⟩ := List.getElem?_of_mem hreply
      rw [getElem?_subscribeRpcs, Option.map_eq_some_iff] at hi
      obtain ⟨call, hcall, hpair⟩ := hi
      obtain ⟨rfl, rfl⟩ := Prod.mk.inj hpair
      have hlt : i < movedCount diff (s.clients event).length := by
        rw [← length_calls hreturns]
        exact (List.getElem?_eq_some_iff.1 hcall).1
      obtain ⟨hanswered, hid⟩ := hall i hlt
      rw [← getElem?_clientids hs hreturns hlt, List.getElem?_map, hcall] at hid
      exact absurd (subscribeRpc_eq_SUBSCRIBED.2 ⟨hanswered, by simpa using hid⟩) hfailed

end Request

theorem losesNone_rowStore :
    LosesNone "a" "src" "dst" 1 (fun _ => .answered) rowStore .empty := by
  apply (losesNone_iff reachable_rowStore (by decide +kernel) .empty).2
  intro i hi
  have hcount : movedCount 1 (rowStore.clients "a").length = 1 := by decide +kernel
  obtain rfl : i = 0 := by omega
  exact ⟨rfl, by decide +kernel⟩

/-- A call that does not reach the destination loses its client. -/
theorem losesNone_fails :
    ¬ ∀ s : Store, Reachable s → ∀ (event srcAddr dstAddr : String) (diff : Int),
      (redistributeSub event srcAddr dstAddr diff s).isFault = false →
        ∀ (rpcs : ℕ → Rpc) (d : Store), LosesNone event srcAddr dstAddr diff rpcs s d := by
  intro h
  have hnone := h rowStore reachable_rowStore "a" "src" "dst" 1 (by decide +kernel)
    (fun _ => .lost) .empty
  have hkept := hnone.kept "c" "RPC failed" (by decide +kernel) (by decide)
  revert hkept
  decide +kernel

end TPST
