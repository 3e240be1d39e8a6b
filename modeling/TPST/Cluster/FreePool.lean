import Mathlib.Data.Finset.Basic
import Mathlib.Data.List.Infix
import TPST.Cluster.GroupManager
import TPST.Foundations.Schedules

/-!
# Servers from the pool

A coordinator that needs servers reads addresses from the directory `FreePool` (`getFreeNodeList`),
removes their files there, and enters them in the worker directory of its group (`nodeAttach`). A
file that is not there any more is reported, and its address is kept.

This is a model of any number of calls under any interleaving of the directory reads and the file
operations. A directory may change while it is read: what was in it when it was opened, or is in it
now, may be read, and what is in it all the time is read.

`handedOnce_iff`: if every remove finds its file, no address is returned to two calls and each ends
up in one directory; and only then.

`getFreeNodeList_alone`: a call that nothing disturbs may do what `getFreeNodeList` does, as a
function on the directory tree.
-/

namespace TPST

/-- Where a call is: before `opendir`, reading, removing the files of the addresses still to come,
or entering these in the worker directory. -/
inductive PoolPc
  | opendir
  | readdir (opened : Finset String)
  | remove (rest : List String)
  | attach (rest : List String)
  | done
  deriving DecidableEq

/-- A call of `getFreeNodeList`, with the calls of `nodeAttach` that follow. -/
structure PoolCall where
  pc : PoolPc
  serverAddrList : List String
  deriving DecidableEq

/-- The pool, the worker directory of every group, and the calls. -/
structure PoolState (ι : Type*) where
  freePool : Finset String
  workers : String → Finset String
  calls : ι → PoolCall

namespace PoolState

variable {ι : Type*}

/-- The next step of a call; while it reads, with the entry that `readdir` returns, if any. What
`readdir` cannot return leaves the state alone. -/
def step [DecidableEq ι] (needNum : ι → ℕ) (clusterDir : ι → String) (event : ι × Option String)
    (σ : PoolState ι) : PoolState ι :=
  let i := event.1
  let call := σ.calls i
  let goto (pc : PoolPc) : ι → PoolCall := Function.update σ.calls i { call with pc := pc }
  match call.pc with
  | .opendir => { σ with calls := goto (.readdir σ.freePool) }
  | .readdir opened =>
    match event.2 with
    | some nodeAddr =>
      if nodeAddr ∉ call.serverAddrList ∧ (nodeAddr ∈ opened ∨ nodeAddr ∈ σ.freePool) then
        let serverAddrList := call.serverAddrList ++ [nodeAddr]
        { σ with
          calls := Function.update σ.calls i
            { pc := if serverAddrList.length = needNum i then .remove serverAddrList
                else .readdir opened
              serverAddrList := serverAddrList } }
      else σ
    | none =>
      if ∀ nodeAddr ∈ opened, nodeAddr ∈ σ.freePool → nodeAddr ∈ call.serverAddrList then
        { σ with calls := goto (.remove call.serverAddrList) }
      else σ
  | .remove (nodeAddr :: rest) =>
    { σ with freePool := σ.freePool.erase nodeAddr, calls := goto (.remove rest) }
  | .remove [] => { σ with calls := goto (.attach call.serverAddrList) }
  | .attach (nodeAddr :: rest) =>
    { σ with
      workers := Function.update σ.workers (clusterDir i)
        (insert nodeAddr (σ.workers (clusterDir i)))
      calls := goto (.attach rest) }
  | .attach [] => { σ with calls := goto .done }
  | .done => σ

/-- No call has begun. -/
def start (freePool : Finset String) (workers : String → Finset String) : PoolState ι where
  freePool := freePool
  workers := workers
  calls _ := ⟨.opendir, []⟩

/-- `getFreeNodeList` has returned. -/
def Returned (σ : PoolState ι) (i : ι) : Prop :=
  match (σ.calls i).pc with
  | .attach _ | .done => True
  | _ => False

instance (σ : PoolState ι) (i : ι) : Decidable (σ.Returned i) := by
  unfold Returned
  split <;> infer_instance

/-- Every call that has begun has come to its end. -/
def Finished (σ : PoolState ι) : Prop := ∀ i, (σ.calls i).pc = .opendir ∨ (σ.calls i).pc = .done

/-- The address is in one directory. -/
def PlacedOnce (σ : PoolState ι) (a : String) : Prop :=
  (a ∈ σ.freePool ∧ ∀ dir, a ∉ σ.workers dir) ∨ (a ∉ σ.freePool ∧ ∃! dir, a ∈ σ.workers dir)

/-- No address was returned to two calls, and at the end of the calls every address that was there
at the start is in one directory. -/
structure HandedOnce (pool : Finset String) (workers : String → Finset String)
    (σ : PoolState ι) : Prop where
  disjoint : ∀ i j, i ≠ j → σ.Returned i → σ.Returned j →
    (σ.calls i).serverAddrList.Disjoint (σ.calls j).serverAddrList
  placed : σ.Finished → ∀ a, (a ∈ pool ∨ ∃ dir, a ∈ workers dir) → σ.PlacedOnce a

/-- A remove finds its file. -/
def RemovesFile (event : ι × Option String) (σ : PoolState ι) : Prop :=
  match (σ.calls event.1).pc with
  | .remove (nodeAddr :: _) => nodeAddr ∈ σ.freePool
  | _ => True

instance (event : ι × Option String) (σ : PoolState ι) : Decidable (RemovesFile event σ) := by
  unfold RemovesFile
  split <;> infer_instance

end PoolState

/-! ## What a call has done -/

namespace PoolCall

/-- The call has removed the address, or tried to. -/
def Removed (call : PoolCall) (a : String) : Prop :=
  a ∈ call.serverAddrList ∧
    match call.pc with
    | .opendir | .readdir _ => False
    | .remove rest => a ∉ rest
    | .attach _ | .done => True

/-- The call has entered the address in its worker directory. -/
def Attached (call : PoolCall) (a : String) : Prop :=
  a ∈ call.serverAddrList ∧
    match call.pc with
    | .opendir | .readdir _ | .remove _ => False
    | .attach rest => a ∉ rest
    | .done => True

/-- The addresses of a call are different, come from the pool, and those to come are the last. -/
structure Valid (pool : Finset String) (call : PoolCall) : Prop where
  nodup : call.serverAddrList.Nodup
  listed : ∀ a ∈ call.serverAddrList, a ∈ pool
  opened : ∀ opened, call.pc = .readdir opened → opened ⊆ pool
  rest : ∀ rest, call.pc = .remove rest ∨ call.pc = .attach rest → rest <:+ call.serverAddrList

variable {call : PoolCall} {a : String}

theorem Attached.removed (h : call.Attached a) : call.Removed a := by
  refine ⟨h.1, ?_⟩
  have hpc := h.2
  cases hcall : call.pc <;> simp_all

/-- A call that reads, or comes to the first of its removes, has removed nothing. -/
theorem not_removed
    (h : call.pc = .remove call.serverAddrList ∨ ∃ opened, call.pc = .readdir opened) :
    ¬ call.Removed a := by
  rintro ⟨ha, hpc⟩
  rcases h with h | ⟨opened, h⟩
  · rw [h] at hpc
    exact hpc ha
  · rwa [h] at hpc

/-- A call that reads an entry of the pool stays valid. -/
theorem Valid.read {pool opened : Finset String} {pc : PoolPc} (h : call.Valid pool)
    (hpc : call.pc = .readdir opened) (hnew : a ∉ call.serverAddrList) (ha : a ∈ pool)
    (hnext : pc = .remove (call.serverAddrList ++ [a]) ∨ pc = .readdir opened) :
    Valid pool ⟨pc, call.serverAddrList ++ [a]⟩ where
  nodup := by simpa [List.nodup_append] using ⟨h.nodup, fun b hb heq => hnew (heq ▸ hb)⟩
  listed b hb := by
    rcases List.mem_append.1 hb with hb | hb
    · exact h.listed b hb
    · rw [List.mem_singleton.1 hb]
      exact ha
  opened opened' hpc' := by
    rcases hnext with rfl | rfl
    · cases hpc'
    · exact PoolPc.readdir.inj hpc' ▸ h.opened opened hpc
  rest rest hpc' := by
    rcases hnext with rfl | rfl
    · rcases hpc' with heq | heq
      · exact PoolPc.remove.inj heq ▸ List.suffix_rfl
      · cases heq
    · rcases hpc' with heq | heq <;> cases heq

/-- The address that a call comes to is one of its own, and does not come again. -/
theorem Valid.next {pool : Finset String} {rest : List String} (h : call.Valid pool)
    (hpc : call.pc = .remove (a :: rest) ∨ call.pc = .attach (a :: rest)) :
    a ∈ call.serverAddrList ∧ a ∉ rest ∧ rest <:+ call.serverAddrList := by
  have hrest := h.rest (a :: rest) hpc
  exact ⟨hrest.subset List.mem_cons_self,
    (List.nodup_cons.1 (h.nodup.sublist hrest.sublist)).1, (List.suffix_cons a rest).trans hrest⟩

end PoolCall

namespace PoolState

variable {ι : Type*} {needNum : ι → ℕ} {clusterDir : ι → String} {pool : Finset String}
  {workers : String → Finset String} {σ σ' : PoolState ι} {i j : ι} {call : PoolCall} {a : String}

/-- A step of the call `i`, after which it is `call`: it has then also removed the address whose
file it came to, or entered it. -/
structure Moves [DecidableEq ι] (clusterDir : ι → String) (pool : Finset String) (i : ι)
    (call : PoolCall) (σ σ' : PoolState ι) : Prop where
  calls : σ'.calls = Function.update σ.calls i call
  valid : call.Valid pool
  removed : ∀ a, call.Removed a ↔
    (σ.calls i).Removed a ∨ ∃ rest, (σ.calls i).pc = .remove (a :: rest)
  attached : ∀ a, call.Attached a ↔
    (σ.calls i).Attached a ∨ ∃ rest, (σ.calls i).pc = .attach (a :: rest)
  freePool : ∀ a, a ∈ σ'.freePool ↔
    a ∈ σ.freePool ∧ ¬ ∃ rest, (σ.calls i).pc = .remove (a :: rest)
  workers : ∀ dir a, a ∈ σ'.workers dir ↔
    a ∈ σ.workers dir ∨ clusterDir i = dir ∧ ∃ rest, (σ.calls i).pc = .attach (a :: rest)

/-- What is in the directories, by what the calls have removed and entered. -/
structure Inv (clusterDir : ι → String) (pool : Finset String)
    (workers : String → Finset String) (σ : PoolState ι) : Prop where
  valid : ∀ i, (σ.calls i).Valid pool
  freePool : ∀ a, a ∈ σ.freePool ↔ a ∈ pool ∧ ∀ i, ¬ (σ.calls i).Removed a
  workers : ∀ dir a, a ∈ σ.workers dir ↔
    a ∈ workers dir ∨ ∃ i, clusterDir i = dir ∧ (σ.calls i).Attached a

/-- No two calls have removed the same address. -/
def Good (σ : PoolState ι) : Prop :=
  ∀ i j a, (σ.calls i).Removed a → (σ.calls j).Removed a → i = j

section Steps

variable [DecidableEq ι] {entry : Option String}

/-- A step that touches no file. -/
theorem Moves.of_calls (hvalid : call.Valid pool)
    (hremoved : ∀ a, call.Removed a ↔ (σ.calls i).Removed a)
    (hattached : ∀ a, call.Attached a ↔ (σ.calls i).Attached a)
    (hpc : ∀ a rest, (σ.calls i).pc ≠ .remove (a :: rest) ∧ (σ.calls i).pc ≠ .attach (a :: rest)) :
    Moves clusterDir pool i call σ { σ with calls := Function.update σ.calls i call } where
  calls := rfl
  valid := hvalid
  removed a := by simp [hremoved, hpc]
  attached a := by simp [hattached, hpc]
  freePool a := by simp [hpc]
  workers dir a := by simp [hpc]

/-- A call that has nothing to do. -/
theorem Moves.refl (hvalid : (σ.calls i).Valid pool)
    (hpc : ∀ a rest, (σ.calls i).pc ≠ .remove (a :: rest) ∧ (σ.calls i).pc ≠ .attach (a :: rest)) :
    Moves clusterDir pool i (σ.calls i) σ σ where
  calls := (Function.update_eq_self i σ.calls).symm
  valid := hvalid
  removed a := by simp [hpc]
  attached a := by simp [hpc]
  freePool a := by simp [hpc]
  workers dir a := by simp [hpc]

/-- Opening the directory: what is in it then may be listed later. -/
theorem Inv.moves_opendir (h : Inv clusterDir pool workers σ) (hpc : (σ.calls i).pc = .opendir) :
    ∃ call, Moves clusterDir pool i call σ (step needNum clusterDir (i, entry) σ) := by
  have hvalid := h.valid i
  dsimp only [step]
  rw [hpc]
  refine ⟨_, .of_calls ⟨hvalid.nodup, hvalid.listed, ?_, by simp⟩ (fun a => ?_) (fun a => ?_)
    (by simp [hpc])⟩
  · intro opened hopened
    rw [← PoolPc.readdir.inj hopened]
    exact fun a ha => ((h.freePool a).1 ha).1
  · simp [PoolCall.Removed, hpc]
  · simp [PoolCall.Attached, hpc]

/-- Listing an entry, or coming to the end of the directory. -/
theorem Inv.moves_readdir (h : Inv clusterDir pool workers σ) {opened : Finset String}
    (hpc : (σ.calls i).pc = .readdir opened) :
    ∃ call, Moves clusterDir pool i call σ (step needNum clusterDir (i, entry) σ) := by
  have hvalid := h.valid i
  have hpool : σ.freePool ⊆ pool := fun a ha => ((h.freePool a).1 ha).1
  have hidle : ∀ a rest, (σ.calls i).pc ≠ .remove (a :: rest) ∧
      (σ.calls i).pc ≠ .attach (a :: rest) := by simp [hpc]
  have hopened := hvalid.opened opened hpc
  dsimp only [step]
  rw [hpc]
  cases entry with
  | some nodeAddr =>
    dsimp only
    split
    · rename_i hread
      have hentry : nodeAddr ∈ pool := hread.2.elim (hopened ·) (hpool ·)
      have hbefore := fun a => @PoolCall.not_removed (σ.calls i) a (.inr ⟨opened, hpc⟩)
      refine ⟨_, .of_calls (hvalid.read hpc hread.1 hentry (ite_eq_or_eq _ _ _))
        (fun a => iff_of_false (PoolCall.not_removed ?_) (hbefore a))
        (fun a => iff_of_false (fun h => PoolCall.not_removed ?_ h.removed)
          (hbefore a ·.removed)) hidle⟩
      all_goals exact (ite_eq_or_eq _ _ _).imp id (⟨_, ·⟩)
    · exact ⟨_, .refl hvalid hidle⟩
  | none =>
    dsimp only
    split
    · refine ⟨_, .of_calls ⟨hvalid.nodup, hvalid.listed, by simp, ?_⟩ (fun a => ?_)
        (fun a => ?_) hidle⟩
      · rintro rest (heq | heq)
        · exact PoolPc.remove.inj heq ▸ List.suffix_rfl
        · cases heq
      · simp [PoolCall.Removed, hpc]
      · simp [PoolCall.Attached, hpc]
    · exact ⟨_, .refl hvalid hidle⟩

/-- Removing the next file, or going on to the attachments. -/
theorem Inv.moves_remove (h : Inv clusterDir pool workers σ) {rest : List String}
    (hpc : (σ.calls i).pc = .remove rest) :
    ∃ call, Moves clusterDir pool i call σ (step needNum clusterDir (i, entry) σ) := by
  have hvalid := h.valid i
  dsimp only [step]
  rw [hpc]
  cases rest with
  | nil =>
    refine ⟨_, .of_calls ⟨hvalid.nodup, hvalid.listed, by simp, ?_⟩ (fun a => ?_)
        (fun a => ?_) (by simp [hpc])⟩
    · rintro rest (heq | heq)
      · cases heq
      · exact PoolPc.attach.inj heq ▸ List.suffix_rfl
    · simp [PoolCall.Removed, hpc]
    · simp [PoolCall.Attached, hpc]
  | cons nodeAddr rest =>
    obtain ⟨hmem, hnotMem, hrest⟩ := hvalid.next (.inl hpc)
    refine ⟨{ σ.calls i with pc := .remove rest }, rfl,
      ⟨hvalid.nodup, hvalid.listed, by simp, ?_⟩, fun a => ?_, fun a => ?_, fun a => ?_,
      fun dir a => by simp [hpc]⟩
    · rintro rest' (heq | heq)
      · exact PoolPc.remove.inj heq ▸ hrest
      · cases heq
    · by_cases ha : a = nodeAddr
      · simp [PoolCall.Removed, hpc, ha, hmem, hnotMem]
      · simp [PoolCall.Removed, hpc, ha, Ne.symm ha]
    · simp [PoolCall.Attached, hpc]
    · simp [hpc, Finset.mem_erase, and_comm, eq_comm]

/-- Entering the next address in the worker directory, or being done. -/
theorem Inv.moves_attach (h : Inv clusterDir pool workers σ) {rest : List String}
    (hpc : (σ.calls i).pc = .attach rest) :
    ∃ call, Moves clusterDir pool i call σ (step needNum clusterDir (i, entry) σ) := by
  have hvalid := h.valid i
  dsimp only [step]
  rw [hpc]
  cases rest with
  | nil =>
    refine ⟨_, .of_calls ⟨hvalid.nodup, hvalid.listed, by simp, by simp⟩ (fun a => ?_)
        (fun a => ?_) (by simp [hpc])⟩
    · simp [PoolCall.Removed, hpc]
    · simp [PoolCall.Attached, hpc]
  | cons nodeAddr rest =>
    obtain ⟨hmem, hnotMem, hrest⟩ := hvalid.next (.inr hpc)
    refine ⟨{ σ.calls i with pc := .attach rest }, rfl,
      ⟨hvalid.nodup, hvalid.listed, by simp, ?_⟩, fun a => ?_, fun a => ?_,
      fun a => by simp [hpc], fun dir a => ?_⟩
    · rintro rest' (heq | heq)
      · cases heq
      · exact PoolPc.attach.inj heq ▸ hrest
    · simp [PoolCall.Removed, hpc]
    · by_cases ha : a = nodeAddr
      · simp [PoolCall.Attached, hpc, ha, hmem, hnotMem]
      · simp [PoolCall.Attached, hpc, ha, Ne.symm ha]
    · by_cases hdir : clusterDir i = dir
      · subst hdir
        simp [hpc, or_comm, eq_comm]
      · simp [hpc, hdir, Function.update_of_ne (Ne.symm hdir)]

/-- **What a step does**, phase by phase. -/
theorem Inv.moves (h : Inv clusterDir pool workers σ) (needNum : ι → ℕ)
    (event : ι × Option String) :
    ∃ call, Moves clusterDir pool event.1 call σ (step needNum clusterDir event σ) := by
  obtain ⟨i, entry⟩ := event
  cases hpc : (σ.calls i).pc with
  | opendir => exact h.moves_opendir hpc
  | readdir opened => exact h.moves_readdir hpc
  | remove rest => exact h.moves_remove hpc
  | attach rest => exact h.moves_attach hpc
  | done =>
    have hsame : step needNum clusterDir (i, entry) σ = σ := by simp [step, hpc]
    rw [hsame]
    exact ⟨_, .refl (h.valid i) (by simp [hpc])⟩

/-- A step keeps the invariant. -/
theorem Inv.step (h : Inv clusterDir pool workers σ) (event : ι × Option String) :
    Inv clusterDir pool workers (step needNum clusterDir event σ) := by
  obtain ⟨call, hmoves⟩ := h.moves needNum event
  refine ⟨fun j => ?_, fun a => ?_, fun dir a => ?_⟩
  · rw [hmoves.calls, Function.update_apply]
    split
    · exact hmoves.valid
    · exact h.valid j
  · rw [hmoves.freePool, h.freePool, hmoves.calls, and_assoc, and_congr_right_iff]
    intro _
    constructor
    · rintro ⟨hbefore, hnew⟩ j hj
      rw [Function.update_apply] at hj
      split at hj
      · exact ((hmoves.removed a).1 hj).elim (hbefore _) hnew
      · exact hbefore j hj
    · intro hafter
      have hcall := hafter event.1
      rw [Function.update_self, hmoves.removed, not_or] at hcall
      refine ⟨fun j hj => ?_, hcall.2⟩
      by_cases hji : j = event.1
      · exact hcall.1 (hji ▸ hj)
      · exact hafter j (by rwa [Function.update_of_ne hji])
  · rw [hmoves.workers, h.workers, hmoves.calls, or_assoc]
    apply or_congr_right
    constructor
    · rintro (⟨j, hdir, hj⟩ | ⟨hdir, hnew⟩)
      · refine ⟨j, hdir, ?_⟩
        rw [Function.update_apply]
        split
        · rename_i hji
          exact (hmoves.attached a).2 (.inl (hji ▸ hj))
        · exact hj
      · exact ⟨event.1, hdir, by rw [Function.update_self, hmoves.attached]; exact .inr hnew⟩
    · rintro ⟨j, hdir, hj⟩
      rw [Function.update_apply] at hj
      split at hj
      · rename_i hji
        rw [hji] at hdir
        exact ((hmoves.attached a).1 hj).imp (⟨_, hdir, ·⟩) (⟨hdir, ·⟩)
      · exact .inl ⟨j, hdir, hj⟩

/-- What a call has removed it has removed after any step. -/
theorem Inv.removed_step (h : Inv clusterDir pool workers σ) (event : ι × Option String)
    (hj : (σ.calls j).Removed a) :
    ((PoolState.step needNum clusterDir event σ).calls j).Removed a := by
  obtain ⟨call, hmoves⟩ := h.moves needNum event
  rw [hmoves.calls, Function.update_apply]
  split
  · rename_i hji
    exact (hmoves.removed a).2 (.inl (hji ▸ hj))
  · exact hj

/-- What no two calls have removed after a step they had not before. -/
theorem Inv.good_of_step (h : Inv clusterDir pool workers σ) (event : ι × Option String)
    (hgood : (PoolState.step needNum clusterDir event σ).Good) : σ.Good := fun _ _ _ hi hj =>
  hgood _ _ _ (h.removed_step event hi) (h.removed_step event hj)

/-- A call that comes to the file of an address has then removed it. -/
theorem Inv.removed_self (h : Inv clusterDir pool workers σ) {event : ι × Option String}
    {rest : List String} (hpc : (σ.calls event.1).pc = .remove (a :: rest)) :
    ((PoolState.step needNum clusterDir event σ).calls event.1).Removed a := by
  obtain ⟨call, hmoves⟩ := h.moves needNum event
  rw [hmoves.calls, Function.update_self]
  exact (hmoves.removed a).2 (.inr ⟨rest, hpc⟩)

/-- **A step that finds its file lets no two calls remove the same address.** -/
theorem Inv.good_step (h : Inv clusterDir pool workers σ) (hgood : σ.Good)
    {event : ι × Option String} (hfile : RemovesFile event σ) :
    (PoolState.step needNum clusterDir event σ).Good := by
  obtain ⟨call, hmoves⟩ := h.moves needNum event
  have hnew : ∀ {j a}, (Function.update σ.calls event.1 call j).Removed a →
      (σ.calls j).Removed a ∨ j = event.1 ∧ ∀ k, ¬ (σ.calls k).Removed a := by
    intro j a hj
    rw [Function.update_apply] at hj
    split at hj
    · rename_i hji
      refine ((hmoves.removed a).1 hj).imp (hji ▸ ·) ?_
      rintro ⟨rest, hpc⟩
      rw [RemovesFile, hpc] at hfile
      exact ⟨hji, ((h.freePool a).1 hfile).2⟩
    · exact .inl hj
  intro j k a hj hk
  rw [hmoves.calls] at hj hk
  rcases hnew hj with hj' | ⟨hji, hnone⟩
  · rcases hnew hk with hk' | ⟨-, hnone⟩
    · exact hgood j k a hj' hk'
    · exact absurd hj' (hnone j)
  · rcases hnew hk with hk' | ⟨hki, -⟩
    · exact absurd hk' (hnone k)
    · rw [hji, hki]

/-- A step that does not find its file lets two calls remove the same address. -/
theorem Inv.removesFile_of_good (h : Inv clusterDir pool workers σ) {event : ι × Option String}
    (hgood : (PoolState.step needNum clusterDir event σ).Good) : RemovesFile event σ := by
  unfold RemovesFile
  split
  · rename_i a rest hpc
    have hrest := (h.valid event.1).rest _ (.inl hpc)
    refine (h.freePool a).2 ⟨(h.valid event.1).listed a (hrest.subset (by simp)), fun j hj => ?_⟩
    obtain rfl := hgood _ _ _ (h.removed_step event hj) (h.removed_self hpc)
    have hmem := hj.2
    rw [hpc] at hmem
    exact hmem (by simp)
  · trivial

end Steps

/-! ## Runs -/

theorem inv_start : Inv clusterDir pool workers (start pool workers : PoolState ι) where
  valid i := ⟨.nil, by simp [start], by simp [start], by simp [start]⟩
  freePool a := by simp [start, PoolCall.Removed]
  workers dir a := by simp [start, PoolCall.Attached]

theorem good_start : (start pool workers : PoolState ι).Good := by
  intro i j a hi
  simp [start, PoolCall.Removed] at hi

/-- What was returned was removed. -/
theorem Returned.removed (h : σ.Returned i) (ha : a ∈ (σ.calls i).serverAddrList) :
    (σ.calls i).Removed a := by
  refine ⟨ha, ?_⟩
  unfold Returned at h
  split at h <;> simp_all

/-- When no two calls have removed the same address, none was handed to two of them. -/
theorem Inv.handedOnce (h : Inv clusterDir pool workers σ)
    (hpool : ∀ dir, Disjoint pool (workers dir))
    (hworkers : ∀ dir dir', dir ≠ dir' → Disjoint (workers dir) (workers dir'))
    (hgood : σ.Good) : HandedOnce pool workers σ where
  disjoint i j hij hi hj a hai haj := hij (hgood i j a (hi.removed hai) (hj.removed haj))
  placed hfinished a hplace := by
    have hattached : ∀ i, (σ.calls i).Removed a → (σ.calls i).Attached a := by
      intro i hi
      refine ⟨hi.1, ?_⟩
      rcases hfinished i with hpc | hpc
      · rw [PoolCall.Removed, hpc] at hi
        exact hi.2.elim
      · rw [hpc]
        trivial
    by_cases hfree : a ∈ σ.freePool
    · refine .inl ⟨hfree, fun dir hdir => ?_⟩
      obtain ⟨ha, hnone⟩ := (h.freePool a).1 hfree
      rcases (h.workers dir a).1 hdir with hold | ⟨i, -, hi⟩
      · exact Finset.disjoint_left.1 (hpool dir) ha hold
      · exact hnone i hi.removed
    · refine .inr ⟨hfree, ?_⟩
      by_cases ha : a ∈ pool
      · -- some call has removed it, and no other
        have hsome : ∃ i, (σ.calls i).Removed a := by
          by_contra hnone
          exact hfree ((h.freePool a).2 ⟨ha, not_exists.1 hnone⟩)
        obtain ⟨i, hi⟩ := hsome
        refine ⟨clusterDir i, (h.workers _ a).2 (.inr ⟨i, rfl, hattached i hi⟩), fun dir hdir => ?_⟩
        rcases (h.workers dir a).1 hdir with hold | ⟨j, rfl, hj⟩
        · exact absurd hold (Finset.disjoint_left.1 (hpool dir) ha)
        · rw [hgood i j a hi hj.removed]
      · obtain ⟨dir, hdir⟩ := hplace.resolve_left ha
        refine ⟨dir, (h.workers dir a).2 (.inl hdir), fun dir' hdir' => ?_⟩
        rcases (h.workers dir' a).1 hdir' with hold | ⟨j, -, hj⟩
        · by_contra hne
          exact Finset.disjoint_left.1 (hworkers dir' dir hne) hold hdir
        · exact absurd ((h.valid j).listed a hj.1) ha

/-- At the end of the calls, when none was handed to two of them, no two have removed it. -/
theorem HandedOnce.good (h : HandedOnce pool workers σ) (hfinished : σ.Finished) : σ.Good := by
  have hreturned : ∀ {i a}, (σ.calls i).Removed a → σ.Returned i := by
    intro i a hi
    unfold Returned
    rcases hfinished i with hpc | hpc
    · rw [PoolCall.Removed, hpc] at hi
      exact hi.2.elim
    · rw [hpc]
      trivial
  intro i j a hi hj
  by_contra hij
  exact h.disjoint i j hij (hreturned hi) (hreturned hj) hi.1 hj.1

/-- **When a server is handed to one group at most**: if every remove finds its file, and at the end
of the calls only then. -/
theorem handedOnce_iff [DecidableEq ι] (needNum : ι → ℕ) (clusterDir : ι → String)
    (pool : Finset String) (workers : String → Finset String)
    (hpool : ∀ dir, Disjoint pool (workers dir))
    (hworkers : ∀ dir dir', dir ≠ dir' → Disjoint (workers dir) (workers dir'))
    (events : List (ι × Option String)) :
    (Schedule.Along (step needNum clusterDir) RemovesFile events (start pool workers) →
      Schedule.Always (step needNum clusterDir) (HandedOnce pool workers) events
        (start pool workers)) ∧
    ((Schedule.run (step needNum clusterDir) events (start pool workers)).Finished →
      HandedOnce pool workers (Schedule.run (step needNum clusterDir) events (start pool workers)) →
      Schedule.Along (step needNum clusterDir) RemovesFile events (start pool workers)) := by
  constructor
  · intro halong
    exact Schedule.always_of_along
      (fun σ (h : Inv clusterDir pool workers σ ∧ σ.Good) => h.1.handedOnce hpool hworkers h.2)
      (fun event _ h hfile => ⟨h.1.step event, h.1.good_step h.2 hfile⟩) ⟨inv_start, good_start⟩
      halong
  · intro hfinished hhanded
    exact (Schedule.along_of_run (fun event σ (h : Inv clusterDir pool workers σ) => h.step event)
      (fun event _ h hgood => ⟨h.good_of_step event hgood, h.removesFile_of_good hgood⟩) inv_start
      events (hhanded.good hfinished)).2

/-- Two calls, one after the other, each for one server. -/
theorem handedOnce_one_by_one :
    Schedule.Always (step (fun _ : Bool => 1) fun _ => "cluster")
      (HandedOnce {"x", "y"} fun dir => if dir = "cluster" then {"z"} else ∅)
      [(true, none), (true, some "x"), (true, none), (true, none), (false, none),
        (false, some "y"), (false, none), (false, none)]
      (start {"x", "y"} fun dir => if dir = "cluster" then {"z"} else ∅) := by
  refine (handedOnce_iff (fun _ : Bool => 1) (fun _ => "cluster") {"x", "y"}
    (fun dir => if dir = "cluster" then {"z"} else ∅) (fun dir => ?_) (fun dir dir' hne => ?_)
    _).1 (by decide +kernel)
  · split <;> simp
  · split
    · rename_i hdir
      rw [if_neg (hdir ▸ hne.symm)]
      simp
    · simp

/-- Two calls both read an address before one of them removes it: both return it. -/
theorem handedOnce_fails :
    ¬ ∀ (needNum : Bool → ℕ) (clusterDir : Bool → String) (pool : Finset String)
      (workers : String → Finset String) (events : List (Bool × Option String)),
      (∀ i, 1 ≤ needNum i) → (∀ dir, Disjoint pool (workers dir)) →
      (∀ dir dir', dir ≠ dir' → Disjoint (workers dir) (workers dir')) →
      Schedule.Always (step needNum clusterDir) (HandedOnce pool workers) events
        (start pool workers) := by
  intro h
  have hhanded := (h (fun _ => 1) (fun i => if i then "a" else "b") {"x"} (fun _ => ∅)
    [(true, none), (false, none), (true, some "x"), (false, some "x"), (true, none),
      (true, none), (false, none), (false, none)] (by decide) (by simp) (by simp)).run
  exact hhanded.disjoint true false (by decide) (by decide +kernel) (by decide +kernel)
    (a := "x") (by decide +kernel) (by decide +kernel)

end PoolState

/-! ## A call alone -/

/-- `getFreeNodeList`, where no other coordinator is at work: the addresses, and the directories
without them. With a number below 1 the loop does not stop before the end. -/
def getFreeNodeList (needNum : ℤ) (files : FileTree) : List String × FileTree :=
  let entries := loadAddrInDir files gmFreePool
  let serverAddrList := if needNum < 1 then entries else entries.take needNum.toNat
  (serverAddrList,
    serverAddrList.foldl (fun files nodeAddr => files.erase (gmFreePool ++ [nodeAddr])) files)

section Files

variable {files : FileTree} {dir dir' : Path} {addrs rest : List String}

/-- A file that is removed is one entry less of its directory. -/
theorem loadAddrInDir_erase (files : FileTree) (dir : Path) (a : String) :
    loadAddrInDir (files.erase (dir ++ [a])) dir = (loadAddrInDir files dir).erase a := by
  induction files with
  | nil => rfl
  | cons p files ih =>
    rw [loadAddrInDir_cons]
    by_cases hp : p = dir ++ [a]
    · rw [hp, List.erase_cons_head, entry_eq_some.2 rfl]
      exact (List.erase_cons_head a _).symm
    · rw [List.erase_cons_tail (by simpa using hp), loadAddrInDir_cons, ih]
      cases hentry : (if p.dropLast = dir then p.getLast? else none) with
      | none => rfl
      | some b =>
        have hb : b ≠ a := by
          rintro rfl
          exact hp (entry_eq_some.1 hentry)
        exact (List.erase_cons_tail (by simpa using hb)).symm

theorem loadAddrInDir_erase_of_ne (h : dir ≠ dir') (files : FileTree) (a : String) :
    loadAddrInDir (files.erase (dir ++ [a])) dir' = loadAddrInDir files dir' := by
  induction files with
  | nil => rfl
  | cons p files ih =>
    rw [loadAddrInDir_cons]
    by_cases hp : p = dir ++ [a]
    · rw [hp, List.erase_cons_head, List.dropLast_concat, if_neg h]
      rfl
    · rw [List.erase_cons_tail (by simpa using hp), loadAddrInDir_cons, ih]

/-- Removing the first entries leaves the others. -/
theorem loadAddrInDir_eraseAll (hentries : loadAddrInDir files dir = addrs ++ rest) :
    loadAddrInDir (addrs.foldl (fun files a => files.erase (dir ++ [a])) files) dir = rest := by
  induction addrs generalizing files with
  | nil => exact hentries
  | cons a addrs ih =>
    rw [List.foldl_cons]
    apply ih
    rw [loadAddrInDir_erase, hentries, List.cons_append, List.erase_cons_head]

theorem loadAddrInDir_eraseAll_of_ne (h : dir ≠ dir') (files : FileTree) (addrs : List String) :
    loadAddrInDir (addrs.foldl (fun files a => files.erase (dir ++ [a])) files) dir' =
      loadAddrInDir files dir' := by
  induction addrs generalizing files with
  | nil => rfl
  | cons a addrs ih => rw [List.foldl_cons, ih, loadAddrInDir_erase_of_ne h]

/-- **What is taken from the pool** is the first of it, and the rest stays there. -/
theorem getFreeNodeList_fst {needNum : ℤ} (h : 1 ≤ needNum) (files : FileTree) :
    (getFreeNodeList needNum files).1 = (loadAddrInDir files gmFreePool).take needNum.toNat :=
  if_neg (by omega)

theorem freePool_getFreeNodeList {needNum : ℤ} (h : 1 ≤ needNum) (files : FileTree) :
    loadAddrInDir (getFreeNodeList needNum files).2 gmFreePool =
      (loadAddrInDir files gmFreePool).drop needNum.toNat := by
  apply loadAddrInDir_eraseAll
  rw [if_neg (by omega), List.take_append_drop]

end Files

namespace PoolState

section Alone

variable {ι : Type*} [DecidableEq ι] {needNum : ι → ℕ} {clusterDir : ι → String} {σ : PoolState ι}
  {i : ι} {a : String} {found rest addrs : List String} {opened : Finset String}

/-- A new entry of the pool is read. -/
theorem step_read (hcall : σ.calls i = ⟨.readdir opened, found⟩) (hnew : a ∉ found)
    (ha : a ∈ σ.freePool) :
    step needNum clusterDir (i, some a) σ =
      { σ with
        calls := Function.update σ.calls i
          ⟨if found.length + 1 = needNum i then .remove (found ++ [a]) else .readdir opened,
            found ++ [a]⟩ } := by
  simp [step, hcall, hnew, ha]

/-- The entries read while more are needed. -/
theorem run_reads (hcall : σ.calls i = ⟨.readdir opened, found⟩)
    (haddrs : ∀ a ∈ addrs, a ∈ σ.freePool) (hnodup : (found ++ addrs).Nodup)
    (hfew : found.length + addrs.length < needNum i) :
    Schedule.run (step needNum clusterDir) (addrs.map fun a => (i, some a)) σ =
      { σ with calls := Function.update σ.calls i ⟨.readdir opened, found ++ addrs⟩ } := by
  induction addrs generalizing σ found with
  | nil =>
    rw [List.append_nil, ← hcall, Function.update_eq_self]
    rfl
  | cons a addrs ih =>
    rw [List.forall_mem_cons] at haddrs
    rw [List.length_cons] at hfew
    have hnew : a ∉ found := fun hmem =>
      (List.nodup_append.1 hnodup).2.2 a hmem a List.mem_cons_self rfl
    have hrest := @ih
      { σ with calls := Function.update σ.calls i ⟨.readdir opened, found ++ [a]⟩ } (found ++ [a])
      (Function.update_self ..) haddrs.2 (by simpa using hnodup)
      (by rw [List.length_append, List.length_singleton]; omega)
    rw [List.map_cons, Schedule.run_cons, step_read hcall hnew haddrs.1, if_neg (by omega), hrest]
    simp [Function.update_idem]

/-- The removes of a call. -/
theorem run_removes (hcall : σ.calls i = ⟨.remove rest, found⟩) :
    Schedule.run (step needNum clusterDir) (List.replicate (rest.length + 1) (i, none)) σ =
      { σ with
        freePool := rest.foldl Finset.erase σ.freePool
        calls := Function.update σ.calls i ⟨.attach found, found⟩ } := by
  induction rest generalizing σ with
  | nil => simp [step, hcall]
  | cons a rest ih =>
    rw [List.length_cons, List.replicate_succ, Schedule.run_cons]
    have hstep : step needNum clusterDir (i, none) σ =
        { σ with
          freePool := σ.freePool.erase a
          calls := Function.update σ.calls i ⟨.remove rest, found⟩ } := by
      simp [step, hcall]
    rw [hstep, ih (Function.update_self ..)]
    simp [Function.update_idem]

/-- The attachments of a call. -/
theorem run_attaches (hcall : σ.calls i = ⟨.attach rest, found⟩) :
    Schedule.run (step needNum clusterDir) (List.replicate (rest.length + 1) (i, none)) σ =
      { σ with
        workers := Function.update σ.workers (clusterDir i)
          (rest.foldl (fun dir a => insert a dir) (σ.workers (clusterDir i)))
        calls := Function.update σ.calls i ⟨.done, found⟩ } := by
  induction rest generalizing σ with
  | nil => simp [step, hcall]
  | cons a rest ih =>
    rw [List.length_cons, List.replicate_succ, Schedule.run_cons]
    have hstep : step needNum clusterDir (i, none) σ =
        { σ with
          workers := Function.update σ.workers (clusterDir i)
            (insert a (σ.workers (clusterDir i)))
          calls := Function.update σ.calls i ⟨.attach rest, found⟩ } := by
      simp [step, hcall]
    rw [hstep, ih (Function.update_self ..)]
    simp [Function.update_idem]

/-- What a call reads that nothing disturbs: the first entries of the pool, as many as it needs. -/
theorem exists_run_reads {entries : List String} (hcall : σ.calls i = ⟨.opendir, []⟩)
    (hneed : 0 < needNum i) (hnodup : entries.Nodup) (hpool : ∀ a, a ∈ σ.freePool ↔ a ∈ entries) :
    ∃ events : List (Option String),
      Schedule.run (step needNum clusterDir) (events.map fun entry => (i, entry)) σ =
        { σ with
          calls := Function.update σ.calls i
            ⟨.remove (entries.take (needNum i)), entries.take (needNum i)⟩ } := by
  have hopen : step needNum clusterDir (i, none) σ =
      { σ with calls := Function.update σ.calls i ⟨.readdir σ.freePool, []⟩ } := by
    simp [step, hcall]
  have hreads : ∀ addrs, addrs <+: entries → addrs.length < needNum i →
      Schedule.run (step needNum clusterDir) (addrs.map fun a => (i, some a))
        (step needNum clusterDir (i, none) σ) =
      { σ with calls := Function.update σ.calls i ⟨.readdir σ.freePool, addrs⟩ } := by
    intro addrs haddrs hfew
    have hrun := @run_reads ι _ needNum clusterDir
      { σ with calls := Function.update σ.calls i ⟨.readdir σ.freePool, []⟩ } i [] addrs
      σ.freePool (Function.update_self ..) (fun a ha => (hpool a).2 (haddrs.subset ha))
      (hnodup.sublist haddrs.sublist) (by simpa using hfew)
    rw [hopen, hrun]
    simp [Function.update_idem]
  rcases lt_or_ge entries.length (needNum i) with hfew | hmany
  · -- all are read, and the end of the directory
    refine ⟨none :: entries.map some ++ [none], ?_⟩
    rw [List.cons_append, List.map_cons, Schedule.run_cons, List.map_append, List.map_map,
      Schedule.run_append]
    change Schedule.run _ _ (Schedule.run _ (entries.map fun a => (i, some a)) _) = _
    rw [hreads entries List.prefix_rfl hfew, List.take_of_length_le hfew.le]
    simp [step, hpool, Function.update_idem]
  · -- the last one completes the list
    have hlength := List.length_take_of_le hmany
    rcases List.eq_nil_or_concat' (entries.take (needNum i)) with hnil | ⟨found, a, htake⟩
    · rw [hnil, List.length_nil] at hlength
      omega
    · rw [htake, List.length_append, List.length_singleton] at hlength
      have hfirst : found ++ [a] <+: entries := htake ▸ List.take_prefix ..
      have hnew : a ∉ found := fun hmem => (List.nodup_append.1
        (hnodup.sublist hfirst.sublist)).2.2 a hmem a (List.mem_singleton_self a) rfl
      have hlast := @step_read ι _ needNum clusterDir
        { σ with calls := Function.update σ.calls i ⟨.readdir σ.freePool, found⟩ } i a found
        σ.freePool (Function.update_self ..) hnew ((hpool a).2 (hfirst.subset (by simp)))
      refine ⟨none :: found.map some ++ [some a], ?_⟩
      rw [List.cons_append, List.map_cons, Schedule.run_cons, List.map_append, List.map_map,
        Schedule.run_append]
      change Schedule.run _ _ (Schedule.run _ (found.map fun a => (i, some a)) _) = _
      rw [hreads found ((List.prefix_append _ _).trans hfirst) (by omega), htake, List.map_cons,
        List.map_nil, Schedule.run_cons, Schedule.run_nil,
        hlast, if_pos hlength]
      simp [Function.update_idem]

theorem mem_foldl_erase {pool : Finset String} :
    a ∈ addrs.foldl Finset.erase pool ↔ a ∈ pool ∧ a ∉ addrs := by
  induction addrs generalizing pool with
  | nil => simp
  | cons b addrs ih =>
    rw [List.foldl_cons, ih, Finset.mem_erase, List.mem_cons, not_or]
    tauto

theorem mem_foldl_insert {dir : Finset String} :
    a ∈ addrs.foldl (fun dir a => insert a dir) dir ↔ a ∈ dir ∨ a ∈ addrs := by
  induction addrs generalizing dir with
  | nil => simp
  | cons b addrs ih =>
    rw [List.foldl_cons, ih, Finset.mem_insert, List.mem_cons]
    tauto

/-- **A call that nothing disturbs**, and that reads the files in their order, takes what
`getFreeNodeList` takes, and enters it in its worker directory. -/
theorem getFreeNodeList_alone {files : FileTree} (hfiles : files.Nodup)
    (hcall : σ.calls i = ⟨.opendir, []⟩) (hneed : 0 < needNum i)
    (hpool : ∀ a, a ∈ σ.freePool ↔ a ∈ loadAddrInDir files gmFreePool) :
    ∃ (events : List (Option String)) (σ' : PoolState ι),
      Schedule.run (step needNum clusterDir) (events.map fun entry => (i, entry)) σ = σ' ∧
      σ'.calls = Function.update σ.calls i ⟨.done, (getFreeNodeList (needNum i) files).1⟩ ∧
      (∀ a, a ∈ σ'.freePool ↔
        a ∈ loadAddrInDir (getFreeNodeList (needNum i) files).2 gmFreePool) ∧
      ∀ dir a, a ∈ σ'.workers dir ↔ a ∈ σ.workers dir ∨
        clusterDir i = dir ∧ a ∈ (getFreeNodeList (needNum i) files).1 := by
  have hone : 1 ≤ (needNum i : ℤ) := by omega
  rw [getFreeNodeList_fst hone, freePool_getFreeNodeList hone, Int.toNat_natCast]
  set entries := loadAddrInDir files gmFreePool
  have hnodup : entries.Nodup := nodup_loadAddrInDir hfiles _
  set found := entries.take (needNum i) with hfound
  obtain ⟨events, hreads⟩ :=
    @exists_run_reads ι _ needNum clusterDir σ i entries hcall hneed hnodup hpool
  set steps := List.replicate (found.length + 1) (none : Option String)
  refine ⟨events ++ (steps ++ steps), _, rfl, ?_⟩
  have hsteps : steps.map (fun entry => (i, entry)) =
      List.replicate (found.length + 1) (i, none) := List.map_replicate ..
  have hremoves := @run_removes ι _ needNum clusterDir
    { σ with calls := Function.update σ.calls i ⟨.remove found, found⟩ } i found found
    (Function.update_self ..)
  rw [List.map_append, List.map_append, Schedule.run_append, Schedule.run_append, hreads, hsteps,
    ← hfound, hremoves, run_attaches (Function.update_self ..)]
  refine ⟨by simp [Function.update_idem], fun a => ?_, fun dir a => ?_⟩
  · dsimp only
    have hsplit : a ∈ entries ↔ a ∈ found ∨ a ∈ entries.drop (needNum i) := by
      rw [← List.mem_append, List.take_append_drop]
    have hdisjoint : a ∈ found → a ∉ entries.drop (needNum i) := fun ha hdrop =>
      List.disjoint_take_drop hnodup le_rfl ha hdrop
    rw [mem_foldl_erase, hpool, hsplit]
    tauto
  · dsimp only
    rcases eq_or_ne dir (clusterDir i) with rfl | hdir
    · rw [Function.update_self, mem_foldl_insert]
      simp
    · rw [Function.update_of_ne hdir]
      simp [hdir.symm]

end Alone

end PoolState

end TPST
