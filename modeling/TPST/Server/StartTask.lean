import TPST.Server.StartedTasks

/-!
# The command of a task

`startTask` writes its command into a buffer of 200 bytes, and the metadata has to leave room for
the rest of it (`startTask_of_le`). The metadata of a task is that of a publish, at any moment of
any run (`Carried.step`).
-/

namespace TPST

open Std

/-- `startTask` up to `system`: the command, which `sprintf` writes into `char command[200]`. The
metadata ends at its first null character, and another one is written behind it. -/
def startTask (ninfo : NotifyInfo) : Except Fault String :=
  let metadatats := String.ofList (ninfo.metaInfo.toList.takeWhile (· ≠ '\x00'))
  let command := "srun --mpi=pmix_v2 --mem-per-cpu=1000 -n 8 ./anastartbyevent" ++ " " ++ metadatats
  if command.utf8ByteSize + 1 ≤ 200 then .ok command else .error .undefinedBehaviour

theorem utf8ByteSize_takeWhile_le (p : Char → Bool) (s : String) :
    (String.ofList (s.toList.takeWhile p)).utf8ByteSize ≤ s.utf8ByteSize := by
  have hsplit : s = String.ofList (s.toList.takeWhile p) ++
      String.ofList (s.toList.dropWhile p) := by
    rw [← String.ofList_append, List.takeWhile_append_dropWhile, String.ofList_toList]
  conv_rhs => rw [hsplit, String.utf8ByteSize_append]
  exact Nat.le_add_right _ _

/-- **Metadata of at most 138 bytes leaves room for the command.** -/
theorem startTask_of_le {ninfo : NotifyInfo} (h : ninfo.metaInfo.utf8ByteSize ≤ 138) :
    ∃ command, startTask ninfo = .ok command := by
  have hle := utf8ByteSize_takeWhile_le (· ≠ '\x00') ninfo.metaInfo
  have hwords : ("srun --mpi=pmix_v2 --mem-per-cpu=1000 -n 8 ./anastartbyevent" ++
      " ").utf8ByteSize = 61 := by decide +kernel
  refine ⟨_, if_pos ?_⟩
  rw [String.utf8ByteSize_append, hwords]
  omega

/-- One byte more does not. -/
example : startTask ⟨"addr", String.ofList (.replicate 139 'm'), "c"⟩ =
    .error .undefinedBehaviour := by decide +kernel

namespace Delivering

/-- The metadata that the publishes carry, that is kept in the wrappers, and that is pushed or about
to be, satisfies `P`. -/
structure Carried (P : String → Prop) (σ : State) : Prop where
  calls : ∀ handler ∈ σ.handlers, P handler.1.metadata
  heap : ∀ p psw, σ.shared.heap p = some psw → P psw.pubMetadata
  tasks : ∀ l ninfo, .push l ninfo ∈ σ.tasks → P ninfo.metaInfo
  pushed : ∀ push ∈ σ.pushed, P push.2.metaInfo

section Carried

variable {P : String → Prop} {σ : State} {i k : ℕ} {call : PublishCall} {handler : Handler}
  {task : Task}

theorem heap_modify_carried {m : Shared Place} {q : Place} {f : PubsubWrapper → PubsubWrapper}
    (h : ∀ p psw, m.heap p = some psw → P psw.pubMetadata)
    (hf : ∀ psw, m.heap q = some psw → P (f psw).pubMetadata) (p : Place) (psw : PubsubWrapper)
    (hpsw : (m.modify q f).heap p = some psw) : P psw.pubMetadata := by
  rw [Shared.heap_modify] at hpsw
  split at hpsw
  · rename_i hpq
    obtain ⟨psw₀, hpsw₀, rfl⟩ := Option.map_eq_some_iff.1 hpsw
    exact hf psw₀ (hpq ▸ hpsw₀)
  · exact h p psw hpsw

theorem pubMetadata_of_testWrapper {mt md event : String} {psw psw' : PubsubWrapper} {b : Bool}
    (h : testWrapper mt md event psw = .ok (psw', b)) : psw'.pubMetadata = psw.pubMetadata := by
  unfold testWrapper at h
  split at h
  · obtain ⟨rfl, -⟩ := Prod.mk.inj (Except.ok.inj h)
    rfl
  · split at h
    · split at h
      · obtain ⟨rfl, -⟩ := Prod.mk.inj (Except.ok.inj h)
        rfl
      · cases h
    · obtain ⟨rfl, -⟩ := Prod.mk.inj (Except.ok.inj h)
      rfl

/-- A walk writes the metadata of its publish. -/
theorem heap_walkStep_carried {m : Shared Place} {mt md : String} {stray : Bool} {walk : Walk Place}
    (hmd : P md) (h : ∀ p psw, m.heap p = some psw → P psw.pubMetadata) :
    ∀ p psw, (walkStep mt md stray (walk, m)).2.heap p = some psw → P psw.pubMetadata := by
  have hmoves := walkStep_moves mt md stray walk m
  generalize walkStep mt md stray (walk, m) = next at hmoves
  cases hmoves with
  | tests _ _ _ hpsw htest =>
    refine heap_modify_carried h fun psw _ => ?_
    rw [pubMetadata_of_testWrapper htest]
    exact h _ _ hpsw
  | marks => exact heap_modify_carried h fun _ _ => hmd
  | goes | copies | null | missing | stays => exact h

theorem Carried.handle (h : Carried P σ) (hi : σ.handlers[i]? = some (call, handler))
    (handler' : Handler) {m' : Shared Place} {new : List (Option Place)} {found' : List Place}
    (hheap : ∀ p psw, m'.heap p = some psw → P psw.pubMetadata) :
    Carried P { σ with
      shared := m'
      handlers := σ.handlers.set i (call, handler')
      tasks := σ.tasks ++ new.map .queued
      found := found' } where
  calls := by
    intro h₀ hmem
    rcases List.mem_or_eq_of_mem_set hmem with hmem | rfl
    · exact h.calls h₀ hmem
    · exact h.calls (call, handler) (List.mem_of_getElem? hi)
  heap := hheap
  tasks l ninfo hmem := by
    rcases List.mem_append.1 hmem with hmem | hnew
    · exact h.tasks l ninfo hmem
    · obtain ⟨_, -, hpush⟩ := List.mem_map.1 hnew
      cases hpush
  pushed := h.pushed

theorem Carried.publish (h : Carried P σ) (hi : σ.handlers[i]? = some (call, handler)) :
    Carried P (publishStep i call handler σ) := by
  have hgoto (handler' : Handler) {m' : Shared Place} {found' : List Place}
      (hheap : ∀ p psw, m'.heap p = some psw → P psw.pubMetadata) :
      Carried P { σ with
        shared := m', handlers := σ.handlers.set i (call, handler'), found := found' } := by
    have hhandle := @Carried.handle P σ i call handler h hi handler' m' [] found' hheap
    rwa [List.map_nil, List.append_nil] at hhandle
  cases handler with
  | walk walk =>
    by_cases hwalk : walk = .done
    · subst hwalk
      exact hgoto _ h.heap
    · rw [publishStep_walk hwalk]
      exact hgoto _ (heap_walkStep_carried (h.calls _ (List.mem_of_getElem? hi)) h.heap)
  | lookup =>
    dsimp only [publishStep]
    split <;> exact hgoto _ h.heap
  | registered eventStr => exact hgoto _ h.heap
  | startNotify ixs => cases ixs <;> exact hgoto _ h.heap
  | enqueue subscribedMap ixs =>
    cases subscribedMap with
    | nil => exact hgoto _ h.heap
    | cons entry subscribedMap => exact @Carried.handle P σ i call _ h hi _ _ [entry.2] _ h.heap
  | done => exact h

theorem Carried.goto (h : Carried P σ) {task' : Task}
    (hpush : ∀ l ninfo, task' = .push l ninfo → P ninfo.metaInfo) {m' : Shared Place}
    {pswmtx' : Place → Bool} (hheap : ∀ p psw, m'.heap p = some psw → P psw.pubMetadata) :
    Carried P { σ with shared := m', tasks := σ.tasks.set k task', pswmtx := pswmtx' } where
  calls := h.calls
  heap := hheap
  tasks l ninfo hmem := by
    rcases List.mem_or_eq_of_mem_set hmem with hmem | heq
    · exact h.tasks l ninfo hmem
    · exact hpush l ninfo heq.symm
  pushed := h.pushed

theorem Carried.checkNotify (h : Carried P σ) (hk : σ.tasks[k]? = some task) :
    Carried P (checkNotifyStep k task σ) := by
  cases task with
  | queued psw =>
    cases psw with
    | none => exact h.goto (fun _ _ heq => by cases heq) h.heap
    | some p =>
      dsimp only [checkNotifyStep]
      split <;> exact h.goto (fun _ _ heq => by cases heq) h.heap
  | lock l =>
    dsimp only [checkNotifyStep]
    split
    · exact h
    · exact h.goto (fun _ _ heq => by cases heq) h.heap
  | test l =>
    dsimp only [checkNotifyStep]
    split
    · exact h.goto (fun _ _ heq => by cases heq) h.heap
    · refine h.goto (fun _ _ heq => ?_) h.heap
      split at heq <;> cases heq
  | clear l =>
    exact h.goto (fun _ _ heq => by cases heq)
      (heap_modify_carried h.heap fun psw hpsw => h.heap _ psw hpsw)
  | unlock l triggered =>
    refine h.goto (fun _ _ heq => ?_) h.heap
    cases triggered <;> cases heq
  | inform l =>
    dsimp only [checkNotifyStep]
    split
    · exact h.goto (fun _ _ heq => by cases heq) h.heap
    · rename_i psw hpsw
      refine h.goto (fun _ _ heq => ?_) h.heap
      obtain ⟨-, rfl⟩ := Task.push.inj heq
      exact h.heap _ psw hpsw
  | push l ninfo =>
    have hninfo := h.tasks l ninfo (List.mem_of_getElem? hk)
    have hgoto : Carried P { σ with tasks := σ.tasks.set k (.delete l) } :=
      h.goto (fun _ _ heq => by cases heq) h.heap
    exact { hgoto with
      pushed := List.forall_mem_append.2 ⟨h.pushed, by simpa using hninfo⟩ }
  | delete l =>
    refine h.goto (fun _ _ heq => by cases heq)
      (heap_modify_carried h.heap fun psw hpsw => ?_)
    split <;> exact h.heap _ psw hpsw
  | done => exact h
  | crashed => exact h

/-- **Every step keeps the metadata.** -/
theorem Carried.step (h : Carried P σ) (event : Event) : Carried P (step event σ) := by
  cases event with
  | publish i =>
    dsimp only [Delivering.step]
    split
    · exact h
    · rename_i hi
      exact h.publish hi
  | checkNotify k =>
    dsimp only [Delivering.step]
    split
    · exact h
    · rename_i hk
      exact h.checkNotify hk
  | consume =>
    obtain ⟨hshared, hhandlers, htasks, -, hpushed⟩ := consumeStep_frame σ
    exact ⟨hhandlers ▸ h.calls, hshared ▸ h.heap, htasks ▸ h.tasks, hpushed ▸ h.pushed⟩

/-- Wrappers that no publish has come to have no metadata of one. -/
theorem pubMetadata_handleAll (subscriptions : List SubscribeCall) {s : Store}
    (h : ∀ ix c w, s.wrapper? ix c = some w → w.pubMetadata = "") :
    ∀ ix c w, (handleAll subscriptions s).wrapper? ix c = some w → w.pubMetadata = "" := by
  induction subscriptions generalizing s with
  | nil => exact h
  | cons sub subscriptions ih =>
    refine ih fun ix c w hw => ?_
    unfold SubscribeCall.handle subscribe at hw
    split at hw
    · exact h ix c w hw
    · rcases addNewClient_cases sub.clientid sub.notifyAddr sub.matchType sub.metadata
        sub.eventList s with ⟨req, reqs, hparse⟩ | ⟨hsame, -⟩
      · rw [pubsubSubscribe, addNewClient_ok _ _ _ _ hparse] at hw
        change (s.subscribed _ _ _ _ req reqs).wrapper? ix c = some w at hw
        rw [wrapper?_subscribed] at hw
        split at hw
        · rw [← Option.some.inj hw]
          rfl
        · exact h ix c w hw
      · rw [pubsubSubscribe, Store.wrapper?, hsame] at hw
        exact h ix c w hw

theorem carried_start {subscriptions : List SubscribeCall} {calls : List PublishCall}
    (hempty : P "") (hcalls : ∀ call ∈ calls, P call.metadata) :
    Carried P (start calls (handleAll subscriptions .empty)) where
  calls := by
    intro handler hmem
    obtain ⟨call, hcall, rfl⟩ := List.mem_map.1 hmem
    exact hcalls call hcall
  heap p psw hpsw := by
    have hnone : ∀ ix c w, Store.empty.wrapper? ix c = some w → w.pubMetadata = "" := by
      intro ix c w hw
      rw [Store.wrapper?_empty] at hw
      cases hw
    rw [pubMetadata_handleAll subscriptions hnone p.1 p.2 psw hpsw]
    exact hempty
  tasks _ _ hmem := absurd hmem List.not_mem_nil
  pushed _ hmem := absurd hmem List.not_mem_nil

end Carried

end Delivering

end TPST
