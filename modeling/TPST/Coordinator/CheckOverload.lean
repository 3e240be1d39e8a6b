import TPST.Cluster.FreePool
import TPST.Cluster.WorkerAddr
import TPST.Coordinator.Overload
import TPST.Coordinator.Rebalance

/-!
# A round of the coordinator

`checkOverload` lists the overloaded events. For each it takes servers from the pool, tells them
their cluster, records them with no subscriptions, has the subscriptions of the event redistributed,
and enters the servers in the worker directory. The number of servers never falls from one event to
the next: it is the largest one calculated so far. The program calculates in floating point, and
what it rounds to is a parameter here: nothing below depends on it.

So which servers each event gets can be read off the record at the start (`handedOut`), and
`checkOverload_relieves` says that the round evens out the overloaded events, if the planner evens
them out on paper, and moves the servers from the pool to the group. `checkOverload_within_iff` says
when no server is above the threshold then.
-/

namespace TPST

open Std

/-- What a coordinator works on: the group, the cluster that each server has been told, and the
directories. -/
structure OverloadState where
  group : GroupState
  gmClusterDir : String → Path
  files : FileTree

/-- The events whose average exceeds the threshold, in map order. -/
def imBalancedEvents (overLoadThreshold : ℤ) (eventRecordMap : EventRecordMap) : List String :=
  eventRecordMap.keys.filter fun event => Overloaded overLoadThreshold event eventRecordMap

/-- `calculateNewServerNum` with the roundings of its arithmetic, at a threshold that it can divide
by. -/
structure Calculation (overLoadThreshold : ℤ) where
  newServerNum : ℚ → ℤ → ℤ
  threshold_pos : 0 < overLoadThreshold

/-- The calculation without roundings. -/
def Calculation.exact {overLoadThreshold : ℤ} (h : 0 < overLoadThreshold) :
    Calculation overLoadThreshold := ⟨calculateNewServerNum overLoadThreshold, h⟩

/-- `serverNumber` of `checkOverload` at an event, where `calculate` is `calculateNewServerNum`. -/
def serverNumberBy (calculate : ℚ → ℤ → ℤ) (soFar : ℤ) (imbEvent : String)
    (eventRecordMap : EventRecordMap) : ℤ :=
  max soFar (calculate (getAverage imbEvent eventRecordMap)
    (subMetas eventRecordMap imbEvent).length)

/-- What `checkOverload` does for one event, on the coordinator at `serverAddr`, given the number of
servers so far. -/
def checkOverloadEvent (std : Sorting) (call : RedistributeCall) (calculate : ℚ → ℤ → ℤ)
    (serverAddr imbEvent : String) (soFar : ℤ) (σ : OverloadState) :
    Except Fault (ℤ × OverloadState) := do
  let number := serverNumberBy calculate soFar imbEvent σ.group.eventRecordMap
  let (serverAddrList, files) := getFreeNodeList number σ.files
  -- `UpdateCluster` on each of them, and its entry in the record
  let newCluster := σ.gmClusterDir serverAddr
  let gmClusterDir := serverAddrList.foldl
    (fun told serAddr => Function.update told serAddr newCluster) σ.gmClusterDir
  let planned := generatePlanForEvent std imbEvent
    (addServers imbEvent serverAddrList σ.group.eventRecordMap)
  let planList ← planned.2
  let group := redistributeByPlan call serverAddr planList ⟨σ.group.store, planned.1⟩
  return (number,
    { group := group
      gmClusterDir := gmClusterDir
      files := serverAddrList.foldl (fun files newAddr => nodeAttach newCluster newAddr files)
        files })

/-- The loop of `checkOverload`. -/
def checkOverloadEvents (std : Sorting) (call : RedistributeCall) (calculate : ℚ → ℤ → ℤ)
    (serverAddr : String) : List String → ℤ → OverloadState → Except Fault OverloadState
  | [], _, σ => .ok σ
  | imbEvent :: events, soFar, σ => do
    let (number, σ) ← checkOverloadEvent std call calculate serverAddr imbEvent soFar σ
    checkOverloadEvents std call calculate serverAddr events number σ

/-- `checkOverload`. -/
def checkOverload (std : Sorting) (call : RedistributeCall) {overLoadThreshold : ℤ}
    (calculation : Calculation overLoadThreshold) (serverAddr : String) (σ : OverloadState) :
    Except Fault OverloadState :=
  checkOverloadEvents std call calculation.newServerNum serverAddr
    (imBalancedEvents overLoadThreshold σ.group.eventRecordMap) 1 σ

/-! ## What a round comes to -/

/-- The servers that each of some events gets from the pool, by the record at the start. -/
def handedOut (calculate : ℚ → ℤ → ℤ) (m : EventRecordMap) :
    List String → ℤ → List String → List (String × List String)
  | [], _, _ => []
  | event :: events, soFar, pool =>
    let number := serverNumberBy calculate soFar event m
    (event, pool.take number.toNat) ::
      handedOut calculate m events number (pool.drop number.toNat)

/-- The planner plans for the event, and on paper that balances it. -/
def PlansBalance (std : Sorting) (e : String) (m : EventRecordMap) : Prop :=
  ∃ plans, (generatePlanForEvent std e m).2 = .ok plans ∧ Balances e m plans

/-- What it is for events to be relieved that get some servers each. -/
structure Relieved (serverAddr : String) (handed : List (String × List String))
    (σ σ' : OverloadState) : Prop where
  /-- No server has more of a relieved event than the average with the new servers, rounded up. -/
  balanced : ∀ p ∈ handed, ∀ a, σ'.group.count p.1 a ≤
    ⌈getAverage p.1 (addServers p.1 p.2 σ.group.eventRecordMap)⌉
  /-- The recorded servers have the subscriptions between them. -/
  total : ∀ p ∈ handed, ((subMetas (addServers p.1 p.2 σ.group.eventRecordMap) p.1).map fun x =>
    σ'.group.count p.1 x.serverAddr).sum =
      totalOf (addServers p.1 p.2 σ.group.eventRecordMap) p.1
  /-- No subscription is lost, and none of a relieved event is at two servers. -/
  kept : ∀ e c, (∃ a, c ∈ (σ'.group.store a).clients e) ↔ ∃ a, c ∈ (σ.group.store a).clients e
  once : ∀ p ∈ handed, ∀ a b c, c ∈ (σ'.group.store a).clients p.1 →
    c ∈ (σ'.group.store b).clients p.1 → a = b
  /-- Other events are left alone. -/
  others : ∀ e, (∀ p ∈ handed, p.1 ≠ e) → ∀ a c,
    (σ'.group.store a).wrapper? e c = (σ.group.store a).wrapper? e c
  /-- The servers come from the pool, in order, to the workers of the group. -/
  freePool : handed.flatMap Prod.snd ++ loadAddrInDir σ'.files gmFreePool =
    loadAddrInDir σ.files gmFreePool
  workers : ∀ a, a ∈ loadAddrInDir σ'.files (σ.gmClusterDir serverAddr ++ [gmWorkerDir]) ↔
    a ∈ handed.flatMap Prod.snd ∨
      a ∈ loadAddrInDir σ.files (σ.gmClusterDir serverAddr ++ [gmWorkerDir])
  /-- They are told so. -/
  told : ∀ a, σ'.gmClusterDir a =
    if a ∈ handed.flatMap Prod.snd then σ.gmClusterDir serverAddr else σ.gmClusterDir a

/-- Subscriptions to the events require no other one of them. -/
def Separate (events : List String) (store : String → Store) : Prop :=
  ∀ e ∈ events, ∀ a c w, (store a).wrapper? e c = some w →
    ∀ e' ∈ events, e' ∈ w.requiredeventMap.keys → e' = e

/-! ## The directories -/

section Files

variable {dir : Path} {a : String}

theorem workerDir_ne (dir : Path) : dir ++ [gmWorkerDir] ≠ gmFreePool := fun h =>
  absurd (List.append_inj_right' h rfl) (by decide)

/-- No worker is in the pool. -/
theorem freePool_nodeAttachAll (hdir : dir ≠ gmFreePool) (files : FileTree)
    (addrs : List String) :
    loadAddrInDir (addrs.foldl (fun files a => nodeAttach dir a files) files) gmFreePool =
      loadAddrInDir files gmFreePool := by
  induction addrs generalizing files with
  | nil => rfl
  | cons a addrs ih =>
    rw [List.foldl_cons, ih, nodeAttach,
      loadAddrInDir_createEntry_of_ne (by simpa using workerDir_ne dir),
      loadAddrInDir_createEntry_of_ne (by simpa using hdir)]

theorem mem_workers_nodeAttachAll (files : FileTree) (addrs : List String) :
    a ∈ loadAddrInDir (addrs.foldl (fun files a => nodeAttach dir a files) files)
        (dir ++ [gmWorkerDir]) ↔
      a ∈ addrs ∨ a ∈ loadAddrInDir files (dir ++ [gmWorkerDir]) := by
  induction addrs generalizing files with
  | nil => simp
  | cons b addrs ih =>
    rw [List.foldl_cons, ih, WorkerAddrState.mem_workers_nodeAttach, List.mem_cons, or_left_comm,
      or_assoc]

theorem foldl_update {β : Type*} (told : String → β) (c : β) (addrs : List String) (a : String) :
    addrs.foldl (fun told b => Function.update told b c) told a =
      if a ∈ addrs then c else told a := by
  induction addrs generalizing told with
  | nil => simp
  | cons b addrs ih =>
    rw [List.foldl_cons, ih]
    by_cases hb : a = b
    · subst hb
      simp
    · simp [hb]

end Files

/-! ## The row of an event

What the coordinator works out for an event depends on the row of the event in the record. -/

section Row

variable {m m' : EventRecordMap} {e : String} (h : m[e]? = m'[e]?)

include h

theorem cell_congr (a : String) : OMap.cell m e a = OMap.cell m' e a := by
  rw [OMap.cell, OMap.cell, h]

theorem subMetas_congr : subMetas m e = subMetas m' e := by rw [subMetas, subMetas, h]

theorem getAverage_congr : getAverage e m = getAverage e m' := by rw [getAverage, getAverage, h]

theorem recorded_congr (a : String) : recorded m e a = recorded m' e a := by
  rw [recorded, recorded, cell_congr h]

theorem getElem?_addServers_congr (servers : List String) :
    (addServers e servers m)[e]? = (addServers e servers m')[e]? := by
  induction servers generalizing m m' with
  | nil => exact h
  | cons a servers ih =>
    have hstatus : (updateStatusMap e a 0 m)[e]? = (updateStatusMap e a 0 m')[e]? := by
      rw [updateStatusMap, updateStatusMap, h]
      split <;> exact OMap.getElem?_alter_congr h _ _
    exact ih hstatus

theorem getElem?_fakeRedistributeByPlan_congr (plans : List Plan) :
    (fakeRedistributeByPlan plans m)[e]? = (fakeRedistributeByPlan plans m')[e]? := by
  induction plans generalizing m m' with
  | nil => exact h
  | cons plan plans ih =>
    apply ih
    exact OMap.getElem?_alter_congr (OMap.getElem?_alter_congr h _ _) _ _

theorem serverNumberBy_congr (calculate : ℚ → ℤ → ℤ) (soFar : ℤ) :
    serverNumberBy calculate soFar e m = serverNumberBy calculate soFar e m' := by
  rw [serverNumberBy, serverNumberBy, getAverage_congr h, subMetas_congr h]

theorem generatePlanForEvent_congr (std : Sorting) :
    (generatePlanForEvent std e m).2 = (generatePlanForEvent std e m').2 := by
  rw [generatePlanForEvent, generatePlanForEvent, getAverage_congr h, subMetas_congr h]

theorem Balances.congr {plans : List Plan} (hbalance : Balances e m plans) :
    Balances e m' plans where
  nonneg done hdone a n hcell := by
    rw [← cell_congr (getElem?_fakeRedistributeByPlan_congr h done)] at hcell
    exact hbalance.nonneg done hdone a n hcell
  le_ceil a n hcell := by
    rw [← cell_congr (getElem?_fakeRedistributeByPlan_congr h plans)] at hcell
    rw [← getAverage_congr h]
    exact hbalance.le_ceil a n hcell
  floor_le a n n' hcell habove hcell' := by
    rw [← cell_congr h] at hcell
    rw [← getAverage_congr h] at habove ⊢
    rw [← cell_congr (getElem?_fakeRedistributeByPlan_congr h plans)] at hcell'
    exact hbalance.floor_le a n n' hcell habove hcell'

end Row

/-! ## The servers that are handed out -/

/-- **When the planner balances an event on paper**: one server can fill up every other one, at
most one is above the average, rounded up, and what the servers hold is at most one short of that
average for each of them. -/
theorem plansBalance_iff {std : Sorting} {m : EventRecordMap} {e : String}
    (hpos : ∀ a n, OMap.cell m e a = some n → 0 ≤ n) (h2 : 2 ≤ (subMetas m e).length) :
    PlansBalance std e m ↔ Coverable m e ∧ OneAbove m e ∧
      (subMetas m e).length * ⌈getAverage e m⌉ ≤ totalOf m e + 1 := by
  constructor
  · rintro ⟨plans, hplans, hbalance⟩
    obtain ⟨first, rest, hl, hrest, hcover, rfl⟩ := exists_eq_fillPlans h2 hplans
    exact ⟨hcover, (balances_fillPlans_iff hl hrest hcover hpos).1 hbalance⟩
  · rintro ⟨hcover, hbalanced⟩
    obtain ⟨first, rest, hl, hrest⟩ := exists_sort_eq_cons std h2
    exact ⟨_, generatePlanForEvent_of_coverable hl hrest h2 hcover,
      (balances_fillPlans_iff hl hrest hcover hpos).2 hbalanced⟩

theorem PlansBalance.congr {std : Sorting} {m m' : EventRecordMap} {e : String} (h : m[e]? = m'[e]?)
    (hbalance : PlansBalance std e m) : PlansBalance std e m' := by
  obtain ⟨plans, hplans, hbalance⟩ := hbalance
  exact ⟨plans, generatePlanForEvent_congr h std ▸ hplans, hbalance.congr h⟩

section Servers

variable {calculate : ℚ → ℤ → ℤ} {soFar : ℤ} {m m' : EventRecordMap} {e e' : String}
  {servers pool events : List String}

theorem mem_addServers (he : e' ∈ m) : e' ∈ addServers e servers m := by
  induction servers generalizing m with
  | nil => exact he
  | cons a servers ih => exact ih (mem_updateStatusMap.2 (.inr he))

theorem getElem?_addServers_of_ne (he : e' ≠ e) :
    (addServers e servers m)[e']? = m[e']? := by
  induction servers generalizing m with
  | nil => rfl
  | cons a servers ih =>
    rw [addServers, List.foldl_cons, ← addServers, ih, getElem?_updateStatusMap_of_ne m a 0 he]

/-- A server that is entered has the number it had, which is 0 if it is new. -/
theorem recorded_addServers (hpos : ∀ a, 0 ≤ recorded m e a) (a : String) :
    recorded (addServers e servers m) e a = recorded m e a := by
  induction servers generalizing m with
  | nil => rfl
  | cons b servers ih =>
    have hsame : ∀ a, recorded (updateStatusMap e b 0 m) e a = recorded m e a := by
      intro a
      rw [recorded_updateStatusMap le_rfl, max_eq_left (hpos a), ite_self]
    rw [addServers, List.foldl_cons, ← addServers, ih fun a => (hsame a).symm ▸ hpos a, hsame]

theorem mem_handedOut {p : String × List String}
    (hp : p ∈ handedOut calculate m events soFar pool) :
    p.1 ∈ events := by
  induction events generalizing soFar pool with
  | nil => cases hp
  | cons e events ih =>
    rcases List.mem_cons.1 hp with rfl | hp
    · exact List.mem_cons_self
    · exact List.mem_cons_of_mem _ (ih hp)

theorem handedOut_congr (h : ∀ e ∈ events, m[e]? = m'[e]?) :
    handedOut calculate m events soFar pool = handedOut calculate m' events soFar pool := by
  induction events generalizing soFar pool with
  | nil => rfl
  | cons e events ih =>
    rw [List.forall_mem_cons] at h
    rw [handedOut, handedOut, serverNumberBy_congr h.1, ih h.2]

end Servers

/-! ## One event -/

section Event

variable {std : Sorting} {call : RedistributeCall} {calculate : ℚ → ℤ → ℤ} {T soFar : ℤ}
  {serverAddr e : String}
  {servers : List String} {handed : List (String × List String)} {σ σ₁ σ' : OverloadState}

/-- **What is done for one event** relieves it. -/
theorem exists_checkOverloadEvent (hcall : Carries call)
    (hdir : σ.gmClusterDir serverAddr ≠ gmFreePool) (hsoFar : 1 ≤ soFar)
    (he : e ∈ σ.group.eventRecordMap) (hm : Movable e σ.group.store)
    (hmatch : ∀ a, recorded σ.group.eventRecordMap e a = σ.group.count e a)
    (hservers : servers = (loadAddrInDir σ.files gmFreePool).take
      (serverNumberBy calculate soFar e σ.group.eventRecordMap).toNat)
    (hbalance : PlansBalance std e (addServers e servers σ.group.eventRecordMap)) :
    ∃ σ', checkOverloadEvent std call calculate serverAddr e soFar σ =
        .ok (serverNumberBy calculate soFar e σ.group.eventRecordMap, σ') ∧
      Relieved serverAddr [(e, servers)] σ σ' ∧
      ∃ transfers, CarriedOut e transfers
        ⟨σ.group.store, addServers e servers σ.group.eventRecordMap⟩ σ'.group := by
  set m := addServers e servers σ.group.eventRecordMap with hmdef
  set number := serverNumberBy calculate soFar e σ.group.eventRecordMap with hnumber
  have hnumber1 : 1 ≤ number := hsoFar.trans (le_max_left _ _)
  obtain ⟨plans, hplans, hbalance⟩ := hbalance
  have hmatch' : ∀ a, recorded m e a = (⟨σ.group.store, m⟩ : GroupState).count e a := by
    intro a
    rw [hmdef, recorded_addServers (fun a => hmatch a ▸ Int.natCast_nonneg _), hmatch]
    rfl
  obtain ⟨hcarried, hcount⟩ := @carriedOut_generatePlanForEvent call serverAddr e
    ⟨σ.group.store, m⟩ std plans hcall hm hmatch' hplans hbalance
  have hfst : (getFreeNodeList number σ.files).1 = servers :=
    (getFreeNodeList_fst hnumber1 σ.files).trans hservers.symm
  have hpool := freePool_getFreeNodeList hnumber1 σ.files
  refine ⟨⟨redistributeByPlan call serverAddr plans ⟨σ.group.store, m⟩,
    servers.foldl (fun told serAddr => Function.update told serAddr (σ.gmClusterDir serverAddr))
      σ.gmClusterDir,
    servers.foldl (fun files newAddr => nodeAttach (σ.gmClusterDir serverAddr) newAddr files)
      (getFreeNodeList number σ.files).2⟩, ?_, ?_, _, hcarried⟩
  · have hopen : OMap.openRow m e = m := OMap.openRow_eq_self (mem_addServers he)
    have hmap : (generatePlanForEvent std e m).1 = m := hopen
    simp only [checkOverloadEvent, ← hnumber, hfst, ← hmdef, hplans, hmap]
    rfl
  · refine ⟨fun p hp a => ?_, fun p hp => ?_, fun e' c => ?_, fun p hp a b c ha hb => ?_,
      fun e' he' a c => ?_, ?_, fun a => ?_, fun a => ?_⟩
    · obtain rfl := List.mem_singleton.1 hp
      exact (hcount a).trans_le (hbalance.recorded_le (nonneg_of_recorded hmatch') a)
    · obtain rfl := List.mem_singleton.1 hp
      simp only [hcount]
      exact sum_recorded_fakeRedistributeByPlan (recorded_of_plan hplans)
    · rcases eq_or_ne e' e with rfl | hne
      · exact hcarried.mem_iff c
      · exact exists_congr fun a => by
          rw [Store.mem_clients, Store.mem_clients, hcarried.other e' hne]
    · obtain rfl := List.mem_singleton.1 hp
      exact hcarried.movable.apart a b c ha hb
    · exact hcarried.other e' (he' _ List.mem_cons_self).symm a c
    · rw [freePool_nodeAttachAll hdir, hpool]
      simp [hservers]
    · rw [mem_workers_nodeAttachAll, getFreeNodeList,
        loadAddrInDir_eraseAll_of_ne (workerDir_ne _).symm]
      simp
    · exact (foldl_update ..).trans (by simp)

theorem Relieved.refl : Relieved serverAddr [] σ σ where
  balanced _ hp := absurd hp List.not_mem_nil
  total _ hp := absurd hp List.not_mem_nil
  kept _ _ := Iff.rfl
  once _ hp := absurd hp List.not_mem_nil
  others _ _ _ _ := rfl
  freePool := rfl
  workers _ := by simp
  told _ := by simp

theorem Relieved.gmClusterDir_eq (h : Relieved serverAddr handed σ σ') :
    σ'.gmClusterDir serverAddr = σ.gmClusterDir serverAddr := by
  rw [h.told, ite_self]

theorem Relieved.mem_others (h : Relieved serverAddr handed σ σ') {e' : String}
    (he : ∀ p ∈ handed, p.1 ≠ e') (a c : String) :
    c ∈ (σ'.group.store a).clients e' ↔ c ∈ (σ.group.store a).clients e' := by
  rw [Store.mem_clients, Store.mem_clients, h.others e' he]

/-- **One event, and then others**: what the others leave alone is what was done for the first. -/
theorem Relieved.cons (h : Relieved serverAddr [(e, servers)] σ σ₁)
    (hrest : Relieved serverAddr handed σ₁ σ') (hnew : ∀ p ∈ handed, p.1 ≠ e)
    (hrows : ∀ p ∈ handed, σ₁.group.eventRecordMap[p.1]? = σ.group.eventRecordMap[p.1]?) :
    Relieved serverAddr ((e, servers) :: handed) σ σ' where
  balanced p hp a := by
    rcases List.mem_cons.1 hp with rfl | hp
    · rw [GroupState.count, subNum_congr (hrest.mem_others hnew a)]
      exact h.balanced _ List.mem_cons_self a
    · rw [← getAverage_congr (getElem?_addServers_congr (hrows p hp) p.2)]
      exact hrest.balanced p hp a
  total p hp := by
    rcases List.mem_cons.1 hp with rfl | hp
    · have hsame : ∀ a, σ'.group.count e a = σ₁.group.count e a := fun a => by
        rw [GroupState.count, GroupState.count, subNum_congr (hrest.mem_others hnew a)]
      simp only [hsame]
      exact h.total _ List.mem_cons_self
    · have hrow := getElem?_addServers_congr (hrows p hp) p.2
      have htotal := hrest.total p hp
      rwa [totalOf, subMetas_congr hrow, ← totalOf] at htotal
  kept e' c := (hrest.kept e' c).trans (h.kept e' c)
  once p hp a b c ha hb := by
    rcases List.mem_cons.1 hp with rfl | hp
    · rw [hrest.mem_others hnew] at ha hb
      exact h.once _ List.mem_cons_self a b c ha hb
    · exact hrest.once p hp a b c ha hb
  others e' he' a c := by
    rw [List.forall_mem_cons] at he'
    rw [hrest.others e' he'.2, h.others e' (by simpa using he'.1)]
  freePool := by
    rw [List.flatMap_cons, List.append_assoc, hrest.freePool, ← h.freePool]
    simp
  workers a := by
    have hfirst := h.workers a
    have hothers := hrest.workers a
    rw [h.gmClusterDir_eq] at hothers
    rw [hothers, hfirst]
    simp only [List.flatMap_cons, List.flatMap_nil, List.mem_append, List.append_nil]
    tauto
  told a := by
    rw [hrest.told, h.gmClusterDir_eq, h.told a]
    by_cases hlater : a ∈ handed.flatMap Prod.snd <;> simp [hlater]

/-- **When the servers are within the threshold**: if on paper the new servers are enough. -/
theorem Relieved.within_iff (h : Relieved serverAddr handed σ σ') (hT : 0 ≤ T)
    {p : String × List String} (hp : p ∈ handed) :
    (∀ a, σ'.group.count p.1 a ≤ T) ↔
      ¬ Overloaded T p.1 (addServers p.1 p.2 σ.group.eventRecordMap) := by
  constructor
  · intro hle hover
    have hmore := (overloaded_iff (length_ne_zero_of_overloaded hT hover)).1 hover
    have hsum := List.sum_le_card_nsmul
      ((subMetas (addServers p.1 p.2 σ.group.eventRecordMap) p.1).map fun x =>
        σ'.group.count p.1 x.serverAddr) T fun n hn => by
      obtain ⟨x, -, rfl⟩ := List.mem_map.1 hn
      exact hle x.serverAddr
    rw [h.total p hp, List.length_map, nsmul_eq_mul, mul_comm] at hsum
    exact absurd hmore hsum.not_gt
  · intro hnot a
    exact (h.balanced p hp a).trans (Int.ceil_le.2 (le_of_not_gt hnot))

end Event

/-! ## The round -/

section Round

variable {std : Sorting} {call : RedistributeCall} {calculate : ℚ → ℤ → ℤ} {T soFar : ℤ}
  {serverAddr e : String}
  {events : List String} {σ : OverloadState}

theorem Movable.congr {store store' : String → Store} (hm : Movable e store)
    (hreachable : ∀ a, Reachable (store' a))
    (hsame : ∀ a c, (store' a).wrapper? e c = (store a).wrapper? e c) : Movable e store' where
  reachable := hreachable
  lands a c w hw := hm.lands a c w (hsame a c ▸ hw)
  apart a b c ha hb := by
    rw [Store.mem_clients, hsame, ← Store.mem_clients] at ha hb
    exact hm.apart a b c ha hb

/-- **A loop over events relieves them**: what is done for one leaves the row and the clients of
those to come alone. -/
theorem exists_checkOverloadEvents (hcall : Carries call) (hnodup : events.Nodup)
    (hdir : σ.gmClusterDir serverAddr ≠ gmFreePool) (hsoFar : 1 ≤ soFar)
    (he : ∀ e ∈ events, e ∈ σ.group.eventRecordMap)
    (hm : ∀ e ∈ events, Movable e σ.group.store) (hseparate : Separate events σ.group.store)
    (hmatch : ∀ e ∈ events, ∀ a, recorded σ.group.eventRecordMap e a = σ.group.count e a)
    (hbalance : ∀ p ∈ handedOut calculate σ.group.eventRecordMap events soFar
      (loadAddrInDir σ.files gmFreePool),
      PlansBalance std p.1 (addServers p.1 p.2 σ.group.eventRecordMap)) :
    ∃ σ', checkOverloadEvents std call calculate serverAddr events soFar σ = .ok σ' ∧
      Relieved serverAddr (handedOut calculate σ.group.eventRecordMap events soFar
        (loadAddrInDir σ.files gmFreePool)) σ σ' := by
  induction events generalizing σ soFar with
  | nil => exact ⟨σ, rfl, .refl⟩
  | cons e events ih =>
    rw [List.nodup_cons] at hnodup
    rw [List.forall_mem_cons] at he hm hmatch
    rw [handedOut, List.forall_mem_cons] at hbalance
    obtain ⟨σ₁, hevent, hrelieved, transfers, hcarried⟩ :=
      exists_checkOverloadEvent hcall hdir hsoFar he.1 hm.1 hmatch.1 rfl hbalance.1
    set number := serverNumberBy calculate soFar e σ.group.eventRecordMap
    have hnumber1 : 1 ≤ number := hsoFar.trans (le_max_left _ _)
    have hne : ∀ e' ∈ events, e' ≠ e := fun e' he' heq => hnodup.1 (heq ▸ he')
    have hrow : ∀ e' ∈ events, σ₁.group.eventRecordMap[e']? = σ.group.eventRecordMap[e']? := by
      intro e' he'
      rw [hcarried.record e' (hne e' he') fun a c w hw hkey => hne e' he' <|
        hseparate e List.mem_cons_self a c w hw e' (List.mem_cons_of_mem _ he') hkey,
        getElem?_addServers_of_ne (hne e' he')]
    have hsame : ∀ e' ∈ events, ∀ a c,
        (σ₁.group.store a).wrapper? e' c = (σ.group.store a).wrapper? e' c :=
      fun e' he' => hcarried.other e' (hne e' he')
    have hpool : loadAddrInDir σ₁.files gmFreePool =
        (loadAddrInDir σ.files gmFreePool).drop number.toNat := by
      have hfree := hrelieved.freePool
      rw [List.flatMap_singleton] at hfree
      exact List.append_cancel_left (hfree.trans (List.take_append_drop ..).symm)
    have hhanded : handedOut calculate σ₁.group.eventRecordMap events number
        (loadAddrInDir σ₁.files gmFreePool) =
        handedOut calculate σ.group.eventRecordMap events number
          ((loadAddrInDir σ.files gmFreePool).drop number.toNat) := by
      rw [hpool, handedOut_congr hrow]
    have hcount : ∀ e' ∈ events, ∀ a,
        recorded σ₁.group.eventRecordMap e' a = σ₁.group.count e' a := by
      intro e' he' a
      have hclients : ∀ c, c ∈ (σ₁.group.store a).clients e' ↔
          c ∈ (σ.group.store a).clients e' := fun c => by
        rw [Store.mem_clients, Store.mem_clients, hsame e' he']
      rw [recorded_congr (hrow e' he'), hmatch.2 e' he', GroupState.count, GroupState.count,
        subNum_congr hclients]
    have hlater : Separate events σ₁.group.store := by
      intro e' he' a c w hw e'' he''
      rw [hsame e' he'] at hw
      exact hseparate e' (List.mem_cons_of_mem _ he') a c w hw e'' (List.mem_cons_of_mem _ he'')
    have hkeys : ∀ e' ∈ events, e' ∈ σ₁.group.eventRecordMap := by
      intro e' he'
      rw [← ExtTreeMap.isSome_getElem?_iff_mem, hrow e' he', ExtTreeMap.isSome_getElem?_iff_mem]
      exact he.2 e' he'
    have hplans : ∀ p ∈ handedOut calculate σ₁.group.eventRecordMap events number
        (loadAddrInDir σ₁.files gmFreePool),
        PlansBalance std p.1 (addServers p.1 p.2 σ₁.group.eventRecordMap) := by
      intro p hp
      rw [hhanded] at hp
      exact (hbalance.2 p hp).congr
        (getElem?_addServers_congr (hrow _ (mem_handedOut hp)).symm p.2)
    have hmovable : ∀ e' ∈ events, Movable e' σ₁.group.store := fun e' he' =>
      (hm.2 e' he').congr hcarried.movable.reachable (hsame e' he')
    obtain ⟨σ', hround, hrest⟩ := ih hnodup.2 (hrelieved.gmClusterDir_eq ▸ hdir) hnumber1 hkeys
      hmovable hlater hcount hplans
    refine ⟨σ', ?_, ?_⟩
    · rw [checkOverloadEvents, hevent]
      exact hround
    · rw [hhanded] at hrest
      exact hrelieved.cons hrest (fun p hp => hne _ (mem_handedOut hp))
        fun p hp => hrow _ (mem_handedOut hp)

end Round

section Relief

variable {std : Sorting} {call : RedistributeCall} {T : ℤ} {calculation : Calculation T}
  {serverAddr : String} {σ : OverloadState} (hcall : Carries call)
  (hdir : σ.gmClusterDir serverAddr ≠ gmFreePool)
  (hm : ∀ e ∈ imBalancedEvents T σ.group.eventRecordMap, Movable e σ.group.store)
  (hseparate : Separate (imBalancedEvents T σ.group.eventRecordMap) σ.group.store)
  (hmatch : ∀ e ∈ imBalancedEvents T σ.group.eventRecordMap, ∀ a,
    recorded σ.group.eventRecordMap e a = σ.group.count e a)
  (hbalance : ∀ p ∈ handedOut calculation.newServerNum σ.group.eventRecordMap
    (imBalancedEvents T σ.group.eventRecordMap) 1 (loadAddrInDir σ.files gmFreePool),
    PlansBalance std p.1 (addServers p.1 p.2 σ.group.eventRecordMap))

include hcall hdir hm hseparate hmatch hbalance

/-- **A round relieves the overloaded events**, for every group whose record shows what the servers
have of them, and whatever of the reports comes to the coordinator: if what the planner plans for
each, with the servers it gets, balances it on paper. -/
theorem checkOverload_relieves :
    ∃ σ', checkOverload std call calculation serverAddr σ = .ok σ' ∧
      Relieved serverAddr (handedOut calculation.newServerNum σ.group.eventRecordMap
        (imBalancedEvents T σ.group.eventRecordMap) 1 (loadAddrInDir σ.files gmFreePool)) σ σ' :=
  exists_checkOverloadEvents hcall (ExtTreeMap.nodup_keys.filter _) hdir le_rfl
    (fun _ he => ExtTreeMap.mem_keys.1 (List.mem_of_mem_filter he)) hm hseparate hmatch hbalance

/-- **When a round brings the servers within the threshold**: for each overloaded event, no server
has more subscriptions than the threshold in the end exactly if the servers from the pool are
enough for this on paper. -/
theorem checkOverload_within_iff :
    ∃ σ', checkOverload std call calculation serverAddr σ = .ok σ' ∧
      ∀ p ∈ handedOut calculation.newServerNum σ.group.eventRecordMap
        (imBalancedEvents T σ.group.eventRecordMap) 1
        (loadAddrInDir σ.files gmFreePool), (∀ a, σ'.group.count p.1 a ≤ T) ↔
          ¬ Overloaded T p.1 (addServers p.1 p.2 σ.group.eventRecordMap) := by
  obtain ⟨σ', hround, hrelieved⟩ := exists_checkOverloadEvents hcall
    (ExtTreeMap.nodup_keys.filter _) hdir le_rfl
    (fun _ he => ExtTreeMap.mem_keys.1 (List.mem_of_mem_filter he)) hm hseparate hmatch hbalance
  exact ⟨σ', hround, fun _ hp => hrelieved.within_iff calculation.threshold_pos.le hp⟩

end Relief

/-! ## A group and a server in the pool -/

/-- A server with two clients, where one is allowed, and a server in the pool. -/
def pairState : OverloadState where
  group := pairGroup
  gmClusterDir a := if a = "s1" then gmMultinodeip ++ ["cluster0"] else []
  files := [gmMultinodeip, gmFreePool, gmFreePool ++ ["s2"]]

theorem mem_imBalancedEvents_pairState {e : String} :
    e ∈ imBalancedEvents 1 pairState.group.eventRecordMap ↔ e = "a" := by
  have hevents : imBalancedEvents 1 pairState.group.eventRecordMap = ["a"] := by decide +kernel
  rw [hevents, List.mem_singleton]

theorem handedOut_pairState : handedOut (Calculation.exact Int.one_pos).newServerNum
    pairState.group.eventRecordMap (imBalancedEvents 1 pairState.group.eventRecordMap) 1
    (loadAddrInDir pairState.files gmFreePool) = [("a", ["s2"])] := by decide +kernel

theorem movable_pairState : ∀ e ∈ imBalancedEvents 1 pairState.group.eventRecordMap,
    Movable e pairState.group.store := by
  intro e he
  rw [mem_imBalancedEvents_pairState.1 he]
  exact movable_pairStores

theorem separate_pairState :
    Separate (imBalancedEvents 1 pairState.group.eventRecordMap) pairState.group.store := by
  intro e he a c w hw e' he' hkey
  rw [mem_imBalancedEvents_pairState.1 he, mem_imBalancedEvents_pairState.1 he']

theorem plansBalance_pairState : ∀ p ∈ handedOut (Calculation.exact Int.one_pos).newServerNum
    pairState.group.eventRecordMap (imBalancedEvents 1 pairState.group.eventRecordMap) 1
    (loadAddrInDir pairState.files gmFreePool),
    PlansBalance insertionSorting p.1 (addServers p.1 p.2 pairState.group.eventRecordMap) := by
  rw [handedOut_pairState, List.forall_mem_singleton]
  exact ⟨[movePlan], by decide +kernel, balances_spareGroup.congr (by decide +kernel)⟩

/-- The server is taken from the pool, and gets one of the clients. -/
theorem checkOverload_relieves_pair :
    ∃ σ', checkOverload insertionSorting redistributeCall (.exact Int.one_pos) "s1" pairState =
        .ok σ' ∧
      Relieved "s1" [("a", ["s2"])] pairState σ' := by
  rw [← handedOut_pairState]
  exact checkOverload_relieves carries_redistributeCall (by decide) movable_pairState
    separate_pairState (fun e _ => recordMatches_pairGroup e) plansBalance_pairState

/-- No server has more than one client then. -/
theorem checkOverload_within_pair :
    ∃ σ', checkOverload insertionSorting redistributeCall (.exact Int.one_pos) "s1" pairState =
        .ok σ' ∧
      ∀ a, σ'.group.count "a" a ≤ 1 := by
  obtain ⟨σ', hround, hwithin⟩ := @checkOverload_within_iff insertionSorting redistributeCall 1
    (.exact Int.one_pos) "s1" pairState carries_redistributeCall (by decide)
    movable_pairState separate_pairState (fun e _ => recordMatches_pairGroup e)
    plansBalance_pairState
  rw [handedOut_pairState, List.forall_mem_singleton] at hwithin
  exact ⟨σ', hround, hwithin.2 (by decide +kernel)⟩

end TPST
