import TPST.Cluster.ClientRouting
import TPST.Cluster.Notified
import TPST.Server.Redistribute

/-!
# Publishes and subscriptions of client processes

Client processes publish and subscribe at a server of the event's cluster, which they choose at
random. So the publishes of an event and its subscriptions meet in one cluster, but not always at
one server: a publish at a worker does not reach the coordinator.

`routed_notified` says what a counted subscription counts: all publishes of the event if its server
is a worker, and those that were made at its server if this is the coordinator.
-/

namespace TPST

open Std Schedule ClientProcess

/-- `EventTriggure`, as far as `eventSubscribe` reads it. -/
structure EventTriggure where
  eventSubList : List String
  matchType : String
  metaData : String

/-- `eventPublish`: the request that is made, if it returns and there is a server to call. -/
def eventPublish (cfg : GroupConfig) (pubList : List String) (metadata : String) (rand : ℕ)
    (σ : ClientProcess) : Option (Except Fault (Option Message × ClientProcess)) :=
  match pubList with
  | [] => some (.error .undefinedBehaviour)
  | eventMsg :: _ =>
    (getClientFromEvent cfg eventMsg rand σ).map fun looked => do
      let (greeter, σ) ← looked
      return (greeter.map fun addr => ⟨addr, pubList, .client, metadata, "NAME"⟩, σ)

/-- `eventSubscribe`: the call that is made, if it returns and there is a server. -/
def eventSubscribe (cfg : GroupConfig) (etrigger : EventTriggure)
    (clientID notifyAddr eventMsg : String) (rand : ℕ) (σ : ClientProcess) :
    Option (Except Fault (Option SubscribeCall × ClientProcess)) :=
  (getClientFromEvent cfg eventMsg rand σ).map fun looked => do
    let (greeter, σ) ← looked
    return (greeter.map fun addr =>
      { server := addr
        eventList := etrigger.eventSubList
        clientid := clientID
        notifyAddr := notifyAddr
        source := "CLIENT"
        matchType := etrigger.matchType
        metadata := etrigger.metaData }, σ)

/-- The process with the number `process` publishes one event. -/
structure ClientPublish where
  process : ℕ
  event : String
  metadata : String
  rand : ℕ

/-- The requests that processes make, one call of `eventPublish` after the other. A process whose
call does not return makes no other; it is `none`. -/
def eventPublishAll (cfg : GroupConfig) :
    List ClientPublish → (ℕ → Option ClientProcess) → List Message
  | [], _ => []
  | call :: calls, σs =>
    match (σs call.process).bind (eventPublish cfg [call.event] call.metadata call.rand) with
    | none => eventPublishAll cfg calls (Function.update σs call.process none)
    | some (.ok (m, σ)) =>
      m.toList ++ eventPublishAll cfg calls (Function.update σs call.process (some σ))
    | some (.error _) => eventPublishAll cfg calls σs

/-- The server that a call goes to when the processes find what is recorded. -/
def ClientPublish.server (cfg : GroupConfig) (files : FileTree) (call : ClientPublish) :
    Option String :=
  match cfg.getClusterDirFromEventMsg call.event with
  | .ok clusterDir => pick (clusterServers files clusterDir) call.rand
  | .error _ => none

/-- The request of a call at a server. -/
def ClientPublish.request (call : ClientPublish) (server : String) : Message :=
  ⟨server, [call.event], .client, call.metadata, "NAME"⟩

section Publishes

variable {cfg : GroupConfig} {files : FileTree} {σs : ℕ → Option ClientProcess}
  {calls : List ClientPublish}

/-- No process waits, and all of them find what is recorded in the clusters that are not locked. -/
def Informed (files : FileTree) (σs : ℕ → Option ClientProcess) : Prop :=
  ∀ i, ∃ σ, σs i = some σ ∧ σ.Sound ∧
    ∀ d, Unlocked files d → σ.found d = some (clusterServers files d)

/-- The calls are about clusters that are there and not locked. -/
def AllUnlocked (cfg : GroupConfig) (files : FileTree) (calls : List ClientPublish) : Prop :=
  ∀ call ∈ calls, ∀ d, cfg.getClusterDirFromEventMsg call.event = .ok d → Unlocked files d

theorem found_start {d : Path} (hlock : Unlocked files d) :
    (start files).found d = some (clusterServers files d) := if_pos hlock

theorem informed_start (files : FileTree) : Informed files fun _ => some (start files) :=
  fun _ => ⟨_, rfl, sound_start files, fun _ => found_start⟩

theorem Looked.found_eq {σ σ' : ClientProcess} {d : Path} {servers : List String}
    (h : Looked σ d servers σ') (hfound : σ.found d = some servers) (d' : Path) :
    σ'.found d' = σ.found d' := by
  rw [ClientProcess.found, h.view, h.files]
  rcases eq_or_ne d' d with rfl | hne
  · rw [Function.update_self, hfound]
  · rw [Function.update_of_ne hne]
    rfl

/-- **The calls go where the recorded servers are.** -/
theorem eventPublishAll_eq (hσs : Informed files σs) (hcalls : AllUnlocked cfg files calls) :
    eventPublishAll cfg calls σs =
      calls.filterMap fun call => (call.server cfg files).map call.request := by
  induction calls generalizing σs with
  | nil => rfl
  | cons call calls ih =>
    obtain ⟨hcall, hcalls⟩ := List.forall_mem_cons.1 hcalls
    obtain ⟨σ, hσ, hsound, hfound⟩ := hσs call.process
    cases hroute : cfg.getClusterDirFromEventMsg call.event with
    | error x =>
      rw [List.filterMap_cons_none (by rw [ClientPublish.server, hroute]; rfl), ← ih hσs hcalls]
      simp [eventPublishAll, hσ, eventPublish, getClientFromEvent, hroute, Bind.bind, Except.bind]
    | ok d =>
      have hlock := hcall d hroute
      obtain ⟨σ', hσ', hlooked⟩ :=
        getClientFromEvent_eq call.rand hsound hroute (hfound d hlock)
      have hnext : Informed files (Function.update σs call.process (some σ')) := by
        intro i
        rcases eq_or_ne i call.process with rfl | hne
        · refine ⟨σ', Function.update_self _ _ _, hlooked.sound, fun d' hlock' => ?_⟩
          rw [hlooked.found_eq (hfound d hlock), hfound d' hlock']
        · rw [Function.update_of_ne hne]
          exact hσs i
      have hserver : call.server cfg files = pick (clusterServers files d) call.rand := by
        rw [ClientPublish.server, hroute]
      simp only [eventPublishAll, hσ, Option.bind_some, eventPublish, hσ', Option.map_some,
        Bind.bind, Except.bind, pure, Except.pure, ih hnext hcalls, List.filterMap_cons, hserver]
      cases pick (clusterServers files d) call.rand <;> rfl

end Publishes

/-! ## In a deployment -/

/-- The publishes of an event that a subscription at the server with a rank counts. -/
def heard (D : Deployment) (gmRank : ℕ) (server event : String) (calls : List ClientPublish) :
    List ClientPublish :=
  calls.filter fun call => call.event = event ∧
    (D.serverStatus gmRank = .worker ∨ call.server D.toGroupConfig D.files = some server)

section Routed

variable {D : Deployment} {record : String → EventRecordMap} {store : String → Store} {net : Net}
  {calls : List ClientPublish} {d : Path} {r : ℕ} {h e : String}

/-- The recorded servers of a cluster are its coordinator and its workers. -/
theorem mem_clusterServers_files (hd : d.length = 3) :
    h ∈ clusterServers D.files d ↔
      ∃ r, (r, h) ∈ D.servers ∧ D.serverStatus r ≠ .freepool ∧ D.getClusterDir r = d := by
  rw [mem_clusterServers, Deployment.files, GroupConfig.mem_loadAddrInDir_recordAll hd,
    GroupConfig.mem_loadAddrInDir_recordAll hd]
  simp only [GroupConfig.finalDir_eq_workerDir D.groupSize_pos,
    GroupConfig.finalDir_eq_coordinatorDir D.groupSize_pos]
  constructor
  · rintro (⟨r, hmem, hstatus, hdir⟩ | ⟨r, hmem, hstatus, hdir⟩)
    · exact ⟨r, hmem, by simp [hstatus], hdir⟩
    · exact ⟨r, hmem, by simp [hstatus], hdir⟩
  · rintro ⟨r, hmem, hstatus, hdir⟩
    cases hrole : D.serverStatus r with
    | coordinator => exact .inr ⟨r, hmem, hrole, hdir⟩
    | worker => exact .inl ⟨r, hmem, hrole, hdir⟩
    | freepool => exact absurd hrole hstatus

/-- In its cluster a publish reaches a worker, and the coordinator from the coordinator only. -/
theorem reaches_in_cluster {r₀ : ℕ} {s₀ : String} (h₀ : (r₀, s₀) ∈ D.servers)
    (hserver : (r, h) ∈ D.servers) (hsame : D.getClusterDir r₀ = D.getClusterDir r) :
    D.Reaches record e s₀ h ↔ D.serverStatus r = .worker ∨ s₀ = h := by
  have hmod := GroupConfig.getClusterDir_inj.1 hsame
  rw [reaches_iff h₀ hserver]
  constructor
  · rintro (rfl | ⟨hworker, -⟩ | ⟨hcoordinator, hrole | ⟨hworker, -⟩⟩)
    · exact .inr rfl
    · exact .inl hworker
    · -- a group has one coordinator
      rw [GroupConfig.serverStatus_eq_coordinator] at hcoordinator hrole
      rw [Nat.mod_eq_of_lt hcoordinator, Nat.mod_eq_of_lt hrole] at hmod
      subst hmod
      exact .inr (Deployment.addr_unique h₀ hserver)
    · exact .inl hworker
  · rintro (hworker | rfl)
    · exact .inr (.inl ⟨hworker, hmod.symm⟩)
    · exact .inl rfl

/-- **Which publishes of client processes reach a server** of the event's cluster. -/
theorem reaching_eventPublishAll (hroute : D.getClusterDirFromEventMsg e = .ok d)
    (hserver : (r, h) ∈ D.servers) (hgroup : D.serverStatus r ≠ .freepool)
    (hdir : D.getClusterDir r = d) (hcalls : AllUnlocked D.toGroupConfig D.files calls) :
    (reaching D record h e (eventPublishAll D.toGroupConfig calls
      fun _ => some (start D.files))).length = (heard D r h e calls).length := by
  have hd := length_of_route hroute
  have hin : h ∈ clusterServers D.files d :=
    (mem_clusterServers_files hd).2 ⟨r, hserver, hgroup, hdir⟩
  rw [eventPublishAll_eq (informed_start D.files) hcalls]
  clear hcalls
  induction calls with
  | nil => rfl
  | cons call calls ih =>
    rw [List.filterMap_cons, heard, List.filter_cons, ← heard]
    by_cases hevent : call.event = e
    · obtain ⟨a, ha⟩ := exists_pick (List.ne_nil_of_mem hin) call.rand
      have hcalled : call.server D.toGroupConfig D.files = some a := by
        rw [ClientPublish.server, hevent, hroute]
        exact ha
      obtain ⟨r₀, h₀, -, hdir₀⟩ := (mem_clusterServers_files hd).1 (mem_of_pick ha)
      have hreaches := @reaches_in_cluster D record r h e r₀ a h₀ hserver (hdir₀.trans hdir.symm)
      rw [hcalled, Option.map_some, reaching, List.filter_cons, ← reaching]
      simp only [ClientPublish.request, hevent, true_and, hreaches, Option.some.injEq,
        decide_eq_true_eq]
      split
      · rw [List.length_cons, List.length_cons, ih]
      · exact ih
    · rw [if_neg (by simp [hevent])]
      cases call.server D.toGroupConfig D.files with
      | none => exact ih
      | some a =>
        rw [Option.map_some, reaching, List.filter_cons_of_neg, ← reaching]
        · exact ih
        · simp [ClientPublish.request, hevent]

/-- A subscription that is made goes to a server of the cluster. -/
theorem server_of_eventSubscribe {etrigger : EventTriggure} {c addr eventMsg : String} {rand : ℕ}
    {files : FileTree} {call : SubscribeCall} {σ : ClientProcess}
    (hroute : D.getClusterDirFromEventMsg eventMsg = .ok d)
    (hcall : eventSubscribe D.toGroupConfig etrigger c addr eventMsg rand (start files) =
      some (.ok (some call, σ))) :
    ∃ h, pick (clusterServers files d) rand = some h ∧
      call = ⟨h, etrigger.eventSubList, c, addr, "CLIENT", etrigger.matchType,
        etrigger.metaData⟩ := by
  by_cases hlock : Unlocked files d
  · obtain ⟨σ', hσ', -⟩ :=
      getClientFromEvent_eq rand (sound_start files) hroute (found_start hlock)
    simp only [eventSubscribe, hσ', Option.map_some, Bind.bind, Except.bind, pure, Except.pure,
      Option.some.injEq, Except.ok.injEq, Prod.mk.injEq, Option.map_eq_some_iff] at hcall
    obtain ⟨⟨h, hpick, rfl⟩, -⟩ := hcall
    exact ⟨h, hpick, rfl⟩
  · have hfound : (start files).found d = none := if_neg hlock
    simp [eventSubscribe, getClientFromEvent_eq_none rand hroute hfound] at hcall

/-- **What a subscription made by a client process counts.** -/
theorem routed_notified (D : Deployment) (record : String → EventRecordMap) {s : Store}
    (hs : WellFormed s) {c : String} (hfresh : s.Fresh c) (hc : c ≠ "") {ev : String} {n : ℕ}
    (hev : parseEvent ev = .ok (e, (n : Int))) (hn : 1 ≤ n) {addr md eventMsg : String} {rand : ℕ}
    (hmsg : D.getClusterDirFromEventMsg eventMsg = D.getClusterDirFromEventMsg e)
    {call : SubscribeCall} {σ : ClientProcess}
    (hcall : eventSubscribe D.toGroupConfig ⟨[ev], "NAME", md⟩ c addr eventMsg rand
      (start D.files) = some (.ok (some call, σ)))
    (hstore : store call.server = (serve s (.subscribe call.eventList call.clientid
      call.notifyAddr call.matchType call.metadata)).1)
    (calls : List ClientPublish) (hcalls : AllUnlocked D.toGroupConfig D.files calls)
    (hafter : Net.After (D.topology record) store
      (eventPublishAll D.toGroupConfig calls fun _ => some (start D.files)) net) :
    ∃ r, (r, call.server) ∈ D.servers ∧ D.serverStatus r ≠ .freepool ∧
      (notificationsOf c (net.pushedAt call.server)).length ≤
        (heard D r call.server e calls).length / n ∧
      (net.inFlight = 0 →
        (notificationsOf c (net.pushedAt call.server)).length =
          (heard D r call.server e calls).length / n) := by
  cases hroute : D.getClusterDirFromEventMsg e with
  | error x =>
    rw [hroute] at hmsg
    simp [eventSubscribe, getClientFromEvent, hmsg, Bind.bind, Except.bind] at hcall
  | ok d =>
    obtain ⟨h, hpick, rfl⟩ := server_of_eventSubscribe (hmsg.trans hroute) hcall
    obtain ⟨r, hserver, hgroup, hdir⟩ :=
      (mem_clusterServers_files (length_of_route hroute)).1 (mem_of_pick hpick)
    obtain ⟨hwatched, hclosed⟩ := watched_fresh hs hfresh hc hev hn addr md
    rw [← hstore] at hwatched hclosed
    refine ⟨r, hserver, hgroup, ?_⟩
    rw [← @reaching_eventPublishAll D record calls d r h e hroute hserver hgroup hdir hcalls]
    exact hafter.notified hserver (by omega) hwatched hclosed

/-- Two processes publish the event of the second group, one at each of its servers. -/
def twoCalls : List ClientPublish := [⟨0, "e_1", "m", 2⟩, ⟨1, "e_1", "m'", 3⟩]

/-- The subscriber at the coordinator counts one of the two publishes. -/
theorem routed_notified_twoCalls :
    ∃ store net, Net.After (twoGroups.topology fun _ => ∅) store
        (eventPublishAll twoGroups.toGroupConfig twoCalls fun _ => some (start twoGroups.files))
        net ∧
      net.inFlight = 0 ∧ (notificationsOf "c" (net.pushedAt "n1:50051")).length = 1 := by
  let store : String → Store := fun addr =>
    if addr = "n1:50051" then (serve .empty (.subscribe ["e_1"] "c" "addr" "NAME" "")).1 else .empty
  have hroute : twoGroups.getClusterDirFromEventMsg "e_1" =
      .ok [".", "multinodeip", "cluster1"] := by decide +kernel
  have hlock : Unlocked twoGroups.files [".", "multinodeip", "cluster1"] := by decide +kernel
  have hcalls : AllUnlocked twoGroups.toGroupConfig twoGroups.files twoCalls := by
    intro call hcall d hd
    have hevent : call.event = "e_1" := by
      simp only [twoCalls, List.mem_cons, List.not_mem_nil, or_false] at hcall
      obtain rfl | rfl := hcall <;> rfl
    rw [hevent, hroute, Except.ok.injEq] at hd
    exact hd ▸ hlock
  have hpubs : eventPublishAll twoGroups.toGroupConfig twoCalls
      (fun _ => some (start twoGroups.files)) =
        [⟨"n1:50051", ["e_1"], .client, "m", "NAME"⟩,
          ⟨"n3:50051", ["e_1"], .client, "m'", "NAME"⟩] := by
    rw [eventPublishAll_eq (informed_start _) hcalls]
    decide +kernel
  have hfirst : Net.Publishes (twoGroups.topology fun _ => ∅)
      ⟨"n1:50051", ["e_1"], .client, "m", "NAME"⟩ :=
    ⟨⟨_, member?_of_mem (r := 1) (by decide)⟩, rfl, rfl, _, rfl⟩
  have hsecond : Net.Publishes (twoGroups.topology fun _ => ∅)
      ⟨"n3:50051", ["e_1"], .client, "m'", "NAME"⟩ :=
    ⟨⟨_, member?_of_mem (r := 3) (by decide)⟩, rfl, rfl, _, rfl⟩
  have hsent : Net.After (twoGroups.topology fun _ => ∅) store ([] ++ [_] ++ [_]) _ :=
    (Net.After.idle.request hfirst).request hsecond
  have hsimulates := simulates (twoGroups.wellPlaced_topology fun _ => ∅)
  obtain ⟨net, hrun, hdone⟩ := hsimulates.exists_complete
    (((Net.idle store).request _).request _)
  have hafter := hsent.run hrun
  rw [List.nil_append, List.singleton_append, ← hpubs] at hafter
  have hpick : pick (clusterServers twoGroups.files [".", "multinodeip", "cluster1"]) 0 =
      some "n1:50051" := by decide +kernel
  obtain ⟨σ, hσ, -⟩ :=
    getClientFromEvent_eq 0 (sound_start twoGroups.files) hroute (found_start hlock)
  have hcall : eventSubscribe twoGroups.toGroupConfig ⟨["e_1"], "NAME", ""⟩ "c" "addr" "e_1" 0
      (start twoGroups.files) =
        some (.ok (some ⟨"n1:50051", ["e_1"], "c", "addr", "CLIENT", "NAME", ""⟩, σ)) := by
    rw [eventSubscribe, hσ, hpick]
    rfl
  have hev : parseEvent "e_1" = .ok ("e_1", ((1 : ℕ) : Int)) := by decide +kernel
  obtain ⟨r, hserver, -, -, hcount⟩ := routed_notified twoGroups (fun _ => ∅) ReachableBy.empty
    (fun _ => Store.wrapper?_empty _ _) (by decide) hev le_rfl rfl hcall rfl twoCalls hcalls hafter
  refine ⟨store, net, hafter, hdone, (hcount hdone).trans ?_⟩
  obtain rfl : r = 1 := by
    simp only [twoGroups, List.mem_cons, Prod.mk.injEq, List.not_mem_nil, or_false] at hserver
    simpa using hserver
  decide +kernel

end Routed

end TPST
