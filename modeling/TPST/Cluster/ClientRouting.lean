import TPST.Cluster.EventRouting
import TPST.Cluster.SubscribeHandler
import TPST.Cluster.WorkerAddr
import TPST.Utils.FileLock

/-!
# The server that a client calls

A client process calls one of the servers of the event's cluster, at random. The addresses of a
cluster are loaded when a client is looked for there, and kept in three maps. They are not loaded
again: neither are servers added that are recorded later, nor does a cluster that was empty ever get
a server. They are loaded under the lock of the cluster's directory. While this is not there, or has
a lock file in it, the call does not return, and tries again and again.

* `found_run`: what a process has of a cluster is what was recorded when it first got the lock.
* `client_run`: the server it calls is one of these, the one that `rand` points to.
-/

namespace TPST

open Std Schedule

/-- The maps of a client process. A client is the address that it calls. -/
structure ClientProcess extends WorkerAddrState where
  workerClients : Path → Option (OMap String String)
  coordinatorClients : List String

/-- `updateWorkerClients`. The key that is looked for is the address, a path of one name. -/
def updateWorkerClients (groupDir : Path) (σ : ClientProcess) : ClientProcess :=
  (σ.workerAddrMap groupDir).foldl
    (fun σ addr =>
      if (σ.workerClients [addr]).isSome then σ
      else
        let clients := (σ.workerClients groupDir).getD ∅
        { σ with
          workerClients :=
            Function.update σ.workerClients groupDir (some (clients.insert addr addr)) }) σ

/-- `getLock` gets the lock of the directory at once: it is there, and has no lock file in it. -/
def Unlocked (files : FileTree) (clusterDir : Path) : Prop :=
  clusterDir ∈ files ∧ clusterDir ++ [lockFileName] ∉ files

instance (files : FileTree) (clusterDir : Path) : Decidable (Unlocked files clusterDir) :=
  inferInstanceAs (Decidable (_ ∧ _))

/-- `initClients`, which does not return from the `getLock` of `updateWorkerAddrMap` as long as the
directory is not unlocked. -/
def initClients (clusterDir : Path) (σ : ClientProcess) : Option ClientProcess :=
  if Unlocked σ.files clusterDir then
    let σ := { σ with toWorkerAddrState := updateWorkerAddrMap clusterDir σ.toWorkerAddrState }
    let σ := updateWorkerClients clusterDir σ
    some { σ with
      coordinatorClients := updateCoordinatorClients σ.files clusterDir σ.coordinatorClients }
  else none

/-- `getServerIdFromAddr`, given what `rand` returns. -/
def getServerIdFromAddr (rand serverNum : ℕ) : ℕ := rand % serverNum

/-- The loop over the clients of a cluster. -/
def clientLoop (serverId : ℕ) : ℕ → List (String × String) → Option String
  | _, [] => none
  | counter, (_, client) :: clients =>
    if counter = serverId then some client else clientLoop serverId (counter + 1) clients

/-- `getClientFromEvent`, if it returns; there may be no server to call. -/
def getClientFromEvent (cfg : GroupConfig) (eventString : String) (rand : ℕ) (σ : ClientProcess) :
    Option (Except Fault (Option String × ClientProcess)) :=
  match cfg.getClusterDirFromEventMsg eventString with
  | .error e => some (.error e)
  | .ok clusterDir =>
    (if (σ.workerClients clusterDir).isNone then initClients clusterDir σ else some σ).map fun σ =>
      -- `workerClients[clusterDir]` makes an entry
      let clients := (σ.workerClients clusterDir).getD ∅
      let σ := { σ with workerClients := Function.update σ.workerClients clusterDir (some clients) }
      let serverNum := clients.size
      if serverNum = 0 then .ok (none, σ)
      else .ok (clientLoop (getServerIdFromAddr rand serverNum) 0 clients.toList, σ)

/-! ## What is called -/

/-- The servers recorded for a cluster, in order. -/
def clusterServers (files : FileTree) (clusterDir : Path) : List String :=
  (ExtTreeSet.ofList (loadAddrInDir files (clusterDir ++ [gmWorkerDir]) ++
    loadAddrInDir files (clusterDir ++ [gmCoordinatorDir])) compare).toList

/-- The server that `rand` points to. -/
def pick (servers : List String) (rand : ℕ) : Option String := servers[rand % servers.length]?

section Lists

variable {files : FileTree} {clusterDir : Path} {a : String} {servers : List String}

theorem mem_clusterServers :
    a ∈ clusterServers files clusterDir ↔
      a ∈ loadAddrInDir files (clusterDir ++ [gmWorkerDir]) ∨
        a ∈ loadAddrInDir files (clusterDir ++ [gmCoordinatorDir]) := by
  simp [clusterServers]

theorem clientLoop_eq (serverId counter : ℕ) (clients : List (String × String)) :
    clientLoop (counter + serverId) counter clients = (clients.map Prod.snd)[serverId]? := by
  induction clients generalizing serverId counter with
  | nil => rfl
  | cons client clients ih =>
    obtain ⟨addr, client⟩ := client
    cases serverId with
    | zero => simp [clientLoop]
    | succ serverId =>
      have hne : counter ≠ counter + (serverId + 1) := by omega
      rw [clientLoop, if_neg hne, show counter + (serverId + 1) = counter + 1 + serverId by omega,
        ih]
      rfl

theorem mem_of_pick {rand : ℕ} (h : pick servers rand = some a) : a ∈ servers :=
  List.mem_of_getElem? h

/-- There is a server to call if any is recorded. -/
theorem exists_pick (h : servers ≠ []) (rand : ℕ) : ∃ a, pick servers rand = some a :=
  ⟨_, List.getElem?_eq_getElem (Nat.mod_lt rand (List.length_pos_of_ne_nil h))⟩

end Lists

/-! ## What is loaded -/

/-- A client for each address. -/
def addClients (addrs : List String) (clients : OMap String String) : OMap String String :=
  addrs.foldl (fun clients addr => clients.insert addr addr) clients

/-- What the maps of a process keep. -/
structure ClientProcess.Sound (σ : ClientProcess) : Prop where
  /-- No address is a key. -/
  names : ∀ a, σ.workerClients [a] = none
  /-- The addresses of a cluster are loaded when its clients are made. -/
  loaded : ∀ d, σ.workerClients d = none → σ.loadCoordinatorMap d = false
  clients : ∀ d clients, σ.workerClients d = some clients →
    ∀ a c : String, clients[a]? = some c → c = a

/-- The servers that a process can call in a cluster, once it has looked there. -/
def ClientProcess.view (σ : ClientProcess) (clusterDir : Path) : Option (List String) :=
  (σ.workerClients clusterDir).map fun clients => clients.keys

section Loading

variable {d : Path} {addrs : List String} {a : String}
  {clients : OMap String String} {σ : ClientProcess}

theorem getElem?_addClients :
    (addClients addrs clients)[a]? = if a ∈ addrs then some a else clients[a]? := by
  induction addrs generalizing clients with
  | nil => simp [addClients]
  | cons addr addrs ih =>
    have hhead := @ih (clients.insert addr addr)
    rw [addClients, List.foldl_cons, ← addClients, hhead, ExtTreeMap.getElem?_insert]
    by_cases hmem : a ∈ addrs
    · simp [hmem]
    · by_cases heq : addr = a
      · simp [heq]
      · simp [hmem, heq, Ne.symm heq]

/-- The servers of a cluster, from its two lists. -/
theorem keys_addClients (files : FileTree) (d : Path) :
    (addClients (loadAddrInDir files (d ++ [gmWorkerDir]) ++
      loadAddrInDir files (d ++ [gmCoordinatorDir])) ∅).keys = clusterServers files d := by
  show _ = (ExtTreeMap.unitOfList _ compare).keys
  refine OMap.keys_eq_of_mem_iff fun a => ?_
  rw [ExtTreeMap.mem_iff_isSome_getElem?, getElem?_addClients, ExtTreeMap.mem_unitOfList,
    List.contains_iff_mem]
  split <;> simp_all

theorem map_snd_toList (h : ∀ a c : String, clients[a]? = some c → c = a) :
    clients.toList.map Prod.snd = clients.keys := by
  rw [← ExtTreeMap.map_fst_toList_eq_keys]
  apply List.map_congr_left
  rintro ⟨a, c⟩ hmem
  exact h a c (ExtTreeMap.mem_toList_iff_getElem?_eq_some.1 hmem)

/-- The clients of a cluster are made, and nothing else is changed. -/
theorem updateWorkerClients_eq (hnames : ∀ a, σ.workerClients [a] = none) (hd : d.length ≠ 1) :
    ∃ made, updateWorkerClients d σ =
        { σ with workerClients := Function.update σ.workerClients d made } ∧
      made.getD ∅ = addClients (σ.workerAddrMap d) ((σ.workerClients d).getD ∅) := by
  have hloop : ∀ addrs : List String, ∀ σ : ClientProcess, (∀ a, σ.workerClients [a] = none) →
      ∃ made, addrs.foldl
          (fun σ addr =>
            if (σ.workerClients [addr]).isSome then σ
            else
              let clients := (σ.workerClients d).getD ∅
              { σ with
                workerClients :=
                  Function.update σ.workerClients d (some (clients.insert addr addr)) }) σ =
          { σ with workerClients := Function.update σ.workerClients d made } ∧
        made.getD ∅ = addClients addrs ((σ.workerClients d).getD ∅) := by
    intro addrs
    induction addrs with
    | nil =>
      intro σ _
      exact ⟨σ.workerClients d, by rw [Function.update_eq_self]; rfl, rfl⟩
    | cons addr addrs ih =>
      intro σ hnames
      have hnew : ¬ (σ.workerClients [addr]).isSome := by simp [hnames]
      obtain ⟨made, hmade, hclients⟩ := ih
        { σ with
          workerClients := Function.update σ.workerClients d
            (some (((σ.workerClients d).getD ∅).insert addr addr)) } fun a => by
        have hne : [a] ≠ d := fun heq => hd (heq ▸ rfl)
        simp only [Function.update_of_ne hne, hnames]
      refine ⟨made, ?_, ?_⟩
      · rw [List.foldl_cons, if_neg hnew, hmade, Function.update_idem]
      · simpa [addClients] using hclients
  exact hloop _ σ hnames

end Loading

/-! ## Looking for a client -/

section Lookup

variable {cfg : GroupConfig} {d : Path} {eventString : String} {σ : ClientProcess}

theorem length_of_route (h : cfg.getClusterDirFromEventMsg eventString = .ok d) : d.length = 3 := by
  unfold GroupConfig.getClusterDirFromEventMsg at h
  cases herase : erase 0 (find ['_'] eventString.toList + 1).toNat eventString.toList with
  | error x => simp [herase, Bind.bind, Except.bind] at h
  | ok rest =>
    cases hstoi : stoi rest with
    | error x => simp [herase, hstoi, Bind.bind, Except.bind] at h
    | ok index =>
      simp only [herase, hstoi, Bind.bind, Except.bind, pure, Except.pure, Except.ok.injEq] at h
      rw [← h]
      rfl

/-- `initClients` for a cluster that has no clients yet. -/
theorem initClients_spec (hσ : σ.Sound) (hd : d.length = 3) (hnew : σ.workerClients d = none)
    (hlock : Unlocked σ.files d) :
    ∃ made, ∃ σ' : ClientProcess, initClients d σ = some σ' ∧
      σ'.workerClients = Function.update σ.workerClients d made ∧
      made.getD ∅ = addClients (loadAddrInDir σ.files (d ++ [gmWorkerDir]) ++
        loadAddrInDir σ.files (d ++ [gmCoordinatorDir])) ∅ ∧
      σ'.files = σ.files ∧
      σ'.loadCoordinatorMap = Function.update σ.loadCoordinatorMap d true := by
  have hload := hσ.loaded d hnew
  obtain ⟨made, hmade, hclients⟩ := updateWorkerClients_eq
    (σ := { σ with toWorkerAddrState := updateWorkerAddrMap d σ.toWorkerAddrState })
    (d := d) hσ.names (by omega)
  refine ⟨made, _, if_pos hlock, ?_, ?_, ?_, ?_⟩
  · rw [hmade]
  · rw [hclients]
    simp [updateWorkerAddrMap, hload, hnew]
  · rw [hmade]
    exact WorkerAddrState.files_update
  · rw [hmade]
    simp [updateWorkerAddrMap, hload]

/-- What a process finds in a cluster, if it does: what it knows, or what is recorded. -/
def ClientProcess.found (σ : ClientProcess) (clusterDir : Path) : Option (List String) :=
  match σ.view clusterDir with
  | some servers => some servers
  | none =>
    if Unlocked σ.files clusterDir then some (clusterServers σ.files clusterDir) else none

/-- What a lookup leaves that finds some servers. -/
structure Looked (σ : ClientProcess) (clusterDir : Path) (servers : List String)
    (σ' : ClientProcess) : Prop where
  sound : σ'.Sound
  files : σ'.files = σ.files
  view : σ'.view = Function.update σ.view clusterDir (some servers)

/-- What the process has of a cluster when it looks for a client there. -/
theorem opened {servers : List String} (hσ : σ.Sound) (hd : d.length = 3)
    (hfound : σ.found d = some servers) :
    ∃ made, ∃ σ' : ClientProcess,
      (if (σ.workerClients d).isNone then initClients d σ else some σ) = some σ' ∧
      σ'.files = σ.files ∧ σ'.workerClients = Function.update σ.workerClients d made ∧
      (∀ d', d' ≠ d → σ'.loadCoordinatorMap d' = σ.loadCoordinatorMap d') ∧
      (made.getD ∅).keys = servers ∧
      ∀ a c : String, (made.getD ∅)[a]? = some c → c = a := by
  cases hclients : σ.workerClients d with
  | none =>
    simp only [ClientProcess.found, ClientProcess.view, hclients, Option.map_none] at hfound
    split at hfound
    · rename_i hlock
      obtain rfl := Option.some.inj hfound
      obtain ⟨made, σ', hσ', hupdate, hmade, hfiles, hload⟩ :=
        initClients_spec hσ hd hclients hlock
      refine ⟨made, σ', hσ', hfiles, hupdate, fun d' hne => ?_, ?_, fun a c hc => ?_⟩
      · rw [hload, Function.update_of_ne hne]
      · rw [hmade, keys_addClients]
      · rw [hmade, getElem?_addClients] at hc
        split at hc
        · exact (Option.some.inj hc).symm
        · simp at hc
    · cases hfound
  | some clients =>
    simp only [ClientProcess.found, ClientProcess.view, hclients, Option.map_some,
      Option.some.injEq] at hfound
    refine ⟨some clients, σ, rfl, rfl, ?_, fun _ _ => rfl, hfound, hσ.clients d clients hclients⟩
    rw [← hclients, Function.update_eq_self]

/-- **A lookup** calls the server that `rand` points to, and the process keeps what it found. -/
theorem getClientFromEvent_eq {servers : List String} (rand : ℕ) (hσ : σ.Sound)
    (hroute : cfg.getClusterDirFromEventMsg eventString = .ok d)
    (hfound : σ.found d = some servers) :
    ∃ σ', getClientFromEvent cfg eventString rand σ = some (.ok (pick servers rand, σ')) ∧
      Looked σ d servers σ' := by
  have hd := length_of_route hroute
  obtain ⟨made, σ₁, hσ₁, hfiles, hupdate, hload, hkeys, hself⟩ := opened hσ hd hfound
  have hmade : (σ₁.workerClients d).getD ∅ = made.getD ∅ := by rw [hupdate, Function.update_self]
  set clients := made.getD ∅
  let σ' : ClientProcess :=
    { σ₁ with workerClients := Function.update σ₁.workerClients d (some clients) }
  have hclients' : σ'.workerClients = Function.update σ.workerClients d (some clients) := by
    simp only [σ', hupdate, Function.update_idem]
  refine ⟨σ', ?_, ?_, hfiles, ?_⟩
  · have hlength : clients.size = servers.length := by rw [← hkeys, ExtTreeMap.length_keys]
    have hlist : clients.toList.map Prod.snd = servers := by rw [map_snd_toList hself, hkeys]
    have hloop := clientLoop_eq (rand % clients.size) 0 clients.toList
    rw [Nat.zero_add, hlist] at hloop
    simp only [getClientFromEvent, hroute, hσ₁, Option.map_some, hmade, getServerIdFromAddr, hloop,
      pick, ← hlength]
    split
    · rename_i hsize
      have hnil : servers = [] := List.eq_nil_of_length_eq_zero (hlength ▸ hsize)
      rw [hnil]
      rfl
    · rfl
  · refine ⟨fun a => ?_, fun d' hnone => ?_, fun d' clients' hclients a c hc => ?_⟩
    · have hne : [a] ≠ d := fun heq => by simp [← heq] at hd
      rw [hclients', Function.update_of_ne hne, hσ.names]
    · rw [hclients'] at hnone
      have hne : d' ≠ d := by
        rintro rfl
        simp at hnone
      rw [Function.update_of_ne hne] at hnone
      rw [hload d' hne, hσ.loaded d' hnone]
    · rw [hclients'] at hclients
      rcases eq_or_ne d' d with rfl | hne
      · rw [Function.update_self] at hclients
        exact hself a c (Option.some.inj hclients ▸ hc)
      · rw [Function.update_of_ne hne] at hclients
        exact hσ.clients d' clients' hclients a c hc
  · funext d'
    rw [ClientProcess.view, hclients']
    rcases eq_or_ne d' d with rfl | hne
    · rw [Function.update_self, Function.update_self, Option.map_some, hkeys]
    · rw [Function.update_of_ne hne, Function.update_of_ne hne, ClientProcess.view]

/-- A lookup in a cluster that is not known, and is locked, does not return. -/
theorem getClientFromEvent_eq_none (rand : ℕ)
    (hroute : cfg.getClusterDirFromEventMsg eventString = .ok d) (hfound : σ.found d = none) :
    getClientFromEvent cfg eventString rand σ = none := by
  cases hclients : σ.workerClients d with
  | none =>
    simp only [ClientProcess.found, ClientProcess.view, hclients, Option.map_none] at hfound
    split at hfound
    · cases hfound
    · rename_i hlock
      simp [getClientFromEvent, hroute, hclients, initClients, hlock]
  | some clients => simp [ClientProcess.found, ClientProcess.view, hclients] at hfound

end Lookup

/-! ## The process over time -/

/-- What happens to a process: the directories change, or it looks for a client. Where a call does
not return, it is the next try of the call. -/
inductive ProcessStep
  | files (files : FileTree)
  | getClientFromEvent (eventString : String) (rand : ℕ)

namespace ClientProcess

/-- Nothing was loaded yet. -/
def start (files : FileTree) : ClientProcess :=
  { WorkerAddrState.start files with workerClients := fun _ => none, coordinatorClients := [] }

/-- A step of the process. An event without a cluster raises, and changes nothing; neither does a
try that does not get the lock. -/
def step (cfg : GroupConfig) : ProcessStep → ClientProcess → ClientProcess
  | .files files, σ => { σ with files := files }
  | .getClientFromEvent eventString rand, σ =>
    match TPST.getClientFromEvent cfg eventString rand σ with
    | some (.ok (_, σ')) => σ'
    | _ => σ

/-- The directories at the first look in a cluster that gets the lock. If none did, they are as they
are, if the lock is free. -/
def seenFiles (cfg : GroupConfig) (clusterDir : Path) :
    List ProcessStep → FileTree → Option FileTree
  | [], files => if Unlocked files clusterDir then some files else none
  | .files files :: steps, _ => seenFiles cfg clusterDir steps files
  | .getClientFromEvent eventString _ :: steps, files =>
    if cfg.getClusterDirFromEventMsg eventString = .ok clusterDir ∧ Unlocked files clusterDir then
      some files
    else seenFiles cfg clusterDir steps files

section Process

variable {cfg : GroupConfig} {σ : ClientProcess}

theorem sound_start (files : FileTree) : (start files).Sound :=
  ⟨fun _ => rfl, fun _ _ => rfl, fun _ _ h => by simp [start] at h⟩

/-- A look in a cluster, and what the process has of all clusters then. -/
theorem step_getClientFromEvent {d : Path} (eventString : String) (rand : ℕ) (hσ : σ.Sound)
    (hroute : cfg.getClusterDirFromEventMsg eventString = .ok d) :
    (step cfg (.getClientFromEvent eventString rand) σ).Sound ∧
      (step cfg (.getClientFromEvent eventString rand) σ).files = σ.files ∧
      (step cfg (.getClientFromEvent eventString rand) σ).view =
        Function.update σ.view d (σ.found d) := by
  cases hfound : σ.found d with
  | some servers =>
    obtain ⟨σ', hσ', hlooked⟩ := getClientFromEvent_eq rand hσ hroute hfound
    simp only [step, hσ']
    exact ⟨hlooked.sound, hlooked.files, hlooked.view⟩
  | none =>
    have hview : σ.view d = none := by
      rw [found] at hfound
      split at hfound
      · cases hfound
      · assumption
    simp only [step, getClientFromEvent_eq_none rand hroute hfound]
    exact ⟨hσ, trivial, by rw [← hview, Function.update_eq_self]⟩

theorem step_of_error {eventString : String} {rand : ℕ} {x : Fault}
    (hroute : cfg.getClusterDirFromEventMsg eventString = .error x) :
    step cfg (.getClientFromEvent eventString rand) σ = σ := by
  simp [step, TPST.getClientFromEvent, hroute]

theorem sound_step (s : ProcessStep) (hσ : σ.Sound) : (step cfg s σ).Sound := by
  cases s with
  | files files => exact ⟨hσ.names, hσ.loaded, hσ.clients⟩
  | getClientFromEvent eventString rand =>
    cases hroute : cfg.getClusterDirFromEventMsg eventString with
    | error x => rwa [step_of_error hroute]
    | ok d => exact (step_getClientFromEvent eventString rand hσ hroute).1

/-- **What is found in a cluster is what was recorded at the first look there** that got the lock,
and nothing as long as none did. -/
theorem found_run (cfg : GroupConfig) (d : Path) (hσ : σ.Sound) (steps : List ProcessStep) :
    (run (step cfg) steps σ).Sound ∧
      (run (step cfg) steps σ).found d =
        match σ.view d with
        | some servers => some servers
        | none => (seenFiles cfg d steps σ.files).map fun files => clusterServers files d := by
  induction steps generalizing σ with
  | nil =>
    refine ⟨hσ, ?_⟩
    rw [run_nil, found, seenFiles]
    cases σ.view d with
    | some servers => rfl
    | none => by_cases hlock : Unlocked σ.files d <;> simp [hlock]
  | cons s steps ih =>
    obtain ⟨hsound, hfound⟩ := ih (sound_step s hσ)
    refine ⟨hsound, hfound.trans ?_⟩
    cases s with
    | files files => rfl
    | getClientFromEvent eventString rand =>
      cases hroute : cfg.getClusterDirFromEventMsg eventString with
      | error x => simp [step_of_error hroute, seenFiles, hroute]
      | ok d' =>
        obtain ⟨-, hfiles, hview⟩ := step_getClientFromEvent eventString rand hσ hroute
        rw [hview, hfiles]
        simp only [seenFiles, hroute, Except.ok.injEq]
        rcases eq_or_ne d' d with rfl | hne
        · rw [Function.update_self, found]
          cases σ.view d' with
          | some servers => rfl
          | none => by_cases hlock : Unlocked σ.files d' <;> simp [hlock]
        · rw [Function.update_of_ne hne.symm, if_neg fun h => hne h.1]

end Process

end ClientProcess

open ClientProcess

/-- **The server that is called**, whatever happened before: one of those that were recorded for the
cluster when the process first looked there and got the lock, the one that `rand` points to, and
none if there were none. The call does not return if no look has got the lock yet, and this one does
not. -/
theorem client_run (cfg : GroupConfig) (files : FileTree) (steps : List ProcessStep)
    (eventString : String) (rand : ℕ) :
    (getClientFromEvent cfg eventString rand (run (step cfg) steps (start files))).map
        (Except.map Prod.fst) =
      match cfg.getClusterDirFromEventMsg eventString with
      | .error x => some (.error x)
      | .ok clusterDir => (seenFiles cfg clusterDir steps files).map fun seen =>
        .ok (pick (clusterServers seen clusterDir) rand) := by
  cases hroute : cfg.getClusterDirFromEventMsg eventString with
  | error x => simp [getClientFromEvent, hroute, Except.map]
  | ok d =>
    obtain ⟨hsound, hfound⟩ := found_run cfg d (sound_start files) steps
    change _ = (seenFiles cfg d steps files).map _ at hfound
    cases hseen : seenFiles cfg d steps files with
    | none =>
      rw [hseen] at hfound
      simp only [getClientFromEvent_eq_none rand hroute hfound, hseen, Option.map_none]
    | some seen =>
      rw [hseen] at hfound
      obtain ⟨σ', hσ', -⟩ := getClientFromEvent_eq rand hsound hroute hfound
      simp only [hσ', hseen, Option.map_some, Except.map]

end TPST
