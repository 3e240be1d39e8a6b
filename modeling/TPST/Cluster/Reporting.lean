import TPST.Cluster.SubscribeHandler

/-!
# Servers that move to another cluster

`UpdateCluster` makes a server a member of another cluster and adds a client for the coordinator
listed there, behind those that are there already; `Subscribe` reports to the first client. So the
first coordinator a server comes to know stays the one it reports to (`first_client`).
`reportsToLatest_iff` says for which sequences of requests this is the coordinator of the cluster it
was last moved to.
-/

namespace TPST

/-- The addresses in the coordinator directory of a cluster. -/
def coordinatorsOf (files : FileTree) (clusterDir : Path) : List String :=
  loadAddrInDir files (clusterDir ++ [gmCoordinatorDir])

/-- A request to a server. -/
inductive ServerRequest
  | subscribe (request : PubSubRequest)
  | updateCluster (cluster : Path)
  deriving DecidableEq, Repr

/-- `UpdateCluster`: the server it leaves, and the message of the reply. -/
def updateCluster (files : FileTree) (cluster : Path) (server : ServerState) :
    ServerState × String :=
  ({ server with
      gmClusterDir := cluster
      coordinatorClients := updateCoordinatorClients files cluster server.coordinatorClients },
    "OK")

section Requests

variable (files : FileTree) (serverAddr : String)

/-- A server handles a request: what it leaves, and the `RecordSub` requests sent. -/
def handleRequest (server : ServerState) :
    ServerRequest → ServerState × List (String × RecordSubRequest)
  | .subscribe request =>
    let outcome := (subscribeHandler files serverAddr request server).state
    (outcome.server, outcome.sent)
  | .updateCluster cluster => ((updateCluster files cluster server).1, [])

/-- The server after a sequence of requests. -/
def afterRequests (requests : List ServerRequest) (server : ServerState) : ServerState :=
  requests.foldl (fun server request => (handleRequest files serverAddr server request).1) server

end Requests

/-- The clusters of the `UpdateCluster` requests. -/
def clustersOf (requests : List ServerRequest) : List Path :=
  requests.filterMap fun
    | .subscribe _ => none
    | .updateCluster cluster => some cluster

/-- Every report of a subscription that comes after an `UpdateCluster` goes to the coordinator of
the cluster that was named last. -/
def ReportsToLatest (files : FileTree) (serverAddr : String) (server : ServerState)
    (requests : List ServerRequest) : Prop :=
  ∀ pre request post cluster, requests = pre ++ .subscribe request :: post →
    (clustersOf pre).getLast? = some cluster →
      ∀ sent ∈ (handleRequest files serverAddr (afterRequests files serverAddr pre server)
        (.subscribe request)).2, coordinatorsOf files cluster = [sent.1]

instance (text : String) : Decidable (∃ req, parseEvent text = .ok req) :=
  match h : parseEvent text with
  | .ok req => .isTrue ⟨req, rfl⟩
  | .error _ => .isFalse (by simp)

instance (eventList : List String) : Decidable (Parseable eventList) :=
  inferInstanceAs (Decidable (_ ∧ _))

/-- The cluster whose coordinator a server comes to know first: that of the first `UpdateCluster`,
unless a subscription that is accepted comes before. -/
def firstCluster (clusterDir : Path) : List ServerRequest → Path
  | [] => clusterDir
  | .updateCluster cluster :: _ => cluster
  | .subscribe request :: requests =>
    if request.clientid ≠ "" ∧ Parseable request.pubsubmessage then clusterDir
    else firstCluster clusterDir requests

/-- A subscription is accepted, and an event of its list stands there as a key of `subtoClient`: as
one that was there, or as the name of the first event. -/
def Reports (request : PubSubRequest) (s : Store) : Prop :=
  request.clientid ≠ "" ∧ ∃ req reqs, Parses request.pubsubmessage (req :: reqs) ∧
    ∃ text ∈ request.pubsubmessage, req.1 = text ∨ text ∈ s.subtoClient

section Reporting

variable {files : FileTree} {serverAddr a : String} {clusterDir : Path} {store : Store}
  {server : ServerState} {request : PubSubRequest} {clients : List String}

/-- A subscription that is not accepted changes the store at most. -/
theorem handleRequest_subscribe_refused
    (hrefused : ¬ (request.clientid ≠ "" ∧ Parseable request.pubsubmessage)) :
    ∃ store, handleRequest files serverAddr server (.subscribe request) =
      ({ server with store := store }, []) := by
  rcases eq_or_ne request.clientid "" with hclient | hclient
  · refine ⟨server.store, ?_⟩
    rw [handleRequest, subscribeHandler, if_pos hclient]
    rfl
  · obtain ⟨x, store, message, hfault⟩ :=
      @subscribeHandler_of_not_parseable files serverAddr request server hclient
        fun hparse => hrefused ⟨hclient, hparse⟩
    refine ⟨store, ?_⟩
    rw [handleRequest, hfault]
    rfl

/-- An accepted subscription fills the list of coordinators if it is empty, and reports to the first
one. -/
theorem handleRequest_subscribe (hclient : request.clientid ≠ "") {req : String × Int}
    {reqs : List (String × Int)} (hparse : Parses request.pubsubmessage (req :: reqs))
    (hclients : (if server.coordinatorClients = [] then coordinatorsOf files server.gmClusterDir
      else server.coordinatorClients) = a :: clients) :
    ∃ store, store = server.store.subscribed request.clientid request.notifyserver
        request.matchtype request.metadata req reqs ∧
      handleRequest files serverAddr server (.subscribe request) =
        (⟨store, server.gmClusterDir, a :: clients⟩,
          (recordSubs serverAddr request.pubsubmessage store).map (a, ·)) := by
  obtain ⟨store, clients', hstore, hclients', hhandler⟩ :=
    @subscribeHandler_of_parses files serverAddr request server hclient _ _ hparse
  obtain rfl : clients' = a :: clients := hclients'.trans hclients
  refine ⟨store, hstore, ?_⟩
  rw [handleRequest, hhandler]
  rfl

/-- **The first coordinator stays the first**: one request. -/
theorem coordinatorClients_handleRequest (hclients : server.coordinatorClients = a :: clients)
    (request : ServerRequest) :
    ∃ clients', (handleRequest files serverAddr server request).1.coordinatorClients =
      a :: clients' := by
  cases request with
  | updateCluster cluster =>
    refine ⟨clients ++ coordinatorsOf files cluster, ?_⟩
    rw [handleRequest, updateCluster, updateCoordinatorClients, hclients]
    rfl
  | subscribe request =>
    by_cases haccepted : request.clientid ≠ "" ∧ Parseable request.pubsubmessage
    · obtain ⟨req, reqs, hparse⟩ := haccepted.2.parses
      obtain ⟨store, -, hhandle⟩ := @handleRequest_subscribe files serverAddr a server request
        clients haccepted.1 _ _ hparse (by rw [hclients, if_neg (by simp)])
      exact ⟨clients, by rw [hhandle]⟩
    · obtain ⟨store, hhandle⟩ :=
        @handleRequest_subscribe_refused files serverAddr server request haccepted
      exact ⟨clients, by rw [hhandle]; exact hclients⟩

/-- Any number of requests. -/
theorem coordinatorClients_afterRequests (hclients : server.coordinatorClients = a :: clients)
    (requests : List ServerRequest) :
    ∃ clients', (afterRequests files serverAddr requests server).coordinatorClients =
      a :: clients' := by
  induction requests generalizing server clients with
  | nil => exact ⟨clients, hclients⟩
  | cons request requests ih =>
    obtain ⟨clients', hstep⟩ :=
      @coordinatorClients_handleRequest files serverAddr a server clients hclients request
    exact ih hstep

/-- **The first coordinator** that a moved server has a client for is that of the cluster it came to
know first. -/
theorem first_client {requests : List ServerRequest}
    (hone : ∀ dir ∈ clusterDir :: clustersOf requests, ∃ a, coordinatorsOf files dir = [a])
    (hmoved : clustersOf requests ≠ []) :
    ∃ a clients, coordinatorsOf files (firstCluster clusterDir requests) = [a] ∧
      (afterRequests files serverAddr requests ⟨store, clusterDir, []⟩).coordinatorClients =
        a :: clients := by
  induction requests generalizing store with
  | nil => exact absurd rfl hmoved
  | cons request requests ih =>
    cases request with
    | updateCluster cluster =>
      obtain ⟨a, ha⟩ := hone cluster (by simp [clustersOf])
      have hclients :
          (handleRequest files serverAddr ⟨store, clusterDir, []⟩
            (.updateCluster cluster)).1.coordinatorClients = a :: [] := ha
      obtain ⟨clients, hafter⟩ := coordinatorClients_afterRequests hclients requests
      exact ⟨a, clients, ha, hafter⟩
    | subscribe request =>
      rw [firstCluster]
      split
      · rename_i haccepted
        obtain ⟨a, ha⟩ := hone clusterDir (by simp)
        obtain ⟨req, reqs, hparse⟩ := haccepted.2.parses
        obtain ⟨store', -, hhandle⟩ := @handleRequest_subscribe files serverAddr a
          ⟨store, clusterDir, []⟩ request [] haccepted.1 _ _ hparse (by rw [if_pos rfl, ha])
        have hclients :
            (handleRequest files serverAddr ⟨store, clusterDir, []⟩
              (.subscribe request)).1.coordinatorClients = a :: [] := by rw [hhandle]
        obtain ⟨clients, hafter⟩ := coordinatorClients_afterRequests hclients requests
        exact ⟨a, clients, ha, hafter⟩
      · rename_i hrefused
        obtain ⟨store', hhandle⟩ := @handleRequest_subscribe_refused files serverAddr
          ⟨store, clusterDir, []⟩ request hrefused
        obtain ⟨a, clients, ha, hafter⟩ := @ih store' hone hmoved
        refine ⟨a, clients, ha, ?_⟩
        rw [afterRequests, List.foldl_cons, hhandle]
        exact hafter

/-- **To whom a subscription is reported**: to the first coordinator, if it reports at all. -/
theorem mem_sent (hclients : server.coordinatorClients = a :: clients) {address : String} :
    (∃ report, (address, report) ∈
        (handleRequest files serverAddr server (.subscribe request)).2) ↔
      address = a ∧ Reports request server.store := by
  by_cases haccepted : request.clientid ≠ "" ∧ Parseable request.pubsubmessage
  · obtain ⟨req, reqs, hparse⟩ := haccepted.2.parses
    obtain ⟨store, hstore, hhandle⟩ := @handleRequest_subscribe files serverAddr a server request
      clients haccepted.1 _ _ hparse (by rw [hclients, if_neg (by simp)])
    have hreports : Reports request server.store ↔
        ∃ text ∈ request.pubsubmessage, text ∈ store.subtoClient := by
      simp only [hstore, mem_subscribed]
      constructor
      · rintro ⟨-, req', reqs', hparse', htext⟩
        obtain ⟨first, rest, hfirst, -, hlist⟩ := List.forall₂_cons_right_iff.1 hparse
        obtain ⟨first', rest', hfirst', -, hlist'⟩ := List.forall₂_cons_right_iff.1 hparse'
        obtain rfl := (List.cons.inj (hlist.symm.trans hlist')).1
        obtain rfl := Except.ok.inj (hfirst'.symm.trans hfirst)
        exact htext
      · intro htext
        exact ⟨haccepted.1, req, reqs, hparse, htext⟩
    rw [hhandle, hreports]
    simp only [List.mem_map, Prod.mk.injEq]
    constructor
    · rintro ⟨report, report', hmem, rfl, rfl⟩
      obtain ⟨htext, hrow, -⟩ := mem_recordSubs.1 hmem
      exact ⟨rfl, _, htext, hrow⟩
    · rintro ⟨rfl, text, htext, hrow⟩
      obtain ⟨report, hmem, -⟩ := exists_mem_recordSubs.2 ⟨htext, hrow⟩
      exact ⟨report, report, hmem, rfl, rfl⟩
  · obtain ⟨store, hhandle⟩ :=
      @handleRequest_subscribe_refused files serverAddr server request haccepted
    rw [hhandle]
    refine iff_of_false (by simp) ?_
    rintro ⟨-, hclient, req, reqs, hparse, -⟩
    exact haccepted ⟨hclient, hparse.parseable⟩

/-- **When a server reports to the cluster it was moved to.** Let the directories of all clusters
named list one coordinator each. A server that has handled no request yet reports to the coordinator
of the cluster named last, in every sequence of requests in which the cluster it came to know first
has that same coordinator at each subscription it reports, and in no other. -/
theorem reportsToLatest_iff {requests : List ServerRequest}
    (hone : ∀ dir ∈ clusterDir :: clustersOf requests, ∃ a, coordinatorsOf files dir = [a]) :
    ReportsToLatest files serverAddr ⟨store, clusterDir, []⟩ requests ↔
      ∀ pre request post cluster, requests = pre ++ .subscribe request :: post →
        (clustersOf pre).getLast? = some cluster →
          Reports request (afterRequests files serverAddr pre ⟨store, clusterDir, []⟩).store →
            coordinatorsOf files cluster = coordinatorsOf files (firstCluster clusterDir pre) := by
  have hfirst : ∀ pre request post cluster, requests = pre ++ .subscribe request :: post →
      (clustersOf pre).getLast? = some cluster →
        ∃ a clients, coordinatorsOf files (firstCluster clusterDir pre) = [a] ∧
          (afterRequests files serverAddr pre ⟨store, clusterDir, []⟩).coordinatorClients =
            a :: clients := by
    rintro pre request post cluster rfl hlast
    refine first_client (fun dir hdir => hone dir ?_) fun hnil => by simp [hnil] at hlast
    rw [clustersOf, List.filterMap_append, ← clustersOf]
    rcases List.mem_cons.1 hdir with rfl | hdir
    · exact List.mem_cons_self
    · exact List.mem_cons_of_mem _ (List.mem_append_left _ hdir)
  constructor
  · intro h pre request post cluster hsplit hlast hreports
    obtain ⟨a, clients, ha, hclients⟩ := hfirst pre request post cluster hsplit hlast
    obtain ⟨report, hsent⟩ := (mem_sent hclients).2 ⟨rfl, hreports⟩
    rw [h pre request post cluster hsplit hlast _ hsent, ha]
  · intro h pre request post cluster hsplit hlast sent hsent
    obtain ⟨a, clients, ha, hclients⟩ := hfirst pre request post cluster hsplit hlast
    obtain ⟨haddress, hreports⟩ := (mem_sent hclients).1 ⟨sent.2, hsent⟩
    rw [h pre request post cluster hsplit hlast hreports, ha, haddress]

end Reporting

/-- Two clusters, with the coordinators `x` and `y`. -/
def twoClusters : FileTree :=
  [["c0", "coordinator", "x"], ["c1", "coordinator", "y"]]

theorem one_twoClusters {dir : Path} (hdir : dir = ["c0"] ∨ dir = ["c1"]) :
    ∃ a, coordinatorsOf twoClusters dir = [a] := by
  rcases hdir with rfl | rfl
  · exact ⟨"x", rfl⟩
  · exact ⟨"y", rfl⟩

/-- A server subscribes a client, and is moved to the cluster it is in. -/
theorem reportsToLatest_same :
    ReportsToLatest twoClusters "s:1" ⟨.empty, ["c0"], []⟩
      [.subscribe ⟨["a"], "c", "addr", "NAME", ""⟩, .updateCluster ["c0"],
        .subscribe ⟨["a"], "d", "addr", "NAME", ""⟩] := by
  refine (reportsToLatest_iff fun dir hdir => one_twoClusters ?_).2 ?_
  · simp only [clustersOf, List.filterMap_cons, List.filterMap_nil, List.mem_cons,
      List.not_mem_nil, or_false, or_self] at hdir
    exact .inl hdir
  intro pre request post cluster hsplit hlast _
  rcases pre with _ | ⟨r₁, _ | ⟨r₂, _ | ⟨r₃, pre⟩⟩⟩
  · simp [clustersOf] at hlast
  · simp only [List.cons_append, List.nil_append, List.cons.injEq] at hsplit
    exact absurd hsplit.2.1 (by simp)
  · simp only [List.cons_append, List.nil_append, List.cons.injEq] at hsplit
    obtain ⟨rfl, rfl, -⟩ := hsplit
    obtain rfl : ["c0"] = cluster := Option.some.inj hlast
    decide +kernel
  · simp at hsplit

/-- A server reports to its coordinator, and is then moved to the other cluster. -/
theorem reportsToLatest_fails :
    ¬ ∀ (files : FileTree) (serverAddr : String) (store : Store) (clusterDir : Path)
      (requests : List ServerRequest),
      (∀ dir ∈ clusterDir :: clustersOf requests, ∃ a, coordinatorsOf files dir = [a]) →
        ReportsToLatest files serverAddr ⟨store, clusterDir, []⟩ requests := by
  intro h
  have hlatest := h twoClusters "s:1" .empty ["c0"]
    [.subscribe ⟨["a"], "c", "addr", "NAME", ""⟩, .updateCluster ["c1"],
      .subscribe ⟨["a"], "d", "addr", "NAME", ""⟩]
    (fun dir hdir => one_twoClusters (by simpa [clustersOf] using hdir))
    [.subscribe ⟨["a"], "c", "addr", "NAME", ""⟩, .updateCluster ["c1"]]
    ⟨["a"], "d", "addr", "NAME", ""⟩ [] ["c1"] rfl rfl ("x", ⟨"s:1", "a", 2⟩) (by decide +kernel)
  exact absurd hlatest (by decide)

end TPST
