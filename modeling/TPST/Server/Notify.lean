import TPST.Server.Effect

/-!
# Notifying the triggered clients

The handler of a publish, `Publish`, runs `pubsubPublish`, then `startNotify` for the index events
of the last event of its list; `startNotify` enqueues a `checkNotify` task for every wrapper filed
there. A task that finds its wrapper triggered clears the mark, pushes a `NotifyInfo`, and
(for a `NAME` subscription) starts the counters afresh.

A task is named by the place of its wrapper. `wrapper?_runTasks` and `filter_runTasks` say what a
sequence of tasks leaves at a place and what it pushed for it: the tasks of one place after the
first find nothing to do, so the order and the repetitions do not matter.
-/

namespace TPST

open Std

/-- `NotifyInfo`. -/
structure NotifyInfo where
  addr : String
  metaInfo : String
  clientid : String
  deriving DecidableEq, Repr

/-- The place of a wrapper in `subtoClient`: its index event and its client. -/
abbrev Place := String × String

/-- `deletePubEvent`. -/
def deletePubEvent (psw : PubsubWrapper) : PubsubWrapper := { psw with publishedEvent := ∅ }

/-- `checkNotify`: the wrapper it leaves, and what it pushes. -/
def checkNotify (psw : PubsubWrapper) : PubsubWrapper × Option NotifyInfo :=
  if psw.iftrigure = false then (psw, none)
  else
    let cleared := { psw with iftrigure := false }
    let ninfo : NotifyInfo := ⟨psw.peerURL, psw.pubMetadata, psw.clientID⟩
    (if psw.matchType = "NAME" then deletePubEvent cleared else cleared, some ninfo)

/-- `startNotify`: the tasks it enqueues. Its `subtoClient[eventwithoutNum]` opens a row that is
not there. -/
def startNotify (eventwithoutNum : String) (s : Store) : Store × List Place :=
  ({ s with subtoClient := OMap.openRow s.subtoClient eventwithoutNum },
    (s.clients eventwithoutNum).map fun client => (eventwithoutNum, client))

/-- `startNotify` for one index event after the other. -/
def startNotifies : List String → Store → Store × List Place
  | [], s => (s, [])
  | ix :: ixs, s =>
    let started := startNotify ix s
    let others := startNotifies ixs started.1
    (others.1, started.2 ++ others.2)

/-- The index events the handler starts to notify: those of `eventStr`, the event its loop over
the request read last. -/
def notifiedIndexEvents (eventList : List String) (s : Store) : List String :=
  match eventList.getLast? with
  | none => []
  | some eventStr => s.indexEvents eventStr

/-- The match type of a publish request; an empty one means `NAME`. -/
def requestMatchType (matchType : String) : String := if matchType = "" then "NAME" else matchType

/-- `Publish` on the server that receives the request: the store it leaves and the tasks it
enqueues. A fault in `pubsubPublish` ends the handler. -/
def publish (eventList : List String) (matchType metadata : String) (s : Store) :
    Store × List Place :=
  match pubsubPublish eventList (requestMatchType matchType) metadata s with
  | .next s' => startNotifies (notifiedIndexEvents eventList s') s'
  | .ret s' => startNotifies (notifiedIndexEvents eventList s') s'
  | .fault _ s' => (s', [])

/-- One task of the thread pool, and what it pushes to the notify queue. -/
def runTask (p : Place) (s : Store) : Store × List (Place × NotifyInfo) :=
  match s.wrapper? p.1 p.2 with
  | none => (s, [])
  | some psw =>
    (s.modifyWrapper p.1 p.2 fun _ => (checkNotify psw).1,
      (checkNotify psw).2.toList.map fun ninfo => (p, ninfo))

/-- The tasks, one after the other. -/
def runTasks : List Place → Store → Store × List (Place × NotifyInfo)
  | [], s => (s, [])
  | p :: ps, s =>
    let ran := runTask p s
    let others := runTasks ps ran.1
    (others.1, ran.2 ++ others.2)

/-! ## Tasks -/

section Tasks

@[simp] theorem checkNotify_iftrigure (w : PubsubWrapper) :
    (checkNotify w).1.iftrigure = false := by
  unfold checkNotify
  split
  · assumption
  · dsimp only
    split <;> rfl

theorem checkNotify_of_not_iftrigure {w : PubsubWrapper} (h : w.iftrigure = false) :
    checkNotify w = (w, none) := by
  simp [checkNotify, h]

/-- **A second task finds nothing to do.** -/
@[simp] theorem checkNotify_checkNotify (w : PubsubWrapper) :
    checkNotify (checkNotify w).1 = ((checkNotify w).1, none) :=
  checkNotify_of_not_iftrigure (checkNotify_iftrigure w)

theorem sameTerms_checkNotify (w : PubsubWrapper) : w.SameTerms (checkNotify w).1 := by
  unfold checkNotify
  split
  · exact .refl w
  · dsimp only
    split <;> exact .refl w

theorem sameShape_runTask (p : Place) (s : Store) : s.SameShape (runTask p s).1 := by
  unfold runTask
  split
  · exact .refl s
  · exact .modifyWrapper s _ _ _

theorem wrapper?_runTask (p q : Place) (s : Store) :
    (runTask p s).1.wrapper? q.1 q.2 =
      (s.wrapper? q.1 q.2).map fun w => if p = q then (checkNotify w).1 else w := by
  unfold runTask
  by_cases hpq : p = q
  · subst hpq
    cases hw : s.wrapper? p.1 p.2 with
    | none => simp [hw]
    | some w => simp [Store.wrapper?_modifyWrapper, hw]
  · have hpq' : ¬ (p.1 = q.1 ∧ p.2 = q.2) := fun h => hpq (Prod.ext h.1 h.2)
    cases hw : s.wrapper? p.1 p.2 with
    | none => simp [hpq]
    | some w => simp [Store.wrapper?_modifyWrapper, hpq, hpq']

/-- **What a sequence of tasks leaves at a place.** -/
theorem wrapper?_runTasks (ps : List Place) (q : Place) (s : Store) :
    (runTasks ps s).1.wrapper? q.1 q.2 =
      (s.wrapper? q.1 q.2).map fun w => if q ∈ ps then (checkNotify w).1 else w := by
  induction ps generalizing s with
  | nil => simp [runTasks]
  | cons p ps ih =>
    rw [runTasks, ih, wrapper?_runTask, Option.map_map]
    congr 1
    funext w
    by_cases hpq : p = q
    · subst hpq; simp
    · simp [hpq, Ne.symm hpq]

theorem filter_runTask (p q : Place) (s : Store) :
    (runTask p s).2.filter (fun push => push.1 = q) =
      if p = q then
        ((s.wrapper? q.1 q.2).bind fun w => (checkNotify w).2).toList.map fun ninfo => (q, ninfo)
      else [] := by
  unfold runTask
  by_cases hpq : p = q
  · subst hpq
    cases s.wrapper? p.1 p.2 with
    | none => simp
    | some w => simp [List.filter_map, Function.comp_def]
  · cases s.wrapper? p.1 p.2 with
    | none => simp [hpq]
    | some w => simp [List.filter_map, Function.comp_def, hpq]

/-- **What a sequence of tasks pushes for a place.** -/
theorem filter_runTasks (ps : List Place) (q : Place) (s : Store) :
    (runTasks ps s).2.filter (fun push => push.1 = q) =
      if q ∈ ps then
        ((s.wrapper? q.1 q.2).bind fun w => (checkNotify w).2).toList.map fun ninfo => (q, ninfo)
      else [] := by
  induction ps generalizing s with
  | nil => simp [runTasks]
  | cons p ps ih =>
    rw [runTasks, List.filter_append, filter_runTask, ih, wrapper?_runTask]
    by_cases hpq : p = q
    · subst hpq
      cases s.wrapper? p.1 p.2 <;> simp
    · cases s.wrapper? q.1 q.2 <;> simp [hpq, Ne.symm hpq]

end Tasks

/-! ## The tasks of a publish -/

@[simp] theorem wrapper?_startNotify (ix ix' c : String) (s : Store) :
    (startNotify ix s).1.wrapper? ix' c = s.wrapper? ix' c :=
  OMap.cell_openRow s.subtoClient ix ix' c

@[simp] theorem indexEvents_startNotify (ix e : String) (s : Store) :
    (startNotify ix s).1.indexEvents e = s.indexEvents e := rfl

theorem mem_startNotify {ix ix' : String} {s : Store} :
    ix' ∈ (startNotify ix s).1.subtoClient ↔ ix = ix' ∨ ix' ∈ s.subtoClient :=
  OMap.mem_openRow

@[simp] theorem wrapper?_startNotifies (ixs : List String) (ix c : String) (s : Store) :
    (startNotifies ixs s).1.wrapper? ix c = s.wrapper? ix c := by
  induction ixs generalizing s with
  | nil => rfl
  | cons ix' ixs ih => rw [startNotifies, ih, wrapper?_startNotify]

@[simp] theorem indexEvents_startNotifies (ixs : List String) (e : String) (s : Store) :
    (startNotifies ixs s).1.indexEvents e = s.indexEvents e := by
  induction ixs generalizing s with
  | nil => rfl
  | cons ix' ixs ih => rw [startNotifies, ih, indexEvents_startNotify]

@[simp] theorem getIndexMap_startNotifies (ixs : List String) (s : Store) :
    (startNotifies ixs s).1.getIndexMap = s.getIndexMap := by
  induction ixs generalizing s with
  | nil => rfl
  | cons ix ixs ih => rw [startNotifies, ih]; rfl

theorem mem_startNotifies {ixs : List String} {ix : String} {s : Store} :
    ix ∈ (startNotifies ixs s).1.subtoClient ↔ ix ∈ ixs ∨ ix ∈ s.subtoClient := by
  induction ixs generalizing s with
  | nil => simp [startNotifies]
  | cons ix' ixs ih =>
    rw [startNotifies, ih, mem_startNotify, List.mem_cons]
    tauto

theorem mem_tasks_startNotify {ix : String} {p : Place} {s : Store} :
    p ∈ (startNotify ix s).2 ↔ p.1 = ix ∧ ∃ w, s.wrapper? p.1 p.2 = some w := by
  rw [startNotify, List.mem_map]
  constructor
  · rintro ⟨c, hc, rfl⟩
    exact ⟨rfl, Store.mem_clients.1 hc⟩
  · rintro ⟨rfl, hw⟩
    exact ⟨p.2, Store.mem_clients.2 hw, rfl⟩

/-- The tasks started are those of the wrappers filed under the index events. -/
theorem mem_tasks_startNotifies {ixs : List String} {p : Place} {s : Store} :
    p ∈ (startNotifies ixs s).2 ↔ p.1 ∈ ixs ∧ ∃ w, s.wrapper? p.1 p.2 = some w := by
  induction ixs generalizing s with
  | nil => simp [startNotifies]
  | cons ix ixs ih =>
    rw [startNotifies, List.mem_append, ih, wrapper?_startNotify, mem_tasks_startNotify,
      List.mem_cons]
    tauto

/-! ## The handler of a publish -/

theorem notifiedIndexEvents_congr {s s' : Store} (h : s.SameShape s') (L : List String) :
    notifiedIndexEvents L s' = notifiedIndexEvents L s := by
  unfold notifiedIndexEvents
  split
  · rfl
  · exact h.indexEvents_eq _

theorem publish_of_not_isFault {L : List String} {mt md : String} {s : Store}
    (h : (pubsubPublish L (requestMatchType mt) md s).isFault = false) :
    publish L mt md s =
      startNotifies (notifiedIndexEvents L s)
        (pubsubPublish L (requestMatchType mt) md s).state := by
  have hshape := sameShape_pubsubPublish (requestMatchType mt) md L s
  unfold publish
  cases hr : pubsubPublish L (requestMatchType mt) md s with
  | next s' =>
    rw [hr, Flow.state_next] at hshape
    simp only [Flow.state_next, notifiedIndexEvents_congr hshape]
  | ret s' =>
    rw [hr, Flow.state_ret] at hshape
    simp only [Flow.state_ret, notifiedIndexEvents_congr hshape]
  | fault e s' => simp [hr] at h

theorem publish_of_isFault {L : List String} {mt md : String} {s : Store}
    (h : (pubsubPublish L (requestMatchType mt) md s).isFault = true) :
    publish L mt md s = ((pubsubPublish L (requestMatchType mt) md s).state, []) := by
  unfold publish
  cases hr : pubsubPublish L (requestMatchType mt) md s with
  | next s' => simp [hr] at h
  | ret s' => simp [hr] at h
  | fault e s' => rfl

/-- The notify phase leaves the wrappers as the walk left them. -/
theorem wrapper?_publish (L : List String) (mt md : String) (s : Store) (ix c : String) :
    (publish L mt md s).1.wrapper? ix c =
      (pubsubPublish L (requestMatchType mt) md s).state.wrapper? ix c := by
  cases h : (pubsubPublish L (requestMatchType mt) md s).isFault with
  | false => rw [publish_of_not_isFault h, wrapper?_startNotifies]
  | true => rw [publish_of_isFault h]

/-- **The tasks of a publish** are those of the wrappers filed under the index events of the last
event of its list; a publish that faults has none. -/
theorem mem_tasks_publish {L : List String} {mt md : String} {s : Store} {p : Place} :
    p ∈ (publish L mt md s).2 ↔
      (pubsubPublish L (requestMatchType mt) md s).isFault = false ∧
        p.1 ∈ notifiedIndexEvents L s ∧ ∃ w, s.wrapper? p.1 p.2 = some w := by
  cases h : (pubsubPublish L (requestMatchType mt) md s).isFault with
  | false =>
    rw [publish_of_not_isFault h, mem_tasks_startNotifies, wrapper?_pubsubPublish]
    simp
  | true => simp [publish_of_isFault h]

/-! ## One request after the other -/

/-- A request as the server handles it alone: its notify tasks complete before the next one. -/
inductive Request
  | subscribe (eventList : List String) (clientId notifyAddr matchType metadata : String)
  | publish (eventList : List String) (matchType metadata : String)
  deriving DecidableEq, Repr

/-- `Subscribe`, which refuses an empty client id. -/
def subscribe (eventList : List String) (clientId notifyAddr matchType metadata : String)
    (s : Store) : Store :=
  if clientId = "" then s
  else (pubsubSubscribe eventList clientId notifyAddr matchType metadata s).state

/-- Handle a request: the store afterwards, and what was pushed to the notify queue. -/
def serve (s : Store) : Request → Store × List NotifyInfo
  | .subscribe eventList clientId notifyAddr matchType metadata =>
    (subscribe eventList clientId notifyAddr matchType metadata s, [])
  | .publish eventList matchType metadata =>
    let handled := publish eventList matchType metadata s
    let ran := runTasks handled.2 handled.1
    (ran.1, ran.2.map Prod.snd)

/-- Handle a list of requests. -/
def serveAll (s : Store) : List Request → Store × List NotifyInfo
  | [] => (s, [])
  | r :: rs =>
    let served := serve s r
    let others := serveAll served.1 rs
    (others.1, served.2 ++ others.2)

theorem serveAll_append (s : Store) (rs rs' : List Request) :
    serveAll s (rs ++ rs') =
      ((serveAll (serveAll s rs).1 rs').1,
        (serveAll s rs).2 ++ (serveAll (serveAll s rs).1 rs').2) := by
  induction rs generalizing s with
  | nil => simp [serveAll]
  | cons r rs ih => simp [serveAll, ih]

theorem serveAll_singleton (s : Store) (r : Request) : serveAll s [r] = serve s r := by
  simp [serveAll]

end TPST
