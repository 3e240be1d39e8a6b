import TPST.Foundations.Fields
import TPST.Coordinator.RecordSub
import TPST.Server.Moving

/-!
# The record after a redistribution

`RedistributeByPlan` has the source of each plan move its clients. The reports of the destination
raise the destination's number in the record; for the source the coordinator enters the size of the
row in its own `subtoClient`.

So a server's number is right until the server is a source. From then on it shows what the
coordinator had of its own, or what the server has reported since if that is more
(`recorded_of_not_source`), and `recordMatches_iff` says when this is the number of its clients.
-/

namespace TPST

open Std

/-- The stores of the servers of a group, and the map of its coordinator. -/
structure GroupState where
  store : String → Store
  eventRecordMap : EventRecordMap

/-- A call of `RedistributeSub` for a plan: the stores it leaves, and what the destination reports
meanwhile. -/
abbrev RedistributeCall := Plan → (String → Store) → (String → Store) × List RecordSubRequest

/-- One round of `RedistributeByPlan` on the coordinator at `serverAddr`, whose
`subtoClient[moveEvent]` opens a row that is not there. -/
def redistributePlan (call : RedistributeCall) (serverAddr : String) (g : GroupState)
    (plan : Plan) : GroupState :=
  let moved := call plan g.store
  let own : Store :=
    { moved.1 serverAddr with
      subtoClient := OMap.openRow (moved.1 serverAddr).subtoClient plan.moveSubscription }
  { store := Function.update moved.1 serverAddr own
    eventRecordMap := OMap.insertCell (recordAll moved.2 g.eventRecordMap) plan.moveSubscription
      plan.srcAddr (own.subNum plan.moveSubscription) }

/-- `RedistributeByPlan`. -/
def redistributeByPlan (call : RedistributeCall) (serverAddr : String) (planList : List Plan)
    (g : GroupState) : GroupState :=
  planList.foldl (redistributePlan call serverAddr) g

namespace GroupState

/-- The number of clients that a server has for an event. -/
def count (g : GroupState) (e a : String) : ℤ := (g.store a).subNum e

/-- The record shows the number of clients of every server. -/
def RecordMatches (g : GroupState) : Prop :=
  ∀ e a, recorded g.eventRecordMap e a = g.count e a

end GroupState

/-- A call moves the number of clients of the plan, and the destination reports its rows, among
them the row of the event as it is in the end. -/
structure MovesPlan (plan : Plan) (store : String → Store)
    (moved : (String → Store) × List RecordSubRequest) : Prop where
  counts : ∀ e a, ((moved.1 a).subNum e : ℤ) =
    (store a).subNum e + if plan.moveSubscription = e then plan.transfer.effect a else 0
  serverAddr : ∀ r ∈ moved.2, r.serverAddr = plan.destAddr
  within : ∀ r ∈ moved.2, ((store plan.destAddr).subNum r.subEvent : ℤ) ≤ r.subNum ∧
    r.subNum ≤ (moved.1 plan.destAddr).subNum r.subEvent
  reported : ∃ r ∈ moved.2, r.subEvent = plan.moveSubscription ∧
    r.subNum = (moved.1 plan.destAddr).subNum plan.moveSubscription

theorem MovesPlan.nonneg {plan : Plan} {store : String → Store}
    {moved : (String → Store) × List RecordSubRequest} (h : MovesPlan plan store moved) :
    ∀ r ∈ moved.2, 0 ≤ r.subNum :=
  fun r hr => (Int.natCast_nonneg _).trans (h.within r hr).1

/-- The plans name different servers and a number of clients that the source has, and the calls
move just those. -/
def MovesAll (call : RedistributeCall) (serverAddr : String) : List Plan → GroupState → Prop
  | [], _ => True
  | plan :: plans, g =>
    plan.srcAddr ≠ plan.destAddr ∧ 0 < plan.moveNumber ∧
      plan.moveNumber ≤ g.count plan.moveSubscription plan.srcAddr ∧
      MovesPlan plan g.store (call plan g.store) ∧
      MovesAll call serverAddr plans (redistributePlan call serverAddr g plan)

/-- During the plans the server `a` reports on the event. -/
def ReportsOn (call : RedistributeCall) (serverAddr e a : String) : List Plan → GroupState → Prop
  | [], _ => False
  | plan :: plans, g =>
    (∃ r ∈ (call plan g.store).2, r.subEvent = e ∧ r.serverAddr = a) ∨
      ReportsOn call serverAddr e a plans (redistributePlan call serverAddr g plan)

/-- The number of clients that a server has for an event after some plans, if each moves the number
it says. -/
def plannedCount (g : GroupState) (plans : List Plan) (e a : String) : ℤ :=
  Transfer.applyAll ((plans.filter (·.moveSubscription = e)).map Plan.transfer) (g.count e) a

/-! ## One plan -/

theorem Plan.effect_transfer_dst {plan : Plan} (h : plan.srcAddr ≠ plan.destAddr) :
    plan.transfer.effect plan.destAddr = plan.moveNumber := by
  rw [Transfer.effect_of_ne_src (t := plan.transfer) h.symm]
  exact if_pos rfl

section Plan

variable {call : RedistributeCall} {home e a : String} {g : GroupState} {plan : Plan}

/-- The coordinator's look at its own row leaves all numbers as they are. -/
theorem count_redistributePlan :
    (redistributePlan call home g plan).count e a = ((call plan g.store).1 a).subNum e := by
  simp only [GroupState.count, redistributePlan, Function.update_apply]
  split
  · rename_i ha
    subst ha
    simp only [Store.subNum, Store.clients, OMap.rowKeys_openRow]
  · rfl

/-- The coordinator enters the size of its own row for the source. -/
theorem recorded_redistributePlan_src :
    recorded (redistributePlan call home g plan).eventRecordMap plan.moveSubscription
        plan.srcAddr =
      (redistributePlan call home g plan).count plan.moveSubscription home := by
  rw [recorded, redistributePlan, OMap.cell_insertCell, if_pos ⟨rfl, rfl⟩]
  simp only [GroupState.count, Function.update_self, Option.getD_some]

/-- For other servers it keeps what was reported. -/
theorem recorded_redistributePlan_other
    (hother : ¬ (plan.moveSubscription = e ∧ plan.srcAddr = a)) :
    recorded (redistributePlan call home g plan).eventRecordMap e a =
      recorded (recordAll (call plan g.store).2 g.eventRecordMap) e a := by
  rw [recorded, redistributePlan, OMap.cell_insertCell, if_neg hother]
  rfl

variable (hmoves : MovesPlan plan g.store (call plan g.store))

include hmoves in
theorem count_of_movesPlan : (redistributePlan call home g plan).count e a =
    g.count e a + if plan.moveSubscription = e then plan.transfer.effect a else 0 := by
  rw [count_redistributePlan, hmoves.counts]
  rfl

include hmoves in
/-- Only a source loses clients. -/
theorem count_le_of_not_source (hpos : 0 < plan.moveNumber)
    (hother : ¬ (plan.moveSubscription = e ∧ plan.srcAddr = a)) :
    g.count e a ≤ (redistributePlan call home g plan).count e a := by
  rw [count_of_movesPlan hmoves]
  split
  · rename_i he
    have hsrc : a ≠ plan.srcAddr := fun h => hother ⟨he, h.symm⟩
    have heffect : 0 ≤ plan.transfer.effect a := by
      rw [Transfer.effect_of_ne_src hsrc]
      split
      · exact hpos.le
      · exact le_rfl
    omega
  · omega

include hmoves in
/-- What the destination does not report on has not changed. -/
theorem count_eq_of_not_reported
    (hother : ¬ (plan.moveSubscription = e ∧ plan.srcAddr = a))
    (hsilent : ¬ ∃ r ∈ (call plan g.store).2, r.subEvent = e ∧ r.serverAddr = a) :
    (redistributePlan call home g plan).count e a = g.count e a := by
  rw [count_of_movesPlan hmoves]
  split
  · rename_i he
    have hsrc : a ≠ plan.srcAddr := fun h => hother ⟨he, h.symm⟩
    have hdst : a ≠ plan.transfer.dst := by
      rintro rfl
      obtain ⟨r, hr, hevent, -⟩ := hmoves.reported
      exact hsilent ⟨r, hr, hevent.trans he, hmoves.serverAddr r hr⟩
    rw [Transfer.effect_of_ne_src hsrc, if_neg hdst, add_zero]
  · rw [add_zero]

include hmoves in
/-- What it reports on is recorded as it is in the end, unless there was more in the record. -/
theorem recorded_of_reported (hother : ¬ (plan.moveSubscription = e ∧ plan.srcAddr = a))
    (hreport : ∃ r ∈ (call plan g.store).2, r.subEvent = e ∧ r.serverAddr = a) :
    recorded (redistributePlan call home g plan).eventRecordMap e a =
      max (recorded g.eventRecordMap e a) ((redistributePlan call home g plan).count e a) := by
  rw [recorded_redistributePlan_other hother, count_redistributePlan]
  obtain ⟨r, hr, rfl, rfl⟩ := hreport
  have hdst := hmoves.serverAddr r hr
  apply eq_of_forall_ge_iff
  intro y
  rw [recorded_recordAll_le_iff hmoves.nonneg, Int.max_le]
  refine and_congr Iff.rfl ⟨fun hbound => ?_, fun hbound r' hr' hevent haddr => ?_⟩
  · by_cases he : plan.moveSubscription = r.subEvent
    · obtain ⟨last, hlast, hevent, hnum⟩ := hmoves.reported
      have hle := hbound last hlast (hevent.trans he)
        ((hmoves.serverAddr last hlast).trans hdst.symm)
      rwa [hnum, he, ← hdst] at hle
    · -- the row of another event has its number all along
      have hsame := hmoves.counts r.subEvent r.serverAddr
      rw [if_neg he, add_zero] at hsame
      have hfrom := (hmoves.within r hr).1
      rw [← hdst, ← hsame] at hfrom
      exact hfrom.trans (hbound r hr rfl rfl)
  · have hto := (hmoves.within r' hr').2
    rw [hevent, ← hdst] at hto
    exact hto.trans hbound

include hmoves in
theorem recorded_of_not_reported (hother : ¬ (plan.moveSubscription = e ∧ plan.srcAddr = a))
    (hsilent : ¬ ∃ r ∈ (call plan g.store).2, r.subEvent = e ∧ r.serverAddr = a) :
    recorded (redistributePlan call home g plan).eventRecordMap e a =
      recorded g.eventRecordMap e a := by
  rw [recorded_redistributePlan_other hother]
  apply eq_of_forall_ge_iff
  intro y
  rw [recorded_recordAll_le_iff hmoves.nonneg]
  exact and_iff_left fun r hr hevent haddr => absurd ⟨r, hr, hevent, haddr⟩ hsilent

end Plan

/-! ## All plans -/

section Plans

variable {call : RedistributeCall} {home e a : String} {g : GroupState} {plans : List Plan}

theorem redistributeByPlan_cons (plan : Plan) :
    redistributeByPlan call home (plan :: plans) g =
      redistributeByPlan call home plans (redistributePlan call home g plan) := rfl

theorem redistributeByPlan_append (pre post : List Plan) :
    redistributeByPlan call home (pre ++ post) g =
      redistributeByPlan call home post (redistributeByPlan call home pre g) :=
  List.foldl_append

theorem movesAll_append {pre post : List Plan} :
    MovesAll call home (pre ++ post) g ↔
      MovesAll call home pre g ∧ MovesAll call home post (redistributeByPlan call home pre g) := by
  induction pre generalizing g with
  | nil => exact (and_iff_right trivial).symm
  | cons plan pre ih =>
    rw [List.cons_append, MovesAll, MovesAll, ih, redistributeByPlan_cons]
    tauto

/-- The plans move the numbers they say. -/
theorem count_redistributeByPlan (hmoves : MovesAll call home plans g) :
    (redistributeByPlan call home plans g).count e a = plannedCount g plans e a := by
  induction plans generalizing g with
  | nil =>
    simp [plannedCount, Transfer.applyAll, redistributeByPlan]
  | cons plan plans ih =>
    obtain ⟨-, -, -, hplan, hrest⟩ := hmoves
    have hcount : (redistributePlan call home g plan).count e = fun a =>
        g.count e a + if plan.moveSubscription = e then plan.transfer.effect a else 0 :=
      funext fun a => count_of_movesPlan hplan
    rw [redistributeByPlan_cons, ih hrest, plannedCount, plannedCount, hcount]
    by_cases he : plan.moveSubscription = e
    · rw [List.filter_cons_of_pos (by simpa using he), List.map_cons, Transfer.applyAll_cons]
      simp only [if_pos he]
    · rw [List.filter_cons_of_neg (by simpa using he)]
      simp only [if_neg he, add_zero]

/-- **While a server is no source**, its number in the record stays, or is raised to the number of
its clients if it reports. -/
theorem recorded_of_not_source (hmoves : MovesAll call home plans g)
    (hother : ∀ plan ∈ plans, ¬ (plan.moveSubscription = e ∧ plan.srcAddr = a)) :
    g.count e a ≤ (redistributeByPlan call home plans g).count e a ∧
      (ReportsOn call home e a plans g →
        recorded (redistributeByPlan call home plans g).eventRecordMap e a =
          max (recorded g.eventRecordMap e a) ((redistributeByPlan call home plans g).count e a)) ∧
      (¬ ReportsOn call home e a plans g →
        (redistributeByPlan call home plans g).count e a = g.count e a ∧
          recorded (redistributeByPlan call home plans g).eventRecordMap e a =
            recorded g.eventRecordMap e a) := by
  induction plans generalizing g with
  | nil => exact ⟨le_rfl, fun h => h.elim, fun _ => ⟨rfl, rfl⟩⟩
  | cons plan plans ih =>
    obtain ⟨-, hpos, -, hplan, hrest⟩ := hmoves
    rw [List.forall_mem_cons] at hother
    obtain ⟨hle, hreports, hsilent⟩ := ih hrest hother.2
    have hstep := @count_le_of_not_source _ home _ _ _ _ hplan hpos hother.1
    rw [redistributeByPlan_cons]
    refine ⟨hstep.trans hle, fun hreport => ?_, fun hnone => ?_⟩
    · by_cases hlater : ReportsOn call home e a plans (redistributePlan call home g plan)
      · rw [hreports hlater]
        by_cases hnow : ∃ r ∈ (call plan g.store).2, r.subEvent = e ∧ r.serverAddr = a
        · rw [recorded_of_reported hplan hother.1 hnow, max_assoc, max_eq_right hle]
        · rw [recorded_of_not_reported hplan hother.1 hnow]
      · have hnow := hreport.resolve_right hlater
        rw [(hsilent hlater).2, (hsilent hlater).1, recorded_of_reported hplan hother.1 hnow]
    · rw [ReportsOn, not_or] at hnone
      obtain ⟨hcount, hrecord⟩ := hsilent hnone.2
      rw [hcount, hrecord]
      exact ⟨count_eq_of_not_reported hplan hother.1 hnone.1,
        recorded_of_not_reported hplan hother.1 hnone.1⟩

/-- A server that is never a source keeps a number that is right. -/
theorem recorded_eq_of_not_source (hmoves : MovesAll call home plans g)
    (hother : ∀ plan ∈ plans, ¬ (plan.moveSubscription = e ∧ plan.srcAddr = a))
    (hright : recorded g.eventRecordMap e a = g.count e a) :
    recorded (redistributeByPlan call home plans g).eventRecordMap e a =
      (redistributeByPlan call home plans g).count e a := by
  obtain ⟨hle, hreports, hsilent⟩ := recorded_of_not_source hmoves hother
  by_cases hreport : ReportsOn call home e a plans g
  · rw [hreports hreport, hright, max_eq_right hle]
  · rw [(hsilent hreport).2, (hsilent hreport).1, hright]

/-- A server whose last turn as a source is the plan `plan` has the right number in the end exactly
if the coordinator had as many clients then, or fewer and the server reports later. -/
theorem recorded_eq_iff {pre post : List Plan} {plan : Plan}
    (hmoves : MovesAll call home (pre ++ plan :: post) g)
    (hlast : ∀ p ∈ post, ¬ (p.moveSubscription = plan.moveSubscription ∧
      p.srcAddr = plan.srcAddr)) :
    recorded (redistributeByPlan call home (pre ++ plan :: post) g).eventRecordMap
        plan.moveSubscription plan.srcAddr =
      (redistributeByPlan call home (pre ++ plan :: post) g).count plan.moveSubscription
        plan.srcAddr ↔
    plannedCount g (pre ++ [plan]) plan.moveSubscription home =
        plannedCount g (pre ++ plan :: post) plan.moveSubscription plan.srcAddr ∨
      (plannedCount g (pre ++ [plan]) plan.moveSubscription home <
          plannedCount g (pre ++ plan :: post) plan.moveSubscription plan.srcAddr ∧
        ReportsOn call home plan.moveSubscription plan.srcAddr post
          (redistributeByPlan call home (pre ++ [plan]) g)) := by
  have hsplit : pre ++ plan :: post = (pre ++ [plan]) ++ post := by simp
  rw [← count_redistributeByPlan hmoves]
  rw [hsplit, movesAll_append] at hmoves
  have hentered : recorded (redistributeByPlan call home (pre ++ [plan]) g).eventRecordMap
      plan.moveSubscription plan.srcAddr =
        plannedCount g (pre ++ [plan]) plan.moveSubscription home := by
    rw [← count_redistributeByPlan hmoves.1, redistributeByPlan_append]
    exact recorded_redistributePlan_src
  obtain ⟨-, hreports, hsilent⟩ := recorded_of_not_source hmoves.2 hlast
  rw [hsplit, redistributeByPlan_append, ← hentered]
  by_cases hreport : ReportsOn call home plan.moveSubscription plan.srcAddr post
      (redistributeByPlan call home (pre ++ [plan]) g)
  · rw [hreports hreport]
    simp only [hreport, and_true]
    omega
  · rw [(hsilent hreport).2]
    simp only [hreport, and_false, or_false]

/-- **When the record is right after a redistribution**: for every event and source, at its last
turn the coordinator had as many clients of its own as the source has in the end, or fewer and the
source reports later. -/
theorem recordMatches_iff (hmatch : g.RecordMatches) (hmoves : MovesAll call home plans g) :
    (redistributeByPlan call home plans g).RecordMatches ↔
      ∀ pre plan post, plans = pre ++ plan :: post →
        (∀ p ∈ post, ¬ (p.moveSubscription = plan.moveSubscription ∧
          p.srcAddr = plan.srcAddr)) →
        plannedCount g (pre ++ [plan]) plan.moveSubscription home =
            plannedCount g plans plan.moveSubscription plan.srcAddr ∨
          (plannedCount g (pre ++ [plan]) plan.moveSubscription home <
              plannedCount g plans plan.moveSubscription plan.srcAddr ∧
            ReportsOn call home plan.moveSubscription plan.srcAddr post
              (redistributeByPlan call home (pre ++ [plan]) g)) := by
  constructor
  · rintro hright pre plan post rfl hlast
    exact (recorded_eq_iff hmoves hlast).1 (hright _ _)
  · intro hcondition e a
    rcases @Cut.exists_last _ (fun p => p.moveSubscription = e ∧ p.srcAddr = a) plans with
      hnone | ⟨pre, plan, post, rfl, ⟨rfl, rfl⟩, hlast⟩
    · exact recorded_eq_of_not_source hmoves hnone (hmatch e a)
    · exact (recorded_eq_iff hmoves hlast).2 (hcondition pre plan post rfl hlast)

end Plans

/-! ## The calls of the program -/

/-- The destination handles the calls of `RedistributeSub`, and reports after each. -/
def subscribeAll : List SubscribeCall → Store → Store × List RecordSubRequest
  | [], d => (d, [])
  | call :: calls, d =>
    let handled := handleSubscribe call.server call.eventList call.clientid call.notifyAddr
      call.matchType call.metadata d
    let others := subscribeAll calls handled.1
    (others.1, handled.2 ++ others.2)

/-- `RedistributeSub` on the source of a plan, and the calls it makes, all of which succeed. -/
def redistributeCall : RedistributeCall := fun plan store =>
  let sent := (redistributeSub plan.moveSubscription plan.srcAddr plan.destAddr plan.moveNumber
    (store plan.srcAddr)).state
  let store := Function.update store plan.srcAddr sent.1
  let handled := subscribeAll sent.2 (store plan.destAddr)
  (Function.update store plan.destAddr handled.1, handled.2)

section Calls

variable {c addr mt md e dstAddr : String} {evs : List String} {d s : Store}

/-- A subscription takes no client out of a row. -/
theorem subNum_le_subscribe : s.subNum e ≤ (subscribe evs c addr mt md s).subNum e := by
  unfold subscribe
  split
  · exact le_rfl
  · have hclients : s.clients e ⊆ (pubsubSubscribe evs c addr mt md s).state.clients e := by
      intro c' hc'
      obtain ⟨w, hw⟩ := Store.mem_clients.1 hc'
      rcases addNewClient_cases c addr mt md evs s with ⟨req, reqs, hparse⟩ | ⟨hsame, -⟩
      · rw [pubsubSubscribe_ok hparse, Flow.state_next, Store.mem_clients, wrapper?_subscribed]
        split
        · exact ⟨_, rfl⟩
        · exact ⟨w, hw⟩
      · rw [pubsubSubscribe, Store.mem_clients, Store.wrapper?, hsame]
        exact ⟨w, hw⟩
    exact ((OMap.nodup_rowKeys _ _).subperm hclients).length_le

/-- A subscription adds clients to the row of its first event only. -/
theorem subNum_subscribed_of_ne {req : String × Int} {reqs : List (String × Int)}
    (h : req.1 ≠ e) : (s.subscribed c addr mt md req reqs).subNum e = s.subNum e :=
  congrArg List.length (OMap.rowKeys_insertCell_of_ne s.subtoClient h c _)

theorem subNum_le_subscribeAll (calls : List SubscribeCall) (d : Store) (e : String) :
    d.subNum e ≤ (subscribeAll calls d).1.subNum e := by
  induction calls generalizing d with
  | nil => exact le_rfl
  | cons call calls ih =>
    rw [subscribeAll]
    exact (handleSubscribe_fst ▸ subNum_le_subscribe).trans (ih _)

/-- The numbers reported lie between those before the calls and those after. -/
theorem mem_subscribeAll_snd {calls : List SubscribeCall}
    (hdst : ∀ call ∈ calls, call.server = dstAddr) {r : RecordSubRequest}
    (hr : r ∈ (subscribeAll calls d).2) :
    r.serverAddr = dstAddr ∧ (d.subNum r.subEvent : ℤ) ≤ r.subNum ∧
      r.subNum ≤ (subscribeAll calls d).1.subNum r.subEvent := by
  induction calls generalizing d with
  | nil => cases hr
  | cons call calls ih =>
    rw [List.forall_mem_cons] at hdst
    rw [subscribeAll] at hr ⊢
    have hle : d.subNum r.subEvent ≤ (handleSubscribe call.server call.eventList call.clientid
        call.notifyAddr call.matchType call.metadata d).1.subNum r.subEvent :=
      handleSubscribe_fst ▸ subNum_le_subscribe
    rcases List.mem_append.1 hr with hnow | hlater
    · obtain ⟨-, -, hreq⟩ := mem_recordSubs.1 (mem_handleSubscribe_snd hnow)
      have hlast := subNum_le_subscribeAll calls (handleSubscribe call.server call.eventList
        call.clientid call.notifyAddr call.matchType call.metadata d).1 r.subEvent
      rw [hreq, ← handleSubscribe_fst]
      exact ⟨hdst.1, Int.ofNat_le.2 hle, Int.ofNat_le.2 hlast⟩
    · obtain ⟨haddr, hfrom, hto⟩ := ih hdst.2 hlater
      exact ⟨haddr, (Int.ofNat_le.2 hle).trans hfrom, hto⟩

/-- A call that adds a client to a row reports that row. -/
theorem reports_of_subNum_lt {w : PubsubWrapper} {ix : String} (hw : w.Listed ix)
    (hlt : d.subNum e <
      (subscribe w.requiredeventMap.keys w.clientID w.peerURL "NAME" "testMeta" d).subNum e) :
    ∃ r ∈ (handleSubscribe dstAddr w.requiredeventMap.keys w.clientID w.peerURL "NAME" "testMeta"
        d).2,
      r.subEvent = e ∧ r.subNum =
        (subscribe w.requiredeventMap.keys w.clientID w.peerURL "NAME" "testMeta" d).subNum e := by
  obtain ⟨name, names, hkeys, hparse⟩ := hw.parses
  by_cases hid : w.clientID = ""
  · rw [subscribe, if_pos hid] at hlt
    exact absurd hlt (lt_irrefl _)
  · have hsubscribe : subscribe w.requiredeventMap.keys w.clientID w.peerURL "NAME" "testMeta" d =
        d.subscribed w.clientID w.peerURL "NAME" "testMeta" (name, 1)
          (names.map fun name => (name, 1)) := by
      rw [subscribe, if_neg hid, pubsubSubscribe_ok hparse, Flow.state_next]
    rw [hsubscribe] at hlt ⊢
    rw [handleSubscribe_ok hid hparse]
    have hname : name = e := by
      by_contra hne
      rw [subNum_subscribed_of_ne hne] at hlt
      exact lt_irrefl _ hlt
    subst hname
    refine ⟨⟨dstAddr, name, _⟩, mem_recordSubs.2 ⟨?_, mem_subscribed.2 (.inl rfl), rfl⟩, rfl, rfl⟩
    rw [hkeys]
    exact List.mem_cons_self

/-- If a row has more clients after the calls than before, its last number was reported. -/
theorem exists_report_of_subNum_lt {ws : List PubsubWrapper}
    (hlisted : ∀ w ∈ ws, ∃ ix, w.Listed ix) {calls : List SubscribeCall}
    (hcalls : calls = ws.map fun w => subscribeCall dstAddr (getSimplepubsubWrapper w))
    (hlt : d.subNum e < (subscribeAll calls d).1.subNum e) :
    ∃ r ∈ (subscribeAll calls d).2,
      r.subEvent = e ∧ r.subNum = (subscribeAll calls d).1.subNum e := by
  induction ws generalizing d calls with
  | nil =>
    rw [hcalls] at hlt
    exact absurd hlt (lt_irrefl _)
  | cons w ws ih =>
    rw [List.forall_mem_cons] at hlisted
    obtain ⟨⟨ix, hw⟩, hrest⟩ := hlisted
    rw [List.map_cons] at hcalls
    rw [hcalls, subscribeAll] at hlt ⊢
    simp only [List.mem_append]
    set d' := (handleSubscribe dstAddr w.requiredeventMap.keys w.clientID w.peerURL "NAME"
      "testMeta" d).1 with hd'
    -- either a later call adds to the row, or this one is the last that does
    by_cases hlater : d'.subNum e < (subscribeAll (ws.map fun w => subscribeCall dstAddr
        (getSimplepubsubWrapper w)) d').1.subNum e
    · obtain ⟨r, hr, hevent, hnum⟩ := ih hrest rfl hlater
      exact ⟨r, .inr hr, hevent, hnum⟩
    · have hsame : d'.subNum e = (subscribeAll (ws.map fun w => subscribeCall dstAddr
          (getSimplepubsubWrapper w)) d').1.subNum e :=
        Nat.le_antisymm (subNum_le_subscribeAll _ _ _) (Nat.le_of_not_lt hlater)
      have hhandled : (subscribe w.requiredeventMap.keys w.clientID w.peerURL "NAME" "testMeta"
          d).subNum e = d'.subNum e := by rw [hd', handleSubscribe_fst]
      have hnow : d.subNum e < d'.subNum e := hsame ▸ hlt
      rw [← hhandled] at hnow
      obtain ⟨r, hr, hevent, hnum⟩ := @reports_of_subNum_lt _ dstAddr _ _ _ hw hnow
      exact ⟨r, .inl hr, hevent, hnum.trans (congrArg Nat.cast (hhandled.trans hsame))⟩

/-- The calls of a request are for wrappers whose events parse; if the request faults there are
none. -/
theorem exists_calls_eq (hs : Reachable s) (event srcAddr : String) (diff : Int) :
    ∃ ws : List PubsubWrapper, (∀ w ∈ ws, ∃ ix, w.Listed ix) ∧
      (redistributeSub event srcAddr dstAddr diff s).state.2 =
        ws.map fun w => subscribeCall dstAddr (getSimplepubsubWrapper w) := by
  cases hresult : redistributeSub event srcAddr dstAddr diff s with
  | next st | ret st =>
    have hreturns : (redistributeSub event srcAddr dstAddr diff s).isFault = false := by
      rw [hresult]
      rfl
    rw [← hresult]
    exact ⟨_, listed_takenWrappers hs, calls_eq hreturns⟩
  | fault x st =>
    refine ⟨[], fun _ h => absurd h List.not_mem_nil, ?_⟩
    unfold redistributeSub at hresult
    split at hresult
    · split at hresult
      · cases hresult
      · cases hresult
      · cases hresult
        rfl
    · cases hresult

/-- **A call that moves the number of clients of its plan** is reported as `RedistributeByPlan`
needs it. -/
theorem movesPlan_redistributeCall {plan : Plan} {store : String → Store}
    (hs : Reachable (store plan.srcAddr)) (hne : plan.srcAddr ≠ plan.destAddr)
    (hpos : 0 < plan.moveNumber)
    (hcounts : ∀ e a, (((redistributeCall plan store).1 a).subNum e : ℤ) =
      (store a).subNum e + if plan.moveSubscription = e then plan.transfer.effect a else 0) :
    MovesPlan plan store (redistributeCall plan store) := by
  obtain ⟨ws, hlisted, hcalls⟩ := @exists_calls_eq plan.destAddr _ hs plan.moveSubscription
    plan.srcAddr plan.moveNumber
  have hserver : ∀ call ∈ (redistributeSub plan.moveSubscription plan.srcAddr plan.destAddr
      plan.moveNumber (store plan.srcAddr)).state.2, call.server = plan.destAddr := by
    rw [hcalls]
    intro call hcall
    obtain ⟨w, -, rfl⟩ := List.mem_map.1 hcall
    rfl
  -- the destination's store before the calls, after them, and what they report
  have hbefore : (Function.update store plan.srcAddr (redistributeSub plan.moveSubscription
      plan.srcAddr plan.destAddr plan.moveNumber (store plan.srcAddr)).state.1) plan.destAddr =
        store plan.destAddr := Function.update_of_ne hne.symm _ _
  have hafter : (redistributeCall plan store).1 plan.destAddr = (subscribeAll
      (redistributeSub plan.moveSubscription plan.srcAddr plan.destAddr plan.moveNumber
        (store plan.srcAddr)).state.2 (store plan.destAddr)).1 := by
    simp only [redistributeCall, Function.update_self, hbefore]
  have hreports : (redistributeCall plan store).2 = (subscribeAll
      (redistributeSub plan.moveSubscription plan.srcAddr plan.destAddr plan.moveNumber
        (store plan.srcAddr)).state.2 (store plan.destAddr)).2 := by
    simp only [redistributeCall, hbefore]
  have hgrows : (store plan.destAddr).subNum plan.moveSubscription <
      ((redistributeCall plan store).1 plan.destAddr).subNum plan.moveSubscription := by
    have hdest := hcounts plan.moveSubscription plan.destAddr
    rw [if_pos rfl, Plan.effect_transfer_dst hne] at hdest
    omega
  refine ⟨hcounts, ?_, ?_, ?_⟩
  · rw [hreports]
    exact fun r hr => (mem_subscribeAll_snd hserver hr).1
  · rw [hreports, hafter]
    exact fun r hr => (mem_subscribeAll_snd hserver hr).2
  · rw [hafter] at hgrows ⊢
    rw [hreports]
    exact exists_report_of_subNum_lt hlisted hcalls hgrows

end Calls

/-! ## A group of two -/

section Example

/-- The first of two servers has two clients for `a`. -/
def pairStores (addr : String) : Store := if addr = "s1" then rowStore else .empty

/-- The record says so. -/
def pairGroup : GroupState where
  store := pairStores
  eventRecordMap := (∅ : EventRecordMap).insert "a" ((∅ : OMap String Int).insert "s1" 2)

/-- One of the clients is to be moved to the second server. -/
def movePlan : Plan := generatePlan "a" "s1" "s2" 1

/-- A store with one row. -/
theorem subNum_of_keys {s : Store} {n : ℕ} (hkeys : s.subtoClient.keys ⊆ ["a"])
    (hn : s.subNum "a" = n) (e : String) : s.subNum e = if e = "a" then n else 0 := by
  split
  · rename_i he
    rw [he, hn]
  · rename_i he
    have hrow : e ∉ s.subtoClient := fun hmem =>
      he (List.mem_singleton.1 (hkeys (ExtTreeMap.mem_keys.2 hmem)))
    simp [Store.subNum, Store.clients, OMap.rowKeys, ExtTreeMap.getElem?_eq_none hrow]

theorem subNum_pairStores (e a : String) :
    (pairStores a).subNum e = if e = "a" then (if a = "s1" then 2 else 0) else 0 := by
  unfold pairStores
  split
  · exact subNum_of_keys (by decide +kernel) (by decide +kernel) e
  · exact subNum_of_keys (by decide +kernel) (by decide +kernel) e

theorem subNum_redistributeCall (e a : String) :
    ((redistributeCall movePlan pairStores).1 a).subNum e =
      if e = "a" then (if a = "s1" ∨ a = "s2" then 1 else 0) else 0 := by
  by_cases h2 : a = "s2"
  · subst h2
    exact subNum_of_keys (by decide +kernel) (by decide +kernel) e
  · by_cases h1 : a = "s1"
    · subst h1
      exact subNum_of_keys (by decide +kernel) (by decide +kernel) e
    · have hother : (redistributeCall movePlan pairStores).1 a = .empty := by
        simp only [redistributeCall, movePlan, generatePlan, Function.update_of_ne h2,
          Function.update_of_ne h1, pairStores, if_neg h1]
      rw [hother, if_neg (not_or.2 ⟨h1, h2⟩)]
      exact subNum_of_keys (by decide +kernel) (by decide +kernel) e

theorem recordMatches_pairGroup : pairGroup.RecordMatches := by
  intro e a
  rw [GroupState.count, pairGroup, subNum_pairStores]
  simp only [recorded, OMap.cell, ExtTreeMap.getElem?_insert, Std.compare_eq_iff_eq]
  by_cases he : e = "a"
  · subst he
    by_cases ha : a = "s1"
    · simp [ha]
    · simp [ha, Ne.symm ha]
  · simp [he, Ne.symm he]

theorem movesAll_pairGroup (home : String) :
    MovesAll redistributeCall home [movePlan] pairGroup := by
  refine ⟨by decide, by decide, by decide +kernel, ?_, trivial⟩
  apply movesPlan_redistributeCall reachable_rowStore (by decide) (by decide)
  intro e a
  change (((redistributeCall movePlan pairStores).1 a).subNum e : ℤ) =
    (pairStores a).subNum e + if "a" = e then (⟨"s1", "s2", 1⟩ : Transfer String).effect a else 0
  rw [subNum_redistributeCall, subNum_pairStores]
  by_cases he : e = "a"
  · subst he
    by_cases h1 : a = "s1"
    · simp [h1, Transfer.effect]
    · by_cases h2 : a = "s2"
      · simp [h2, Transfer.effect]
      · simp [h1, h2, Transfer.effect]
  · simp [he, Ne.symm he]

/-- Where the source is the coordinator itself, the number it enters is right. -/
theorem recordMatches_iff_pairGroup :
    (redistributeByPlan redistributeCall "s1" [movePlan] pairGroup).RecordMatches := by
  apply (recordMatches_iff recordMatches_pairGroup (movesAll_pairGroup "s1")).2
  intro pre plan post heq _
  have hpre : pre = [] ∧ plan = movePlan ∧ post = [] := by
    cases pre with
    | nil =>
      obtain ⟨rfl, rfl⟩ := List.cons.inj heq
      exact ⟨rfl, rfl, rfl⟩
    | cons p pre => simp at heq
  obtain ⟨rfl, rfl, rfl⟩ := hpre
  exact .inl rfl

/-- A coordinator without clients of its own records none for the source. -/
theorem recordMatches_fails :
    ¬ ∀ (call : RedistributeCall) (home : String) (plans : List Plan) (g : GroupState),
      g.RecordMatches → MovesAll call home plans g →
        (redistributeByPlan call home plans g).RecordMatches := by
  intro h
  have hright := h redistributeCall "n0" [movePlan] pairGroup recordMatches_pairGroup
    (movesAll_pairGroup "n0") "a" "s1"
  revert hright
  decide +kernel

end Example

end TPST
