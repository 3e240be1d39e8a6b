import TPST.Cluster.Holders
import TPST.Server.Counting

/-!
# Counted subscriptions across the servers

Clients publish at any servers and at any time, while the messages of earlier publishes are still
on their way. `After T store pubs net` says that `net` is a state of the network when the clients
have published `pubs`. However the deliveries interleave, every publish causes what it causes alone
(`After.conserve`), and a server does with the messages it gets what it does with a sequence of
requests (`After.served`). This takes each request to be done, with the tasks that it puts into the
pool, before the server takes up the next; otherwise counts get lost (`Server.InFlight`).

So a subscription by name to one event counts publishes from everywhere: at rest its client was
notified once for every `n` publishes at servers from which they reach it
(`notified_across_servers`).
-/

namespace TPST

open Std

namespace Net

/-- The network when nothing was published yet. -/
def idle (store : String → Store) : Net := ⟨store, 0, 0, []⟩

/-- A client's publish is sent to its server. -/
def request (net : Net) (m : Message) : Net := { net with inFlight := m ::ₘ net.inFlight }

/-- What was pushed to the notify queue of a server. -/
def pushedAt (net : Net) (addr : String) : List NotifyInfo :=
  (net.pushed.filter fun push => push.1 = addr).map Prod.snd

/-- A client's publish of one event by name, at a server. -/
structure Publishes (T : Topology) (m : Message) : Prop where
  server : ∃ member, T.member? m.dest = some member
  source : m.source = .client
  name : requestMatchType m.matchType = "NAME"
  single : ∃ event, m.eventList = [event]

/-- The clients have published `pubs`, and some of the messages were delivered. -/
inductive After (T : Topology) (store : String → Store) : List Message → Net → Prop
  | idle : After T store [] (idle store)
  | request {pubs : List Message} {net : Net} (h : After T store pubs net) {m : Message}
      (hm : Publishes T m) : After T store (pubs ++ [m]) (net.request m)
  | deliver {pubs : List Message} {net : Net} (h : After T store pubs net) {m : Message}
      (hm : m ∈ net.inFlight) : After T store pubs (net.deliver T m)

end Net

/-- The request that a message is. -/
def Message.toRequest (m : Message) : Request := .publish m.eventList m.matchType m.metadata

/-! ## The messages -/

section Messages

variable {T : Topology} {store : String → Store} {pubs : List Message} {net : Net} {m : Message}

open Net

/-- A message is a publish of one event by name. -/
def Message.Single (m : Message) : Prop :=
  requestMatchType m.matchType = "NAME" ∧ ∃ event, m.eventList = [event]

theorem Message.Single.react {m' : Message} (h : m.Single) (hm' : m' ∈ react T m) : m'.Single := by
  obtain ⟨-, event, hevent⟩ := h
  refine ⟨?_, event, (eventList_of_mem_react hm').trans hevent⟩
  rw [matchType_of_mem_react hm']
  rfl

theorem Message.Single.not_faults (h : m.Single) (s : Store) : ¬ m.Faults s := by
  rw [Message.Faults, h.1, isFault_pubsubPublish_NAME]
  exact Bool.false_ne_true

theorem inFlight_deliver (h : m.Single) :
    (net.deliver T m).inFlight = net.inFlight.erase m + ↑(react T m) := by
  rw [Net.deliver, if_neg (h.not_faults _)]

theorem Net.After.single (h : After T store pubs net) : ∀ m ∈ net.inFlight, m.Single := by
  induction h with
  | idle => exact fun m hm => absurd hm (Multiset.notMem_zero m)
  | request _ hm ih =>
    intro m' hm'
    rcases Multiset.mem_cons.1 hm' with rfl | hm'
    · exact ⟨hm.name, hm.single⟩
    · exact ih m' hm'
  | deliver _ hm ih =>
    intro m' hm'
    rw [inFlight_deliver (ih _ hm), Multiset.mem_add] at hm'
    rcases hm' with hm' | hm'
    · exact ih m' (Multiset.mem_of_mem_erase hm')
    · exact (ih _ hm).react (Multiset.mem_coe.1 hm')

theorem Net.After.run {net' : Net} (h : After T store pubs net) (hrun : Net.Run T net net') :
    After T store pubs net' := by
  induction hrun with
  | refl => exact h
  | tail _ hstep ih =>
    cases hstep with
    | deliver hm => exact ih.deliver hm

/-- **Every publish causes what it causes alone**, whatever else is on its way. -/
theorem Net.After.conserve (hT : T.WellPlaced) (h : After T store pubs net) :
    net.delivered + (cascade hT).pending net.messages = (pubs.map (cascade hT).total).sum := by
  induction h with
  | idle => rfl
  | @request pubs net _ m hm ih =>
    rw [List.map_append, List.sum_append, ← ih, List.map_singleton, List.sum_singleton]
    change net.delivered + (m ::ₘ net.inFlight).bind _ = net.delivered + net.inFlight.bind _ + _
    rw [Multiset.cons_bind, add_assoc, add_comm ((cascade hT).total m)]
  | @deliver pubs net h m hm ih =>
    have hstep : (cascade hT).ReliableStep net.messages (net.deliver T m).messages := by
      have hreliable : (cascade hT).ReliableStep _ _ :=
        .deliver m (net.inFlight.erase m) net.delivered
      rw [Multiset.cons_erase hm] at hreliable
      rwa [Net.messages, Net.messages, inFlight_deliver (h.single m hm)]
    rw [← ih]
    exact hstep.conserve

theorem pushedAt_deliver (net : Net) (m : Message) (addr : String) :
    (net.deliver T m).pushedAt addr = net.pushedAt addr ++
      if m.dest = addr then (serve (net.store m.dest) m.toRequest).2 else [] := by
  have hpushed : (net.deliver T m).pushed =
      net.pushed ++ (serve (net.store m.dest) m.toRequest).2.map fun ninfo => (m.dest, ninfo) := rfl
  rw [Net.pushedAt, hpushed, List.filter_append, List.map_append]
  congr 1
  split
  · rename_i hdest
    rw [List.filter_eq_self.2 fun push hpush => ?_, List.map_map]
    · exact List.map_id _
    · obtain ⟨ninfo, -, rfl⟩ := List.mem_map.1 hpush
      exact decide_eq_true hdest
  · rename_i hdest
    rw [List.filter_eq_nil_iff.2 fun push hpush => ?_, List.map_nil]
    obtain ⟨ninfo, -, rfl⟩ := List.mem_map.1 hpush
    simpa using hdest

/-- **A server serves the messages it gets one after the other.** -/
theorem Net.After.served (h : After T store pubs net) (addr : String) :
    ∃ rs : List Request, net.store addr = (serveAll (store addr) rs).1 ∧
      net.pushedAt addr = (serveAll (store addr) rs).2 ∧
      (rs : Multiset Request) =
        (net.delivered.filter fun m => m.dest = addr).map Message.toRequest ∧
      ∀ r ∈ rs, ∃ event mt md, r = .publish [event] mt md ∧ requestMatchType mt = "NAME" := by
  induction h with
  | idle => exact ⟨[], rfl, rfl, rfl, nofun⟩
  | request _ _ ih => exact ih
  | @deliver pubs net h m hm ih =>
    obtain ⟨rs, hstore, hpushed, hrs, hsingle⟩ := ih
    have hdelivered : (net.deliver T m).delivered = m ::ₘ net.delivered := rfl
    rw [pushedAt_deliver, hdelivered]
    by_cases hdest : m.dest = addr
    · refine ⟨rs ++ [m.toRequest], ?_, ?_, ?_, fun r hr => ?_⟩
      · rw [serveAll_append, serveAll_singleton, ← hstore, Net.deliver, hdest]
        exact Function.update_self _ _ _
      · rw [serveAll_append, serveAll_singleton, ← hstore, ← hpushed, if_pos hdest, hdest]
      · rw [Multiset.filter_cons_of_pos (p := fun m : Message => m.dest = addr) _ hdest,
          Multiset.map_cons, ← hrs, ← Multiset.coe_add, add_comm]
        rfl
      · rcases List.mem_append.1 hr with hr | hr
        · exact hsingle r hr
        · obtain ⟨hname, event, hevent⟩ := h.single m hm
          refine ⟨event, m.matchType, m.metadata, ?_, hname⟩
          rw [List.mem_singleton.1 hr, Message.toRequest, hevent]
    · refine ⟨rs, ?_, ?_, ?_, hsingle⟩
      · rw [← hstore, Net.deliver]
        exact Function.update_of_ne (Ne.symm hdest) _ _
      · rw [if_neg hdest, List.append_nil, hpushed]
      · rw [Multiset.filter_cons_of_neg (p := fun m : Message => m.dest = addr) _ hdest, hrs]

end Messages

/-! ## One subscription -/

section Subscription

variable {D : Deployment} {record : String → EventRecordMap} {store : String → Store}
  {pubs : List Message} {net : Net} {r : ℕ} {h e : String}

/-- A client's publish of `e` at the server `server` reaches the server at `addr`: both are one, or
it is a worker of the group, or a coordinator publishes, and it is another one, or a worker of one
that has the event recorded. -/
def Deployment.Reaches (D : Deployment) (record : String → EventRecordMap)
    (e server addr : String) : Prop :=
  ∃ origin ∈ D.servers, ∃ holder ∈ D.servers, origin.2 = server ∧ holder.2 = addr ∧
    (holder.2 = origin.2 ∨
      (D.serverStatus holder.1 = .worker ∧
        holder.1 % D.gmGroupNumber = origin.1 % D.gmGroupNumber) ∨
      (D.serverStatus origin.1 = .coordinator ∧ (D.serverStatus holder.1 = .coordinator ∨
        (D.serverStatus holder.1 = .worker ∧
          ∃ c ∈ D.servers, c.1 = holder.1 % D.gmGroupNumber ∧ e ∈ record c.2))))

instance (D : Deployment) (record : String → EventRecordMap) (e server addr : String) :
    Decidable (D.Reaches record e server addr) :=
  inferInstanceAs (Decidable (∃ _ ∈ _, ∃ _ ∈ _, _))

theorem reaches_iff {r₀ : ℕ} {s₀ : String} (h₀ : (r₀, s₀) ∈ D.servers)
    (hserver : (r, h) ∈ D.servers) :
    D.Reaches record e s₀ h ↔ h = s₀ ∨
      (D.serverStatus r = .worker ∧ r % D.gmGroupNumber = r₀ % D.gmGroupNumber) ∨
        (D.serverStatus r₀ = .coordinator ∧ (D.serverStatus r = .coordinator ∨
          (D.serverStatus r = .worker ∧
            ∃ c, (r % D.gmGroupNumber, c) ∈ D.servers ∧ e ∈ record c))) := by
  constructor
  · rintro ⟨⟨r₁, s₁⟩, h₁, ⟨r₂, s₂⟩, h₂, rfl, rfl, hreaches⟩
    obtain rfl := D.rank_unique h₀ h₁
    obtain rfl := D.rank_unique hserver h₂
    refine hreaches.imp_right (Or.imp_right (And.imp_right (Or.imp_right (And.imp_right ?_))))
    rintro ⟨⟨k, c⟩, hc, rfl, hrecorded⟩
    exact ⟨c, hc, hrecorded⟩
  · intro hreaches
    refine ⟨_, h₀, _, hserver, rfl, rfl, ?_⟩
    refine hreaches.imp_right (Or.imp_right (And.imp_right (Or.imp_right (And.imp_right ?_))))
    rintro ⟨c, hc, hrecorded⟩
    exact ⟨_, hc, rfl, hrecorded⟩

/-- The publishes of `e` that reach the server at `addr`. -/
def reaching (D : Deployment) (record : String → EventRecordMap) (addr e : String)
    (pubs : List Message) : List Message :=
  pubs.filter fun m => m.eventList = [e] ∧ D.Reaches record e m.dest addr

/-- The deliveries of `e` at a server. -/
def deliveriesOf (e addr : String) (ms : Multiset Message) : ℕ :=
  ms.countP fun m => m.dest = addr ∧ m.eventList = [e]

/-- **A publish arrives at a server once if it reaches it, else not at all.** -/
theorem deliveriesOf_total (hserver : (r, h) ∈ D.servers) {m : Message}
    (hm : Net.Publishes (D.topology record) m) :
    deliveriesOf e h ((cascade (D.wellPlaced_topology record)).total m) =
      if m.eventList = [e] ∧ D.Reaches record e m.dest h then 1 else 0 := by
  set hT := D.wellPlaced_topology record
  have hevents : ∀ m' ∈ (cascade hT).total m, m'.eventList = m.eventList := fun m' hm' =>
    (cascade hT).of_mem_total (P := fun m' => m'.eventList = m.eventList)
      (fun m₁ h₁ m₂ h₂ => (eventList_of_mem_react (Multiset.mem_coe.1 h₂)).trans h₁) rfl hm'
  by_cases hevent : m.eventList = [e]
  · obtain ⟨member, hmember⟩ := hm.server
    obtain ⟨r₀, h₀, rfl⟩ := D.member?_topology.1 hmember
    have hcount : deliveriesOf e h ((cascade hT).total m) = (dests hT m).count h := by
      rw [deliveriesOf, dests, Multiset.count_map]
      rw [Multiset.countP_eq_card_filter]
      congr 1
      refine Multiset.filter_congr fun m' hm' => ?_
      rw [hevents m' hm', hevent]
      exact ⟨fun hdest => hdest.1.symm, fun hdest => ⟨hdest.symm, rfl⟩⟩
    have hreach : h ∈ dests hT m ↔ D.Reaches record e m.dest h := by
      have hdests : h ∈ dests hT ⟨m.dest, [e], .client, m.metadata, "NAME"⟩ ↔ _ :=
        mem_dests_iff h₀ hserver
      rw [reaches_iff h₀ hserver, ← hdests, mem_dests_client hT hmember hm.source,
        mem_dests_client hT (m := ⟨m.dest, [e], .client, m.metadata, "NAME"⟩) hmember rfl,
        groupDests, groupDests, hevent]
    rw [hcount, Multiset.count_eq_of_nodup (nodup_dests_client hT hmember hm.source)]
    exact if_congr (by rw [hreach]; exact (and_iff_right hevent).symm) rfl rfl
  · rw [if_neg fun hboth => hevent hboth.1, deliveriesOf, Multiset.countP_eq_zero]
    exact fun m' hm' hboth => hevent ((hevents m' hm').symm.trans hboth.2)

theorem deliveriesOf_sum (hserver : (r, h) ∈ D.servers)
    (hpubs : ∀ m ∈ pubs, Net.Publishes (D.topology record) m) :
    deliveriesOf e h (pubs.map (cascade (D.wellPlaced_topology record)).total).sum =
      (reaching D record h e pubs).length := by
  induction pubs with
  | nil => rfl
  | cons m pubs ih =>
    rw [List.forall_mem_cons] at hpubs
    have hm := @deliveriesOf_total D record r h e hserver m hpubs.1
    rw [List.map_cons, List.sum_cons, deliveriesOf, Multiset.countP_add, ← deliveriesOf,
      ← deliveriesOf, ih hpubs.2, hm, reaching, reaching, List.filter_cons]
    split <;> rename_i hreach
    · rw [if_pos (decide_eq_true hreach), List.length_cons, add_comm]
    · rw [if_neg (by simpa using hreach), zero_add]

theorem Net.After.publishes (hafter : Net.After (D.topology record) store pubs net) :
    ∀ m ∈ pubs, Net.Publishes (D.topology record) m := by
  induction hafter with
  | idle => exact fun m hm => absurd hm List.not_mem_nil
  | request _ hm ih =>
    intro m' hm'
    rcases List.mem_append.1 hm' with hm' | hm'
    · exact ih m' hm'
    · rwa [List.mem_singleton.1 hm']
  | deliver _ _ ih => exact ih

theorem length_publishOf_toRequest (e : String) (m : Message) :
    (publishOf e m.toRequest).length = if m.eventList = [e] then 1 else 0 := by
  rw [Message.toRequest]
  match m.eventList with
  | [] => rfl
  | [event] => by_cases hevent : event = e <;> simp [publishOf, hevent]
  | _ :: _ :: _ => simp [publishOf]

/-- The publishes of `e` among the requests of a server are the deliveries of `e` there. -/
theorem publishesOf_delivered {rs : List Request} {ms : Multiset Message}
    (hrs : (rs : Multiset Request) = (ms.filter fun m => m.dest = h).map Message.toRequest) :
    (publishesOf e rs).length = deliveriesOf e h ms := by
  have hsum : (publishesOf e rs).length =
      ((rs : Multiset Request).map fun r => (publishOf e r).length).sum := by
    rw [publishesOf, List.length_flatMap]
    rfl
  rw [hsum, hrs, Multiset.map_map]
  clear hsum hrs
  induction ms using Multiset.induction_on with
  | empty => rfl
  | cons m ms ih =>
    rw [deliveriesOf, Multiset.countP_cons, ← deliveriesOf, ← ih]
    by_cases hdest : m.dest = h
    · rw [Multiset.filter_cons_of_pos (p := fun m : Message => m.dest = h) _ hdest,
        Multiset.map_cons, Multiset.sum_cons, Function.comp_apply, length_publishOf_toRequest,
        add_comm]
      exact congrArg _ (if_congr (and_iff_right hdest).symm rfl rfl)
    · rw [Multiset.filter_cons_of_neg (p := fun m : Message => m.dest = h) _ hdest,
        if_neg fun hboth => hdest hboth.1, Nat.add_zero]

/-- A fresh client is watched from its subscription on. -/
theorem watched_fresh {s : Store} (hs : WellFormed s) {c : String} (hfresh : s.Fresh c)
    (hc : c ≠ "") {ev : String} {n : ℕ} (hev : parseEvent ev = .ok (e, (n : Int))) (hn : 1 ≤ n)
    (addr md : String) :
    Watched (serve s (.subscribe [ev] c addr "NAME" md)).1 e c addr (Multiset.replicate n e) 0 ∧
      (serve s (.subscribe [ev] c addr "NAME" md)).1.Closed := by
  have hparse : Parses [ev] [(e, (n : Int))] := .cons hev .nil
  have hneed : needOf [(e, (n : Int))] = Multiset.replicate n e := by simp [needOf]
  refine ⟨?_, hs.closed.serve hparse.parseable⟩
  rw [← hneed]
  refine watched_subscribe hs.filed hfresh hc hparse (by simp) (fun r hr => ?_) addr md
  rw [List.mem_singleton.1 hr]
  exact Int.ofNat_le.2 hn

/-- What a watched client was sent is what its counter makes of the deliveries. -/
theorem Net.After.fired {ix c addr : String} {need : Multiset String}
    (hwatched : Watched (store h) ix c addr need 0) (hclosed : (store h).Closed)
    (hafter : Net.After (D.topology record) store pubs net) :
    ∃ events : List String,
      (notificationsOf c (net.pushedAt h)).length = Quota.fired need 0 events ∧
      ∀ e ∈ need, events.count e = deliveriesOf e h net.delivered := by
  -- the server serves a sequence of publishes of one event each
  obtain ⟨rs, -, hpushed, hrs, hsingle⟩ := hafter.served h
  have hregular : ∀ r ∈ rs, r.Regular c ∧ r.Parseable := by
    intro r hr
    obtain ⟨event, mt, md, rfl, hname⟩ := hsingle r hr
    exact ⟨.publish event hname md, trivial⟩
  refine ⟨hits ix (store h) rs, ?_, fun e he => ?_⟩
  · rw [hpushed, (hwatched.serve_all fun r hr => (hregular r hr).1).2]
  · rw [hwatched.count_hits hclosed he hregular, publishesOf_delivered hrs]

/-- The deliveries of an event are among those of its publishes that reach the server, and at rest
they are all of them. -/
theorem Net.After.deliveriesOf_le (hserver : (r, h) ∈ D.servers)
    (hafter : Net.After (D.topology record) store pubs net) :
    deliveriesOf e h net.delivered ≤ (reaching D record h e pubs).length ∧
      (net.inFlight = 0 →
        deliveriesOf e h net.delivered = (reaching D record h e pubs).length) := by
  have htotal := @deliveriesOf_sum D record pubs r h e hserver hafter.publishes
  have hconserve := hafter.conserve (D.wellPlaced_topology record)
  rw [← htotal, ← hconserve]
  constructor
  · exact Multiset.countP_le_of_le _ (Multiset.le_add_right _ _)
  · intro hrest
    have hpending : (cascade (D.wellPlaced_topology record)).pending net.messages = 0 := by
      change net.inFlight.bind _ = 0
      rw [hrest, Multiset.zero_bind]
    rw [hpending, add_zero]

/-- **Whom a server watches it notifies** once for every `n` publishes that reach it. -/
theorem Net.After.notified (hserver : (r, h) ∈ D.servers) {c addr : String} {n : ℕ} (hn : n ≠ 0)
    (hwatched : Watched (store h) e c addr (Multiset.replicate n e) 0)
    (hclosed : (store h).Closed)
    (hafter : Net.After (D.topology record) store pubs net) :
    (notificationsOf c (net.pushedAt h)).length ≤ (reaching D record h e pubs).length / n ∧
      (net.inFlight = 0 →
        (notificationsOf c (net.pushedAt h)).length =
          (reaching D record h e pubs).length / n) := by
  have hmem : e ∈ Multiset.replicate n e := Multiset.mem_replicate.2 ⟨hn, rfl⟩
  obtain ⟨events, hfired, hcount⟩ := hafter.fired hwatched hclosed
  obtain ⟨hle, heq⟩ := @Net.After.deliveriesOf_le D record store pubs net r h e hserver hafter
  rw [hfired, Quota.fired_replicate hn, hcount e hmem]
  exact ⟨Nat.div_le_div_right hle, fun hrest => by rw [heq hrest]⟩

end Subscription

end TPST
