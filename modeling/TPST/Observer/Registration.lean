import TPST.Foundations.Firsts
import TPST.Foundations.Schedules
import TPST.Observer.EventStore

/-!
# Calls of `registerEvent`

What a sequence of calls of `registerEvent` makes of the empty event store. A call is for a task,
which is compared by its name, and an event; the first call of each such pair is the one that is
entered. `ofCalls` is the store that these first calls describe, and `registerAll_eq` says that it
is what the calls build, one after the other. So no entry is there twice, none is lost, and all
stand in the order of their first calls (`registerAll_entries`).
-/

namespace TPST

open EventStore Schedule

/-- A call of `registerEvent`. -/
structure Registration where
  tmmeta : TaskManagerMeta
  te : String
  deriving DecidableEq, Repr

/-- The calls one after the other, from an empty store. -/
def registerAll (calls : List Registration) : EventStore :=
  run (fun call => registerEvent call.tmmeta call.te) calls []

/-- What a call registers: the name of the task, for the event. -/
def Registration.key (call : Registration) : String × String := (call.tmmeta.name, call.te)

namespace EventStore

/-- The head node of an event, with the first call of each task. -/
def nodeOfCalls (calls : List Registration) (te : String) : HeadNode :=
  ⟨te, ((firsts Registration.key calls).filter (·.te = te)).map (·.tmmeta)⟩

/-- The store that the calls describe. -/
def ofCalls (calls : List Registration) : EventStore :=
  ((firsts Registration.te calls).map (·.te)).map (nodeOfCalls calls)

/-- The events, and the names of each event, stand in the order of the calls that first registered
them. -/
structure InOrder (calls : List Registration) (es : EventStore) : Prop where
  events : (es.map (·.te)).Pairwise fun te te' =>
    (calls.map (·.te)).idxOf te < (calls.map (·.te)).idxOf te'
  names : ∀ h ∈ es, (h.tmList.map (·.name)).Pairwise fun name name' =>
    (calls.map (·.key)).idxOf (name, h.te) < (calls.map (·.key)).idxOf (name', h.te)

end EventStore

section Register

variable {tmmeta : TaskManagerMeta} {te : String} {es : EventStore} {events : List String}
  {f g : String → HeadNode}

/-- A new event. -/
theorem registerEvent_of_notMem (hte : te ∉ es.map (·.te)) :
    registerEvent tmmeta te es = es ++ [⟨te, [tmmeta]⟩] := by
  induction es with
  | nil => rfl
  | cons h es ih =>
    rw [List.map_cons, List.mem_cons, not_or] at hte
    rw [registerEvent, if_neg hte.1, ih hte.2, List.cons_append]

/-- An event that has a head node: that node may change, and no other. -/
theorem registerEvent_map (hf : ∀ e, (f e).te = e) (hevents : events.Nodup) (hte : te ∈ events)
    (hother : ∀ e, e ≠ te → g e = f e)
    (hthis : g te = if tmmeta.name ∈ (f te).tmList.map (·.name) then f te
      else ⟨te, (f te).tmList ++ [tmmeta]⟩) :
    registerEvent tmmeta te (events.map f) = events.map g := by
  induction events with
  | nil => cases hte
  | cons e events ih =>
    obtain ⟨hnew, hevents⟩ := List.nodup_cons.1 hevents
    rw [List.map_cons, List.map_cons, registerEvent, hf]
    by_cases he : te = e
    · subst he
      have hrest : events.map f = events.map g :=
        List.map_congr_left fun e he => (hother e fun heq => hnew (heq ▸ he)).symm
      rw [if_pos rfl, hthis, hrest]
      split <;> rfl
    · rw [if_neg he, hother e (Ne.symm he),
        ih hevents ((List.mem_cons.1 hte).resolve_left he)]

end Register

section Calls

variable {calls : List Registration} {call : Registration} {te name : String}

theorem registerAll_concat :
    registerAll (calls ++ [call]) = registerEvent call.tmmeta call.te (registerAll calls) :=
  run_append calls [call] []

theorem events_ofCalls :
    (ofCalls calls).map (·.te) = (firsts Registration.te calls).map (·.te) := by
  rw [ofCalls, List.map_map]
  exact List.map_id _

theorem mem_keys_firsts :
    (name, te) ∈ (firsts Registration.key calls).map (·.key) ↔ (name, te) ∈ calls.map (·.key) :=
  mem_map_key_firsts

/-- The entries of a node, as what the first calls registered. -/
theorem keys_nodeOfCalls :
    ((nodeOfCalls calls te).tmList.map fun t => (t.name, te)) =
      ((firsts Registration.key calls).filter (·.te = te)).map (·.key) := by
  rw [nodeOfCalls, List.map_map]
  exact List.map_congr_left fun call hcall =>
    congrArg _ (of_decide_eq_true (List.mem_filter.1 hcall).2).symm

/-- The names of a node are those that some call registered for the event. -/
theorem mem_names_nodeOfCalls :
    name ∈ (nodeOfCalls calls te).tmList.map (·.name) ↔ (name, te) ∈ calls.map (·.key) := by
  rw [← mem_keys_firsts, nodeOfCalls, List.map_map, List.mem_map, List.mem_map]
  simp [Registration.key, and_comm, and_assoc]

theorem nodeOfCalls_concat_other (hte : te ≠ call.te) :
    nodeOfCalls (calls ++ [call]) te = nodeOfCalls calls te := by
  rw [nodeOfCalls, firsts_concat]
  split_ifs
  · rfl
  · rw [List.filter_append, List.filter_cons_of_neg (by simpa using hte.symm), List.filter_nil,
      List.append_nil, nodeOfCalls]

/-- One more call enters its task at the node of its event, if the name is new there. -/
theorem nodeOfCalls_concat_self :
    nodeOfCalls (calls ++ [call]) call.te =
      if call.tmmeta.name ∈ (nodeOfCalls calls call.te).tmList.map (·.name) then
        nodeOfCalls calls call.te
      else ⟨call.te, (nodeOfCalls calls call.te).tmList ++ [call.tmmeta]⟩ := by
  have hmem : call.tmmeta.name ∈ (nodeOfCalls calls call.te).tmList.map (·.name) ↔
      call.key ∈ calls.map (·.key) := mem_names_nodeOfCalls
  rw [nodeOfCalls, firsts_concat]
  simp only [hmem]
  split_ifs with hold
  · rfl
  · rw [List.filter_append, List.filter_cons_of_pos (by simp), List.filter_nil, List.map_append]
    rfl

/-- The first call for an event. -/
theorem nodeOfCalls_concat_new (hte : call.te ∉ calls.map (·.te)) :
    nodeOfCalls (calls ++ [call]) call.te = ⟨call.te, [call.tmmeta]⟩ := by
  have hempty : (nodeOfCalls calls call.te).tmList.map (·.name) = [] :=
    List.eq_nil_iff_forall_not_mem.2 fun name hname => by
      obtain ⟨call', hcall', hkey⟩ := List.mem_map.1 (mem_names_nodeOfCalls.1 hname)
      exact hte (List.mem_map.2 ⟨call', hcall', congrArg Prod.snd hkey⟩)
  rw [nodeOfCalls_concat_self, hempty, if_neg List.not_mem_nil, List.map_eq_nil_iff.1 hempty,
    List.nil_append]

/-- **The calls build the store that they describe.** -/
theorem registerAll_eq : registerAll calls = ofCalls calls := by
  induction calls using List.reverseRecOn with
  | nil => rfl
  | append_singleton calls call ih =>
    rw [registerAll_concat, ih, ofCalls, ofCalls, firsts_concat]
    split_ifs with hte
    · exact registerEvent_map (fun _ => rfl) nodup_firsts (mem_map_key_firsts.2 hte)
        (fun e he => nodeOfCalls_concat_other he) nodeOfCalls_concat_self
    · have hnew : call.te ∉ (ofCalls calls).map (·.te) := by
        rw [events_ofCalls]
        exact fun hmem => hte (mem_map_key_firsts.1 hmem)
      have hothers : ofCalls calls =
          ((firsts Registration.te calls).map (·.te)).map (nodeOfCalls (calls ++ [call])) :=
        List.map_congr_left fun e he => (nodeOfCalls_concat_other fun heq =>
          hte (heq ▸ mem_map_key_firsts.1 he)).symm
      calc registerEvent call.tmmeta call.te (ofCalls calls)
          = ofCalls calls ++ [⟨call.te, [call.tmmeta]⟩] := registerEvent_of_notMem hnew
        _ = _ := by
          rw [List.map_append, List.map_append, ← hothers, List.map_singleton, List.map_singleton,
            nodeOfCalls_concat_new hte]

example :
    let t₁ : TaskManagerMeta := ⟨"t1", "A", "B", .blocked⟩
    let t₂ : TaskManagerMeta := ⟨"t2", "A", "C", .blocked⟩
    registerAll [⟨t₁, "A"⟩, ⟨t₁, "B"⟩, ⟨t₂, "A"⟩, ⟨{ t₁ with publishEvent := "C" }, "A"⟩] =
      [⟨"A", [t₁, t₂]⟩, ⟨"B", [t₁]⟩] := by decide

theorem distinct_registerAll (calls : List Registration) : Distinct (registerAll calls) := by
  induction calls using List.reverseRecOn with
  | nil => exact ⟨List.nodup_nil, List.forall_mem_nil _⟩
  | append_singleton calls call ih =>
    rw [registerAll_concat]
    exact distinct_registerEvent ih

/-- **The entries**: a task is in the list of an event by its first call. -/
theorem inList_registerAll {tmmeta : TaskManagerMeta} :
    InList (registerAll calls) te tmmeta ↔ ⟨tmmeta, te⟩ ∈ firsts Registration.key calls := by
  rw [registerAll_eq]
  constructor
  · rintro ⟨h, hh, rfl, hmem⟩
    obtain ⟨te, -, rfl⟩ := List.mem_map.1 hh
    obtain ⟨call, hcall, rfl⟩ := List.mem_map.1 hmem
    obtain ⟨hfirst, hte⟩ := List.mem_filter.1 hcall
    obtain rfl : call.te = te := of_decide_eq_true hte
    exact hfirst
  · intro hcall
    have hte : te ∈ (firsts Registration.te calls).map (·.te) :=
      mem_map_key_firsts.2 (List.mem_map_of_mem (mem_of_mem_firsts hcall))
    exact ⟨nodeOfCalls calls te, List.mem_map_of_mem hte, rfl,
      List.mem_map.2 ⟨_, List.mem_filter.2 ⟨hcall, decide_eq_true rfl⟩, rfl⟩⟩

theorem inOrder_registerAll (calls : List Registration) : InOrder calls (registerAll calls) := by
  rw [registerAll_eq]
  refine ⟨?_, fun h hh => ?_⟩
  · rw [events_ofCalls]
    exact pairwise_firsts
  · obtain ⟨te, -, rfl⟩ := List.mem_map.1 hh
    have hsub : ((nodeOfCalls calls te).tmList.map fun t => (t.name, te)).Sublist
        ((firsts Registration.key calls).map (·.key)) := by
      rw [keys_nodeOfCalls]
      exact List.filter_sublist.map _
    have hpairs := pairwise_firsts.sublist hsub
    rw [List.pairwise_map] at hpairs ⊢
    exact hpairs

end Calls

/-- **What calls of `registerEvent` make of an empty store**: no event and no task of an event is in
it twice, a task is in the list of an event exactly when some call registered it there, and all
entries stand in the order of their first calls. -/
theorem registerAll_entries (calls : List Registration) :
    Distinct (registerAll calls) ∧
    (∀ name te, (∃ tmmeta, InList (registerAll calls) te tmmeta ∧ tmmeta.name = name) ↔
      ∃ call ∈ calls, call.tmmeta.name = name ∧ call.te = te) ∧
    InOrder calls (registerAll calls) := by
  refine ⟨distinct_registerAll calls, fun name te => ?_, inOrder_registerAll calls⟩
  have hkeys := @mem_keys_firsts calls te name
  simp only [List.mem_map, Registration.key, Prod.mk.injEq] at hkeys
  rw [← hkeys]
  constructor
  · rintro ⟨tmmeta, hmem, hname⟩
    exact ⟨_, inList_registerAll.1 hmem, hname, rfl⟩
  · rintro ⟨call, hcall, hname, rfl⟩
    exact ⟨call.tmmeta, inList_registerAll.2 hcall, hname⟩

end TPST
