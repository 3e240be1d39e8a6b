import Mathlib.Data.List.Sort
import Mathlib.Data.Rat.Floor
import TPST.Foundations.Maps
import TPST.Utils.Strings

/-!
# The redistribution planner

`generatePlanForEvent` plans how to even out the subscriptions of an event over the servers of a
group. It sorts the servers by their number of subscriptions, and walks with one index over the
servers to be relieved and with another over those to be filled up. Only the second is checked
against the size of the list.

The first index moves on when a server's surplus does not meet a need. The next server has no
more to give, so then the index runs beyond the end (`planLoop_eq_error`); otherwise all moves are
from the first server (`planLoop_eq_ok`). `plansWell_iff` says which maps the planner is right for.
-/

namespace TPST

open Std

/-- `eventRecordMap`: for each event, the number of subscriptions on each server of the group. -/
abbrev EventRecordMap := OMap String (OMap String Int)

/-- `SubMeta`. -/
structure SubMeta where
  serverAddr : String
  subNumber : Int
  deriving DecidableEq, Repr

/-- `Plan`. -/
structure Plan where
  srcAddr : String
  destAddr : String
  moveSubscription : String
  moveNumber : Int
  deriving DecidableEq, Repr

/-- The servers recorded for an event, in map order. -/
def subMetas (eventRecordMap : EventRecordMap) (event : String) : List SubMeta :=
  ((eventRecordMap[event]?.map fun row => row.toList).getD []).map fun entry =>
    ⟨entry.1, entry.2⟩

/-- `getAverage`, computed exactly. -/
def getAverage (event : String) (eventRecordMap : EventRecordMap) : ℚ :=
  match eventRecordMap[event]? with
  | none => 0
  | some subNumForNode =>
    if subNumForNode.size = 0 then 0
    else ((subNumForNode.toList.map Prod.snd).sum : ℤ) / subNumForNode.size

/-- `SortByMeta`. -/
def sortByMeta (sbm1 sbm2 : SubMeta) : Bool := sbm2.subNumber < sbm1.subNumber

/-- What `std::sort` with `SortByMeta` may do: it permutes, and leaves no entry before one that
should come before it. Servers with the same number may come in any order. -/
structure Sorting where
  sort : List SubMeta → List SubMeta
  perm : ∀ l, (sort l).Perm l
  sorted : ∀ l, (sort l).Pairwise fun a b => sortByMeta b a = false

/-- `generatePlan`. -/
def generatePlan (event src dest : String) (num : Int) : Plan where
  srcAddr := src
  destAddr := dest
  moveSubscription := event
  moveNumber := num

/-- The loop of `generatePlanForEvent`, with its two indices. -/
def planLoop (imbEvent : String) (newAvg : Int) (subMetaList : List SubMeta) (p1 p2 : ℕ) :
    Except Fault (List Plan) :=
  if h2 : p2 < subMetaList.length then
    if newAvg ≤ subMetaList[p2].subNumber then planLoop imbEvent newAvg subMetaList p1 (p2 + 1)
    else if h1 : p1 < subMetaList.length then
      let supply := subMetaList[p1].subNumber - newAvg
      let needNum := newAvg - subMetaList[p2].subNumber
      let plan := generatePlan imbEvent subMetaList[p1].serverAddr subMetaList[p2].serverAddr
      if needNum ≤ supply then
        (planLoop imbEvent newAvg subMetaList p1 (p2 + 1)).map (plan needNum :: ·)
      else (planLoop imbEvent newAvg subMetaList (p1 + 1) p2).map (plan supply :: ·)
    else .error .undefinedBehaviour
  else .ok []
termination_by (subMetaList.length - p1) + (subMetaList.length - p2)

/-- `generatePlanForEvent`, whose `eventRecordMap[imbEvent]` opens a row that is not there. -/
def generatePlanForEvent (std : Sorting) (imbEvent : String) (eventRecordMap : EventRecordMap) :
    EventRecordMap × Except Fault (List Plan) :=
  let avg := getAverage imbEvent eventRecordMap
  let subMetaList := subMetas eventRecordMap imbEvent
  (OMap.openRow eventRecordMap imbEvent,
    if subMetaList.length ≤ 1 then .ok []
    else planLoop imbEvent ⌈avg⌉ (std.sort subMetaList) 0 1)

/-! ## The loop -/

section Loop

variable {e : String} {newAvg : Int} {l : List SubMeta} {p1 p2 : ℕ}

/-- One server is to be filled up, and no server from `p1` on can do it: the loop runs over the
end. -/
theorem planLoop_eq_error_of_need (h2 : p2 < l.length)
    (hneed : l[p2].subNumber < newAvg)
    (hsupply : ∀ i (hi : i < l.length), p1 ≤ i →
      l[i].subNumber - newAvg < newAvg - l[p2].subNumber) :
    planLoop e newAvg l p1 p2 = .error .undefinedBehaviour := by
  induction hn : l.length - p1 generalizing p1 with
  | zero =>
    rw [planLoop, dif_pos h2, if_neg (by omega), dif_neg (by omega)]
  | succ n ih =>
    have h1 : p1 < l.length := by omega
    have hlt := hsupply p1 h1 le_rfl
    have hnext := @ih (p1 + 1) (fun i hi hle => hsupply i hi (by omega)) (by omega)
    rw [planLoop, dif_pos h2, if_neg (by omega), dif_pos h1]
    simp only [if_neg (by omega : ¬ newAvg - l[p2].subNumber ≤ l[p1].subNumber - newAvg), hnext]
    rfl

/-- The plan that fills up the server `x` from the server `first`. -/
def fillPlan (e : String) (newAvg : Int) (first x : SubMeta) : Plan :=
  generatePlan e first.serverAddr x.serverAddr (newAvg - x.subNumber)

/-- The plans that fill up those of the servers `rest` that are below the average. -/
def fillPlans (e : String) (newAvg : Int) (first : SubMeta) (rest : List SubMeta) : List Plan :=
  (rest.filter fun x => x.subNumber < newAvg).map (fillPlan e newAvg first)

/-- **If the first server can fill up each of the others**, it does so. -/
theorem planLoop_eq_ok (h1 : 0 < l.length)
    (hsupply : ∀ x ∈ l.drop p2, newAvg ≤ x.subNumber ∨
      newAvg - x.subNumber ≤ l[0].subNumber - newAvg) :
    planLoop e newAvg l 0 p2 = .ok (fillPlans e newAvg l[0] (l.drop p2)) := by
  induction hn : l.length - p2 generalizing p2 with
  | zero =>
    have hdrop : l.drop p2 = [] := List.drop_eq_nil_of_le (by omega)
    rw [planLoop, dif_neg (by omega), hdrop]
    rfl
  | succ n ih =>
    have h2 : p2 < l.length := by omega
    have hdrop : l.drop p2 = l[p2] :: l.drop (p2 + 1) := List.drop_eq_getElem_cons h2
    rw [hdrop] at hsupply
    have hnext := ih (fun x hx => hsupply x (List.mem_cons_of_mem _ hx)) (by omega)
    have hhead := hsupply l[p2] List.mem_cons_self
    rw [planLoop, dif_pos h2, hdrop, fillPlans]
    by_cases hfull : newAvg ≤ l[p2].subNumber
    · rw [if_pos hfull, hnext, List.filter_cons_of_neg (by simpa using hfull)]
      rfl
    · have hmeets := hhead.resolve_left hfull
      rw [if_neg hfull, dif_pos h1, List.filter_cons_of_pos (by simpa using hfull)]
      simp only [if_pos hmeets, hnext]
      rfl

/-- **If the first server cannot fill up one of the others**, the loop runs over the end. -/
theorem planLoop_eq_error (h1 : 0 < l.length)
    (hsorted : ∀ i (hi : i < l.length), l[i].subNumber ≤ l[0].subNumber) {x : SubMeta}
    (hx : x ∈ l.drop p2) (hneed : x.subNumber < newAvg)
    (hshort : l[0].subNumber - newAvg < newAvg - x.subNumber) :
    planLoop e newAvg l 0 p2 = .error .undefinedBehaviour := by
  induction hn : l.length - p2 generalizing p2 with
  | zero =>
    rw [List.drop_eq_nil_of_le (by omega)] at hx
    simp at hx
  | succ n ih =>
    have h2 : p2 < l.length := by omega
    by_cases hmeets : newAvg ≤ l[p2].subNumber ∨
        newAvg - l[p2].subNumber ≤ l[0].subNumber - newAvg
    · have hrest : x ∈ l.drop (p2 + 1) := by
        rw [List.drop_eq_getElem_cons h2, List.mem_cons] at hx
        rcases hx with rfl | hx
        · omega
        · exact hx
      have hnext := ih hrest (by omega)
      rw [planLoop, dif_pos h2, dif_pos h1]
      by_cases hfull : newAvg ≤ l[p2].subNumber
      · rw [if_pos hfull, hnext]
      · simp only [if_neg hfull, if_pos (hmeets.resolve_left hfull), hnext]
        rfl
    · rw [not_or, Int.not_le, Int.not_le] at hmeets
      exact planLoop_eq_error_of_need h2 hmeets.1 fun i hi _ => by
        have := hsorted i hi
        omega

end Loop

/-! ## The recorded servers -/

section Servers

variable {m : EventRecordMap} {e : String}

theorem mem_subMetas {x : SubMeta} :
    x ∈ subMetas m e ↔ OMap.cell m e x.serverAddr = some x.subNumber := by
  obtain ⟨a, n⟩ := x
  unfold subMetas OMap.cell
  cases m[e]? with
  | none => simp
  | some row => simp [ExtTreeMap.mem_toList_iff_getElem?_eq_some]

theorem nodup_serverAddr (m : EventRecordMap) (e : String) :
    ((subMetas m e).map SubMeta.serverAddr).Nodup := by
  unfold subMetas
  cases m[e]? with
  | none => simp
  | some row =>
    simp only [Option.map_some, Option.getD_some, List.map_map]
    exact (ExtTreeMap.map_fst_toList_eq_keys (t := row)) ▸ ExtTreeMap.nodup_keys

/-- The average is the total by the number of servers. -/
theorem getAverage_eq (m : EventRecordMap) (e : String) :
    getAverage e m =
      (((subMetas m e).map SubMeta.subNumber).sum : ℤ) / ((subMetas m e).length : ℚ) := by
  unfold getAverage subMetas
  cases m[e]? with
  | none => simp
  | some row =>
    simp only [Option.map_some, Option.getD_some, List.map_map, List.length_map,
      ExtTreeMap.length_toList]
    by_cases hrow : row.size = 0
    · simp [hrow]
    · rw [if_neg hrow]
      rfl

end Servers

/-! ## The plans -/

/-- Some server can fill up each server to the average, rounded up. -/
def Coverable (m : EventRecordMap) (e : String) : Prop :=
  ∃ hi ∈ subMetas m e, ∀ lo ∈ subMetas m e, 2 * ⌈getAverage e m⌉ ≤ hi.subNumber + lo.subNumber

/-- The planner stays inside its list, and each of its plans moves a positive number from a server
above the average, rounded up, to another one below it. -/
def PlansWell (std : Sorting) (e : String) (m : EventRecordMap) : Prop :=
  ∃ plans, (generatePlanForEvent std e m).2 = .ok plans ∧
    ∀ plan ∈ plans, plan.srcAddr ≠ plan.destAddr ∧ 0 < plan.moveNumber ∧
      (∃ n, OMap.cell m e plan.srcAddr = some n ∧ ⌈getAverage e m⌉ < n) ∧
      ∃ n, OMap.cell m e plan.destAddr = some n ∧ n < ⌈getAverage e m⌉

section Plans

variable {std : Sorting} {e : String} {m : EventRecordMap} {first : SubMeta} {rest : List SubMeta}

theorem mem_sort {x : SubMeta} : x ∈ std.sort (subMetas m e) ↔ x ∈ subMetas m e :=
  (std.perm _).mem_iff

theorem mem_of_sort (hl : std.sort (subMetas m e) = first :: rest) {x : SubMeta} :
    x ∈ first :: rest ↔ x ∈ subMetas m e := by
  rw [← hl, mem_sort]

theorem nodup_of_sort (hl : std.sort (subMetas m e) = first :: rest) :
    ((first :: rest).map SubMeta.serverAddr).Nodup := by
  rw [← hl]
  exact ((std.perm _).map _).nodup_iff.2 (nodup_serverAddr m e)

theorem exists_sort_eq_cons (std : Sorting) (h2 : 2 ≤ (subMetas m e).length) :
    ∃ first rest, std.sort (subMetas m e) = first :: rest ∧ rest ≠ [] := by
  have hlen := (std.perm (subMetas m e)).length_eq
  cases hl : std.sort (subMetas m e) with
  | nil => rw [hl, List.length_nil] at hlen; omega
  | cons first rest =>
    refine ⟨first, rest, rfl, ?_⟩
    rintro rfl
    rw [hl, List.length_singleton] at hlen
    omega

theorem le_first (hl : std.sort (subMetas m e) = first :: rest) {x : SubMeta}
    (hx : x ∈ first :: rest) : x.subNumber ≤ first.subNumber := by
  have hsorted := std.sorted (subMetas m e)
  rw [hl, List.pairwise_cons] at hsorted
  rcases List.mem_cons.1 hx with rfl | hmem
  · exact le_rfl
  · simpa [sortByMeta] using hsorted.1 x hmem

theorem coverable_iff (hl : std.sort (subMetas m e) = first :: rest) (hrest : rest ≠ []) :
    Coverable m e ↔ ∀ x ∈ rest, ⌈getAverage e m⌉ ≤ x.subNumber ∨
      ⌈getAverage e m⌉ - x.subNumber ≤ first.subNumber - ⌈getAverage e m⌉ := by
  constructor
  · rintro ⟨hi, hhi, hcover⟩ x hx
    have hle := le_first hl ((mem_of_sort hl).2 hhi)
    have hsum := hcover x ((mem_of_sort hl).1 (List.mem_cons_of_mem _ hx))
    right
    omega
  · intro h
    have hrest' : ∀ x ∈ rest, 2 * ⌈getAverage e m⌉ ≤ first.subNumber + x.subNumber := by
      intro x hx
      have hle := le_first hl (List.mem_cons_of_mem _ hx)
      rcases h x hx with hfull | hmeets <;> omega
    refine ⟨first, (mem_of_sort hl).1 List.mem_cons_self, fun lo hlo => ?_⟩
    rcases List.mem_cons.1 ((mem_of_sort hl).2 hlo) with rfl | hlo
    · obtain ⟨x, hx⟩ := List.exists_mem_of_ne_nil rest hrest
      have hle := le_first hl (List.mem_cons_of_mem _ hx)
      have := hrest' x hx
      omega
    · exact hrest' lo hlo

theorem generatePlanForEvent_of_coverable (hl : std.sort (subMetas m e) = first :: rest)
    (hrest : rest ≠ []) (h2 : 2 ≤ (subMetas m e).length) (h : Coverable m e) :
    (generatePlanForEvent std e m).2 = .ok (fillPlans e ⌈getAverage e m⌉ first rest) := by
  simp only [generatePlanForEvent, if_neg (by omega : ¬ (subMetas m e).length ≤ 1), hl]
  exact planLoop_eq_ok (by simp) ((coverable_iff hl hrest).1 h)

theorem generatePlanForEvent_of_not_coverable (std : Sorting) (h2 : 2 ≤ (subMetas m e).length)
    (h : ¬ Coverable m e) : (generatePlanForEvent std e m).2 = .error .undefinedBehaviour := by
  obtain ⟨first, rest, hl, hrest⟩ := exists_sort_eq_cons std h2
  rw [coverable_iff hl hrest] at h
  simp only [not_forall, not_or, Int.not_le] at h
  obtain ⟨x, hx, hneed, hshort⟩ := h
  simp only [generatePlanForEvent, if_neg (by omega : ¬ (subMetas m e).length ≤ 1), hl]
  exact planLoop_eq_error (by simp)
    (fun i hi => le_first hl (List.getElem_mem hi)) hx hneed hshort

/-- **What the planner plans** for two servers or more: the first one fills up the others. -/
theorem exists_eq_fillPlans {plans : List Plan} (h2 : 2 ≤ (subMetas m e).length)
    (hplans : (generatePlanForEvent std e m).2 = .ok plans) :
    ∃ first rest, std.sort (subMetas m e) = first :: rest ∧ rest ≠ [] ∧ Coverable m e ∧
      plans = fillPlans e ⌈getAverage e m⌉ first rest := by
  have hcover : Coverable m e := by
    by_contra hnot
    rw [generatePlanForEvent_of_not_coverable std h2 hnot] at hplans
    cases hplans
  obtain ⟨first, rest, hl, hrest⟩ := exists_sort_eq_cons std h2
  rw [generatePlanForEvent_of_coverable hl hrest h2 hcover] at hplans
  exact ⟨first, rest, hl, hrest, hcover, (Except.ok.inj hplans).symm⟩

/-- **When the planner is right**: there is at most one server, or the server with the most
subscriptions can fill up the one with the fewest. -/
theorem plansWell_iff :
    PlansWell std e m ↔ (subMetas m e).length ≤ 1 ∨ Coverable m e := by
  by_cases h1 : (subMetas m e).length ≤ 1
  · refine iff_of_true ⟨[], ?_, by simp⟩ (.inl h1)
    simp only [generatePlanForEvent, if_pos h1]
  have h2 : 2 ≤ (subMetas m e).length := by omega
  rw [or_iff_right h1]
  constructor
  · rintro ⟨plans, hplans, -⟩
    obtain ⟨-, -, -, -, hcover, -⟩ := exists_eq_fillPlans h2 hplans
    exact hcover
  intro hcover
  obtain ⟨first, rest, hl, hrest⟩ := exists_sort_eq_cons std h2
  have hcell : ∀ x ∈ first :: rest, OMap.cell m e x.serverAddr = some x.subNumber := fun x hx =>
    mem_subMetas.1 ((mem_of_sort hl).1 hx)
  have hnodup := nodup_of_sort hl
  refine ⟨_, generatePlanForEvent_of_coverable hl hrest h2 hcover, fun plan hplan => ?_⟩
  obtain ⟨x, hx, rfl⟩ := List.mem_map.1 hplan
  obtain ⟨hx, hneed⟩ := List.mem_filter.1 hx
  have hneed : x.subNumber < ⌈getAverage e m⌉ := by simpa using hneed
  have hsupply := (coverable_iff hl hrest).1 hcover x hx
  refine ⟨fun heq : first.serverAddr = x.serverAddr => ?_,
    by simp only [fillPlan, generatePlan]; omega,
    ⟨_, hcell first List.mem_cons_self, by omega⟩,
    ⟨_, hcell x (List.mem_cons_of_mem _ hx), hneed⟩⟩
  rw [List.map_cons, List.nodup_cons] at hnodup
  rw [heq] at hnodup
  exact hnodup.1 (List.mem_map_of_mem hx)

end Plans

/-- Insertion sort is a sort that `std::sort` may perform. -/
def insertionSorting : Sorting where
  sort := List.insertionSort fun a b => b.subNumber ≤ a.subNumber
  perm := List.perm_insertionSort _
  sorted l := by
    have h := List.pairwise_insertionSort (fun a b : SubMeta => b.subNumber ≤ a.subNumber) l
    exact h.imp fun hab => by simpa [sortByMeta] using hab

/-- Two servers with one subscription, and one with none. -/
def spareMap : EventRecordMap :=
  OMap.insertCell (OMap.insertCell (OMap.insertCell ∅ "e" "s0" 1) "e" "s1" 1) "e" "s2" 0

/-- With two servers at the average and one below it, the planner runs over the end of its list. -/
theorem planner_overruns :
    ¬ ∀ (std : Sorting) (e : String) (m : EventRecordMap),
      (∀ a n, OMap.cell m e a = some n → 0 ≤ n) → PlansWell std e m := by
  intro h
  obtain ⟨plans, hplans, -⟩ := h insertionSorting "e" spareMap fun a n hn => by
    simp only [spareMap, OMap.cell_insertCell, OMap.cell_empty] at hn
    grind
  have herror : (generatePlanForEvent insertionSorting "e" spareMap).2 =
      .error .undefinedBehaviour := by decide +kernel
  rw [herror] at hplans
  cases hplans

end TPST
