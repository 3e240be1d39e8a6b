import Mathlib.Algebra.Order.BigOperators.Group.List
import TPST.Coordinator.Planner
import TPST.Foundations.Transfers

/-!
# Executing the plans

The coordinator enters the plans of `generatePlanForEvent` in its map as if they were carried out
(`fakeRedistributeByPlan`). This amounts to transfers between the servers' numbers
(`cell_fakeRedistributeByPlan`), and the plans are those that fill up every server below the
average from the first one (`transfers_fillPlans`). The planner does not take into account what
the earlier plans have taken from that server already, nor that other servers are above the average.
`balances_iff` says when the result is balanced all the same.
-/

namespace TPST

open Std

/-- `redistributeStatusMap`. -/
def redistributeStatusMap (event serverAddr : String) (subNumber : Int) (m : EventRecordMap) :
    EventRecordMap :=
  m.alter event fun row =>
    some ((row.getD ∅).alter serverAddr fun n => some (n.getD 0 + subNumber))

/-- `fakeRedistributeByPlan`. -/
def fakeRedistributeByPlan (planList : List Plan) (m : EventRecordMap) : EventRecordMap :=
  planList.foldl (fun m plan =>
    redistributeStatusMap plan.moveSubscription plan.destAddr plan.moveNumber
      (redistributeStatusMap plan.moveSubscription plan.srcAddr (-plan.moveNumber) m)) m

/-! ## Plans are transfers -/

/-- A plan as a transfer between servers. -/
def Plan.transfer (plan : Plan) : Transfer String :=
  ⟨plan.srcAddr, plan.destAddr, plan.moveNumber⟩

/-- The number recorded for a server. -/
def recorded (m : EventRecordMap) (e a : String) : ℤ := (OMap.cell m e a).getD 0

section Transfers

variable {m : EventRecordMap} {e a : String}

theorem cell_redistributeStatusMap (event addr : String) (n : Int) (m : EventRecordMap) :
    OMap.cell (redistributeStatusMap event addr n m) e a =
      if event = e ∧ addr = a then some ((OMap.cell m e a).getD 0 + n) else OMap.cell m e a := by
  simp only [OMap.cell, redistributeStatusMap, ExtTreeMap.getElem?_alter, Std.compare_eq_iff_eq]
  by_cases he : event = e
  · subst he
    by_cases ha : addr = a
    · subst ha
      cases m[event]? <;> simp
    · cases m[event]? with
      | none => simp [ExtTreeMap.mem_alter, ha]
      | some row => simp [ExtTreeMap.getElem?_alter, ha]
  · simp [he]

/-- One plan between recorded servers is one transfer. -/
theorem cell_redistribute_plan {plan : Plan} (he : plan.moveSubscription = e)
    (hsrc : OMap.cell m e plan.srcAddr ≠ none) (hdst : OMap.cell m e plan.destAddr ≠ none) :
    OMap.cell (fakeRedistributeByPlan [plan] m) e a =
      (OMap.cell m e a).map fun n => n + plan.transfer.effect a := by
  obtain ⟨ns, hns⟩ := Option.ne_none_iff_exists'.1 hsrc
  obtain ⟨nd, hnd⟩ := Option.ne_none_iff_exists'.1 hdst
  simp only [fakeRedistributeByPlan, List.foldl_cons, List.foldl_nil, cell_redistributeStatusMap,
    he, true_and, Transfer.effect, Plan.transfer, eq_comm (a := a)]
  by_cases hs : plan.srcAddr = a <;> by_cases hd : plan.destAddr = a
  · subst hs
    simp [hd, hns]
  · subst hs
    simp [hd, hns]
  · subst hd
    simp [hs, hnd]
  · simp [hs, hd]

theorem fakeRedistributeByPlan_cons (plan : Plan) (plans : List Plan) (m : EventRecordMap) :
    fakeRedistributeByPlan (plan :: plans) m =
      fakeRedistributeByPlan plans (fakeRedistributeByPlan [plan] m) := rfl

/-- **Plans between recorded servers are transfers between their numbers.** -/
theorem cell_fakeRedistributeByPlan {plans : List Plan}
    (hplans : ∀ plan ∈ plans, plan.moveSubscription = e ∧
      OMap.cell m e plan.srcAddr ≠ none ∧ OMap.cell m e plan.destAddr ≠ none) (a : String) :
    OMap.cell (fakeRedistributeByPlan plans m) e a =
      (OMap.cell m e a).map fun _ =>
        Transfer.applyAll (plans.map Plan.transfer) (recorded m e) a := by
  induction plans generalizing m with
  | nil =>
    rw [fakeRedistributeByPlan, List.foldl_nil, List.map_nil]
    cases hcell : OMap.cell m e a <;> simp [Transfer.applyAll, recorded, hcell]
  | cons plan plans ih =>
    obtain ⟨he, hsrc, hdst⟩ := hplans plan (by simp)
    have hstep := fun a => cell_redistribute_plan (a := a) he hsrc hdst
    have hrecorded : recorded (fakeRedistributeByPlan [plan] m) e =
        fun a => recorded m e a + plan.transfer.effect a := by
      funext a
      rw [recorded, recorded, hstep]
      cases hcell : OMap.cell m e a with
      | some n => rfl
      | none =>
        have hs : a ≠ plan.srcAddr := fun heq => hsrc (heq ▸ hcell)
        have hd : a ≠ plan.destAddr := fun heq => hdst (heq ▸ hcell)
        simp [Transfer.effect, Plan.transfer, hs, hd]
    rw [fakeRedistributeByPlan_cons, ih fun p hp => ?_, hstep, hrecorded, List.map_cons,
      Transfer.applyAll_cons, Option.map_map]
    · rfl
    · obtain ⟨he', hsrc', hdst'⟩ := hplans p (by simp [hp])
      refine ⟨he', ?_, ?_⟩
      · rw [hstep]
        simpa using hsrc'
      · rw [hstep]
        simpa using hdst'

end Transfers

/-! ## The average -/

section Average

variable {m : EventRecordMap} {e : String}

/-- The subscriptions recorded for an event. -/
def totalOf (m : EventRecordMap) (e : String) : ℤ := ((subMetas m e).map SubMeta.subNumber).sum

theorem getAverage_mul_length (hne : (subMetas m e).length ≠ 0) :
    getAverage e m * ((subMetas m e).length : ℚ) = (totalOf m e : ℚ) := by
  rw [getAverage_eq, totalOf]
  exact div_mul_cancel₀ _ (Nat.cast_ne_zero.2 hne)

/-- The average, rounded up, is enough for everything. -/
theorem totalOf_le (hne : (subMetas m e).length ≠ 0) :
    totalOf m e ≤ (subMetas m e).length * ⌈getAverage e m⌉ := by
  have hle : getAverage e m ≤ (⌈getAverage e m⌉ : ℚ) := Int.le_ceil _
  have hmul := mul_le_mul_of_nonneg_right hle (Nat.cast_nonneg (subMetas m e).length)
  rw [getAverage_mul_length hne, mul_comm] at hmul
  exact_mod_cast hmul

theorem ceil_le_floor_succ (m : EventRecordMap) (e : String) :
    ⌈getAverage e m⌉ ≤ ⌊getAverage e m⌋ + 1 := Int.ceil_le_floor_add_one _

/-- If something is missing for that, the average is below its rounding. -/
theorem floor_lt_ceil (hne : (subMetas m e).length ≠ 0)
    (hlt : totalOf m e < (subMetas m e).length * ⌈getAverage e m⌉) :
    ⌊getAverage e m⌋ < ⌈getAverage e m⌉ := by
  rw [Int.floor_lt]
  have hpos : (0 : ℚ) < ((subMetas m e).length : ℚ) := by
    exact_mod_cast Nat.pos_of_ne_zero hne
  have hcast : (totalOf m e : ℚ) < ((subMetas m e).length : ℚ) * (⌈getAverage e m⌉ : ℚ) := by
    exact_mod_cast hlt
  rw [← getAverage_mul_length hne, mul_comm] at hcast
  exact lt_of_mul_lt_mul_left hcast hpos.le

end Average

/-! ## What the plans do -/

section Fill

variable {std : Sorting} {m : EventRecordMap} {e : String} {first : SubMeta}
  {rest below : List SubMeta} {A : ℤ}

theorem recorded_of_mem {x : SubMeta} (hx : x ∈ subMetas m e) :
    recorded m e x.serverAddr = x.subNumber := by
  rw [recorded, mem_subMetas.1 hx]
  rfl

/-- Transfers between recorded servers keep the total. -/
theorem sum_applyAll_recorded {ts : List (Transfer String)}
    (hts : ∀ t ∈ ts, OMap.cell m e t.src ≠ none ∧ OMap.cell m e t.dst ≠ none) :
    ((subMetas m e).map fun x => Transfer.applyAll ts (recorded m e) x.serverAddr).sum =
      totalOf m e := by
  set servers := (subMetas m e).map SubMeta.serverAddr
  have hsum : ∀ f : String → ℤ,
      ((subMetas m e).map fun x => f x.serverAddr).sum = ∑ a ∈ servers.toFinset, f a := by
    intro f
    rw [List.sum_toFinset f (nodup_serverAddr m e), List.map_map]
    rfl
  have hmem : ∀ a, OMap.cell m e a ≠ none → a ∈ servers.toFinset := by
    intro a ha
    obtain ⟨n, hn⟩ := Option.ne_none_iff_exists'.1 ha
    exact List.mem_toFinset.2 (List.mem_map.2 ⟨⟨a, n⟩, mem_subMetas.2 hn, rfl⟩)
  have hbefore : (subMetas m e).map (fun x => recorded m e x.serverAddr) =
      (subMetas m e).map SubMeta.subNumber :=
    List.map_congr_left fun x hx => recorded_of_mem hx
  rw [hsum, Transfer.sum_applyAll _ fun t ht => ⟨hmem _ (hts t ht).1, hmem _ (hts t ht).2⟩, ← hsum,
    hbefore, totalOf]

/-- The numbers after the servers `below` are filled up to `A` from the server `first`. -/
def filled (m : EventRecordMap) (e : String) (A : ℤ) (first : SubMeta) (below : List SubMeta) :
    String → ℤ :=
  Transfer.applyAll
    (Transfer.topUp first.serverAddr A (recorded m e) (below.map SubMeta.serverAddr))
    (recorded m e)

/-- **Executing the plans for some of the servers fills them up.** -/
theorem cell_fillPlan (hl : std.sort (subMetas m e) = first :: rest) (hbelow : below.Sublist rest)
    (a : String) :
    OMap.cell (fakeRedistributeByPlan (below.map (fillPlan e A first)) m) e a =
      (OMap.cell m e a).map fun _ => filled m e A first below a := by
  have hmem : ∀ x ∈ below, x ∈ subMetas m e := fun x hx =>
    (mem_of_sort hl).1 (List.mem_cons_of_mem _ (hbelow.subset hx))
  have htransfers : (below.map (fillPlan e A first)).map Plan.transfer =
      Transfer.topUp first.serverAddr A (recorded m e) (below.map SubMeta.serverAddr) := by
    rw [Transfer.topUp, List.map_map, List.map_map]
    apply List.map_congr_left
    intro x hx
    simp only [Function.comp_apply, fillPlan, generatePlan, Plan.transfer,
      recorded_of_mem (hmem x hx)]
  rw [cell_fakeRedistributeByPlan (fun plan hplan => ?_), htransfers]
  · rfl
  · obtain ⟨x, hx, rfl⟩ := List.mem_map.1 hplan
    have hfirst := mem_subMetas.1 ((mem_of_sort hl).1 List.mem_cons_self)
    exact ⟨rfl, by simp [fillPlan, generatePlan, hfirst],
      by simp [fillPlan, generatePlan, mem_subMetas.1 (hmem x hx)]⟩

section Filled

variable (hl : std.sort (subMetas m e) = first :: rest) (hbelow : below.Sublist rest)

include hl hbelow

theorem first_notMem : first.serverAddr ∉ below.map SubMeta.serverAddr := fun hmem =>
  (List.nodup_cons.1 (nodup_of_sort hl)).1 ((hbelow.map _).subset hmem)

theorem filled_first :
    filled m e A first below first.serverAddr =
      first.subNumber - (below.map fun x => A - x.subNumber).sum := by
  rw [filled, Transfer.applyAll_topUp_src (first_notMem hl hbelow),
    recorded_of_mem ((mem_of_sort hl).1 List.mem_cons_self), List.map_map]
  congr 2
  apply List.map_congr_left
  intro x hx
  rw [Function.comp_apply,
    recorded_of_mem ((mem_of_sort hl).1 (List.mem_cons_of_mem _ (hbelow.subset hx)))]

theorem filled_of_mem {x : SubMeta} (hx : x ∈ below) :
    filled m e A first below x.serverAddr = A := by
  have hnodup := (List.nodup_cons.1 (nodup_of_sort hl)).2
  apply Transfer.applyAll_topUp_dst (hnodup.sublist (hbelow.map _)) (List.mem_map_of_mem hx)
  intro heq
  exact first_notMem hl hbelow (heq ▸ List.mem_map_of_mem hx)

theorem filled_of_notMem {x : SubMeta} (hx : x ∈ rest) (hnot : x ∉ below) :
    filled m e A first below x.serverAddr = x.subNumber := by
  have hnodup := List.nodup_cons.1 (nodup_of_sort hl)
  rw [filled, Transfer.applyAll_topUp_other ?_ ?_,
    recorded_of_mem ((mem_of_sort hl).1 (List.mem_cons_of_mem _ hx))]
  · intro heq
    exact hnodup.1 (heq ▸ List.mem_map_of_mem (f := SubMeta.serverAddr) hx)
  · intro hmem
    obtain ⟨y, hy, heq⟩ := List.mem_map.1 hmem
    have hxy := List.inj_on_of_nodup_map hnodup.2 (hbelow.subset hy) hx heq
    exact hnot (hxy ▸ hy)

/-- Filling up keeps the total. -/
theorem filled_total :
    filled m e A first below first.serverAddr +
        (rest.map fun x => filled m e A first below x.serverAddr).sum = totalOf m e := by
  have hcell : ∀ x ∈ first :: rest, OMap.cell m e x.serverAddr = some x.subNumber := fun x hx =>
    mem_subMetas.1 ((mem_of_sort hl).1 hx)
  have hkeep : ((subMetas m e).map fun x => filled m e A first below x.serverAddr).sum =
      totalOf m e := by
    apply sum_applyAll_recorded
    intro t ht
    obtain ⟨a, ha, rfl⟩ := List.mem_map.1 ht
    obtain ⟨x, hx, rfl⟩ := List.mem_map.1 ha
    exact ⟨by simp [hcell first List.mem_cons_self],
      by simp [hcell x (List.mem_cons_of_mem _ (hbelow.subset hx))]⟩
  have hperm := (std.perm (subMetas m e)).map fun x => filled m e A first below x.serverAddr
  rw [← hkeep, ← hperm.sum_eq, hl, List.map_cons, List.sum_cons]

end Filled

theorem sum_map_eq_mul {α : Type*} {l : List α} {f : α → ℤ} (h : ∀ x ∈ l, f x = A) :
    (l.map f).sum = l.length * A := by
  rw [List.map_congr_left h, List.map_const', List.sum_replicate, nsmul_eq_mul]

end Fill

/-! ## The plans of an event on paper -/

section Paper

variable {std : Sorting} {m : EventRecordMap} {e : String} {plans : List Plan}

/-- Plans between recorded servers are transfers between their numbers, and no others have one. -/
theorem recorded_fakeRedistributeByPlan
    (hplans : ∀ plan ∈ plans, plan.moveSubscription = e ∧
      OMap.cell m e plan.srcAddr ≠ none ∧ OMap.cell m e plan.destAddr ≠ none) (a : String) :
    recorded (fakeRedistributeByPlan plans m) e a =
      Transfer.applyAll (plans.map Plan.transfer) (recorded m e) a := by
  rw [recorded, cell_fakeRedistributeByPlan hplans]
  cases hcell : OMap.cell m e a with
  | some n => rfl
  | none =>
    have hzero : ((plans.map Plan.transfer).map fun t => t.effect a).sum = 0 := by
      apply List.sum_eq_zero
      intro n hn
      rw [List.map_map] at hn
      obtain ⟨plan, hplan, rfl⟩ := List.mem_map.1 hn
      obtain ⟨-, hsrc, hdst⟩ := hplans plan hplan
      have hasrc : a ≠ plan.srcAddr := fun heq => hsrc (heq ▸ hcell)
      have hadst : a ≠ plan.destAddr := fun heq => hdst (heq ▸ hcell)
      simp [Transfer.effect, Plan.transfer, hasrc, hadst]
    rw [Transfer.applyAll, hzero, recorded, hcell]
    rfl

/-- The plans of an event are between its recorded servers. -/
theorem recorded_of_plan (hplans : (generatePlanForEvent std e m).2 = .ok plans) :
    ∀ plan ∈ plans, plan.moveSubscription = e ∧
      OMap.cell m e plan.srcAddr ≠ none ∧ OMap.cell m e plan.destAddr ≠ none := by
  intro plan hplan
  by_cases h2 : 2 ≤ (subMetas m e).length
  · obtain ⟨first, rest, hl, -, -, rfl⟩ := exists_eq_fillPlans h2 hplans
    obtain ⟨x, hx, rfl⟩ := List.mem_map.1 hplan
    have hmem : ∀ x ∈ first :: rest, OMap.cell m e x.serverAddr = some x.subNumber :=
      fun x hx => mem_subMetas.1 ((mem_of_sort hl).1 hx)
    have hx' := hmem x (List.mem_cons_of_mem _ (List.mem_of_mem_filter hx))
    exact ⟨rfl, by simp [fillPlan, generatePlan, hmem first List.mem_cons_self],
      by simp [fillPlan, generatePlan, hx']⟩
  · rw [generatePlanForEvent, if_pos (by omega)] at hplans
    obtain rfl := Except.ok.inj hplans
    cases hplan

/-- Plans between recorded servers keep the total. -/
theorem sum_recorded_fakeRedistributeByPlan
    (hplans : ∀ plan ∈ plans, plan.moveSubscription = e ∧
      OMap.cell m e plan.srcAddr ≠ none ∧ OMap.cell m e plan.destAddr ≠ none) :
    ((subMetas m e).map fun x =>
      recorded (fakeRedistributeByPlan plans m) e x.serverAddr).sum = totalOf m e := by
  simp only [recorded_fakeRedistributeByPlan hplans]
  apply sum_applyAll_recorded
  intro t ht
  obtain ⟨plan, hplan, rfl⟩ := List.mem_map.1 ht
  exact (hplans plan hplan).2

end Paper

/-! ## Balance -/

/-- Executing the plans never overdraws a server, leaves no server above the average, rounded up,
and none that was above it below the average, rounded down. -/
structure Balances (e : String) (m : EventRecordMap) (plans : List Plan) : Prop where
  nonneg : ∀ done, done <+: plans → ∀ a n,
    OMap.cell (fakeRedistributeByPlan done m) e a = some n → 0 ≤ n
  le_ceil : ∀ a n, OMap.cell (fakeRedistributeByPlan plans m) e a = some n →
    n ≤ ⌈getAverage e m⌉
  floor_le : ∀ a n n', OMap.cell m e a = some n → ⌈getAverage e m⌉ < n →
    OMap.cell (fakeRedistributeByPlan plans m) e a = some n' → ⌊getAverage e m⌋ ≤ n'

section Balance

variable {std : Sorting} {m : EventRecordMap} {e : String} {first : SubMeta} {rest : List SubMeta}

theorem getAverage_nonneg (hpos : ∀ a n, OMap.cell m e a = some n → 0 ≤ n) :
    0 ≤ getAverage e m := by
  rw [getAverage_eq]
  apply div_nonneg
  · rw [Int.cast_nonneg_iff]
    apply List.sum_nonneg
    intro n hn
    obtain ⟨x, hx, rfl⟩ := List.mem_map.1 hn
    exact hpos _ _ (mem_subMetas.1 hx)
  · exact Nat.cast_nonneg _

/-- A balanced event has no server above the average, rounded up. -/
theorem Balances.recorded_le {plans : List Plan} (h : Balances e m plans)
    (hpos : ∀ a n, OMap.cell m e a = some n → 0 ≤ n) (a : String) :
    recorded (fakeRedistributeByPlan plans m) e a ≤ ⌈getAverage e m⌉ := by
  rw [recorded]
  cases hcell : OMap.cell (fakeRedistributeByPlan plans m) e a with
  | none => exact Int.ceil_nonneg (getAverage_nonneg hpos)
  | some n => exact h.le_ceil a n hcell

/-- The servers to be filled up. -/
def belowOf (A : ℤ) (rest : List SubMeta) : List SubMeta :=
  rest.filter fun x => x.subNumber < A

theorem belowOf_sublist (A : ℤ) (rest : List SubMeta) : (belowOf A rest).Sublist rest :=
  List.filter_sublist

theorem mem_belowOf {A : ℤ} {x : SubMeta} :
    x ∈ belowOf A rest ↔ x ∈ rest ∧ x.subNumber < A := by
  simp [belowOf]

/-- If no other server is above `A`, the first one is left with the rest of the total. -/
theorem filled_first_of_le (hl : std.sort (subMetas m e) = first :: rest) {A : ℤ}
    (hle : ∀ x ∈ rest, x.subNumber ≤ A) :
    filled m e A first (belowOf A rest) first.serverAddr =
      A - ((subMetas m e).length * A - totalOf m e) := by
  have hsub := belowOf_sublist A rest
  have hrest : ∀ x ∈ rest, filled m e A first (belowOf A rest) x.serverAddr = A := by
    intro x hx
    by_cases hbelow : x.subNumber < A
    · exact filled_of_mem hl hsub (mem_belowOf.2 ⟨hx, hbelow⟩)
    · rw [filled_of_notMem hl hsub hx fun hmem => hbelow (mem_belowOf.1 hmem).2]
      have := hle x hx
      omega
  have htotal := filled_total (A := A) hl hsub
  have hlen : (subMetas m e).length = rest.length + 1 := by
    rw [← (std.perm (subMetas m e)).length_eq, hl, List.length_cons]
  rw [sum_map_eq_mul hrest] at htotal
  rw [hlen, ← htotal]
  push_cast
  ring

/-- No server is ever overdrawn if the first one is not in the end. -/
theorem filled_nonneg (hl : std.sort (subMetas m e) = first :: rest) {A : ℤ}
    (hpos : ∀ x ∈ first :: rest, 0 ≤ x.subNumber)
    (hend : 0 ≤ filled m e A first (belowOf A rest) first.serverAddr) {below : List SubMeta}
    (hbelow : below.Sublist (belowOf A rest)) {x : SubMeta} (hx : x ∈ first :: rest) :
    0 ≤ filled m e A first below x.serverAddr := by
  have hsub := hbelow.trans (belowOf_sublist A rest)
  rcases List.mem_cons.1 hx with rfl | hmem
  · rw [filled_first hl (belowOf_sublist A rest)] at hend
    rw [filled_first hl hsub]
    have hneed : ∀ n ∈ (belowOf A rest).map fun x => A - x.subNumber, 0 ≤ n := by
      intro n hn
      obtain ⟨y, hy, rfl⟩ := List.mem_map.1 hn
      have := (mem_belowOf.1 hy).2
      omega
    have hsum := (hbelow.map fun x => A - x.subNumber).sum_le_sum hneed
    omega
  · by_cases hin : x ∈ below
    · rw [filled_of_mem hl hsub hin]
      have hlt := (mem_belowOf.1 (hbelow.subset hin)).2
      have := hpos x hx
      omega
    · rw [filled_of_notMem hl hsub hmem hin]
      exact hpos x hx

/-- What is recorded after some of the plans. -/
theorem exists_of_cell_fillPlan (hl : std.sort (subMetas m e) = first :: rest) {A : ℤ}
    {below : List SubMeta} (hbelow : below.Sublist rest) {a : String} {n : ℤ}
    (hcell : OMap.cell (fakeRedistributeByPlan (below.map (fillPlan e A first)) m) e a = some n) :
    ∃ x ∈ first :: rest, n = filled m e A first below x.serverAddr := by
  rw [cell_fillPlan hl hbelow, Option.map_eq_some_iff] at hcell
  obtain ⟨n₀, hn₀, rfl⟩ := hcell
  exact ⟨⟨a, n₀⟩, (mem_of_sort hl).2 (mem_subMetas.2 hn₀), rfl⟩

theorem cell_fillPlans (hl : std.sort (subMetas m e) = first :: rest) (A : ℤ) {x : SubMeta}
    (hx : x ∈ first :: rest) :
    OMap.cell (fakeRedistributeByPlan (fillPlans e A first rest) m) e x.serverAddr =
      some (filled m e A first (belowOf A rest) x.serverAddr) :=
  (cell_fillPlan hl (belowOf_sublist A rest) x.serverAddr).trans <| by
    rw [mem_subMetas.1 ((mem_of_sort hl).1 hx), Option.map_some]

/-- Servers of the rest that are above `A` stay there. -/
theorem rest_le_of_cell_le (hl : std.sort (subMetas m e) = first :: rest) {A : ℤ}
    (hle : ∀ a n, OMap.cell (fakeRedistributeByPlan (fillPlans e A first rest) m) e a = some n →
      n ≤ A) : ∀ x ∈ rest, x.subNumber ≤ A := by
  intro x hx
  by_contra habove
  have hnot : x ∉ belowOf A rest := fun hmem => habove (mem_belowOf.1 hmem).2.le
  have hkeep := filled_of_notMem (A := A) hl (belowOf_sublist A rest) hx hnot
  have := hle _ _ (cell_fillPlans hl A (List.mem_cons_of_mem _ hx))
  omega

/-- If not even the first server is above the average, all are at it. -/
theorem filled_first_of_first_le (hl : std.sort (subMetas m e) = first :: rest) {A : ℤ}
    (hrest : rest ≠ []) (hfirst : first.subNumber ≤ A)
    (hsupply : ∀ x ∈ rest, A ≤ x.subNumber ∨ A - x.subNumber ≤ first.subNumber - A) :
    filled m e A first (belowOf A rest) first.serverAddr = A := by
  have hnone : belowOf A rest = [] := by
    apply List.filter_eq_nil_iff.2
    intro x hx
    have := hsupply x hx
    simp only [decide_eq_true_eq]
    omega
  obtain ⟨x, hx⟩ := List.exists_mem_of_ne_nil rest hrest
  have hx₁ := hsupply x hx
  have hx₂ := le_first hl (List.mem_cons_of_mem _ hx)
  rw [filled_first hl (belowOf_sublist A rest), hnone, List.map_nil, List.sum_nil]
  omega

/-- The first server is not overdrawn if it ends at most one below `A`. -/
theorem filled_first_nonneg (hl : std.sort (subMetas m e) = first :: rest) {A : ℤ}
    (hpos : ∀ x ∈ first :: rest, 0 ≤ x.subNumber)
    (hend : A - 1 ≤ filled m e A first (belowOf A rest) first.serverAddr) :
    0 ≤ filled m e A first (belowOf A rest) first.serverAddr := by
  cases hbelow : belowOf A rest with
  | nil =>
    have hfirst := filled_first (A := A) hl (belowOf_sublist A rest)
    rw [hbelow, List.map_nil, List.sum_nil] at hfirst
    have := hpos first List.mem_cons_self
    omega
  | cons x l =>
    have hx := mem_belowOf.1 (hbelow ▸ List.mem_cons_self : x ∈ belowOf A rest)
    have := hpos x (List.mem_cons_of_mem _ hx.1)
    rw [hbelow] at hend
    omega

/-- At most one server is recorded above the average, rounded up. -/
def OneAbove (m : EventRecordMap) (e : String) : Prop :=
  ∀ x ∈ subMetas m e, ∀ y ∈ subMetas m e, ⌈getAverage e m⌉ < x.subNumber →
    ⌈getAverage e m⌉ < y.subNumber → x = y

/-- A balanced result comes from one server above the average and a total almost divisible. -/
theorem oneAbove_of_balances (hl : std.sort (subMetas m e) = first :: rest) (hrest : rest ≠ [])
    (hcover : Coverable m e)
    (h : Balances e m (fillPlans e ⌈getAverage e m⌉ first rest)) :
    OneAbove m e ∧ (subMetas m e).length * ⌈getAverage e m⌉ ≤ totalOf m e + 1 := by
  have hle := rest_le_of_cell_le hl h.le_ceil
  have honly : ∀ x ∈ subMetas m e, ⌈getAverage e m⌉ < x.subNumber → x = first := by
    intro x hx habove
    rcases List.mem_cons.1 ((mem_of_sort hl).2 hx) with rfl | hx
    · rfl
    · exact absurd (hle x hx) (by omega)
  refine ⟨fun x hx y hy hxA hyA => (honly x hx hxA).trans (honly y hy hyA).symm, ?_⟩
  have hend := filled_first_of_le hl hle
  have hceil := ceil_le_floor_succ m e
  by_cases habove : ⌈getAverage e m⌉ < first.subNumber
  · have := h.floor_le _ _ _ (mem_subMetas.1 ((mem_of_sort hl).1 List.mem_cons_self)) habove
      (cell_fillPlans hl _ List.mem_cons_self)
    omega
  · have := filled_first_of_first_le hl hrest (by omega) ((coverable_iff hl hrest).1 hcover)
    omega

/-- One server above the average, and a total almost divisible, give a balanced result. -/
theorem balances_of_oneAbove (hl : std.sort (subMetas m e) = first :: rest)
    (hpos : ∀ a n, OMap.cell m e a = some n → 0 ≤ n) (hone : OneAbove m e)
    (hshort : (subMetas m e).length * ⌈getAverage e m⌉ ≤ totalOf m e + 1) :
    Balances e m (fillPlans e ⌈getAverage e m⌉ first rest) := by
  have hlen : (subMetas m e).length ≠ 0 := by
    rw [← (std.perm (subMetas m e)).length_eq, hl]
    simp
  have htotal := totalOf_le hlen
  have hfloor := floor_lt_ceil hlen
  have hfloorle := Int.floor_le_ceil (getAverage e m)
  have hsub := belowOf_sublist ⌈getAverage e m⌉ rest
  have hnonneg : ∀ x ∈ first :: rest, 0 ≤ x.subNumber := fun x hx =>
    hpos _ _ (mem_subMetas.1 ((mem_of_sort hl).1 hx))
  have hle : ∀ x ∈ rest, x.subNumber ≤ ⌈getAverage e m⌉ := by
    intro x hx
    by_contra habove
    have hfirst := le_first hl (List.mem_cons_of_mem _ hx)
    have heq := hone x ((mem_of_sort hl).1 (List.mem_cons_of_mem _ hx)) first
      ((mem_of_sort hl).1 List.mem_cons_self) (by omega) (by omega)
    exact (List.nodup_cons.1 (nodup_of_sort hl)).1 (heq ▸ List.mem_map_of_mem hx)
  have hend := filled_first_of_le hl hle
  have hfirst := filled_first_nonneg (A := ⌈getAverage e m⌉) hl hnonneg (by omega)
  refine ⟨fun done hdone a n hn => ?_, fun a n hn => ?_, fun a n n' hn habove hn' => ?_⟩
  · have htake : done = ((belowOf ⌈getAverage e m⌉ rest).take done.length).map
        (fillPlan e ⌈getAverage e m⌉ first) := by
      rw [List.map_take]
      exact List.prefix_iff_eq_take.1 hdone
    have hbelow := List.take_sublist done.length (belowOf ⌈getAverage e m⌉ rest)
    rw [htake] at hn
    obtain ⟨x, hx, rfl⟩ := exists_of_cell_fillPlan hl (hbelow.trans hsub) hn
    exact filled_nonneg hl hnonneg hfirst hbelow hx
  · obtain ⟨x, hx, rfl⟩ := exists_of_cell_fillPlan hl hsub hn
    rcases List.mem_cons.1 hx with rfl | hmem
    · omega
    · by_cases hbelow : x ∈ belowOf ⌈getAverage e m⌉ rest
      · rw [filled_of_mem hl hsub hbelow]
      · rw [filled_of_notMem hl hsub hmem hbelow]
        exact hle x hmem
  · -- only the first server is above the average
    have hmem : (⟨a, n⟩ : SubMeta) ∈ first :: rest := (mem_of_sort hl).2 (mem_subMetas.2 hn)
    have ha : a = first.serverAddr := by
      rcases List.mem_cons.1 hmem with heq | hmem
      · rw [← heq]
      · exact absurd (hle _ hmem) (by simpa using habove)
    rw [ha, cell_fillPlans hl _ List.mem_cons_self, Option.some.injEq] at hn'
    omega

theorem balances_fillPlans_iff (hl : std.sort (subMetas m e) = first :: rest) (hrest : rest ≠ [])
    (hcover : Coverable m e) (hpos : ∀ a n, OMap.cell m e a = some n → 0 ≤ n) :
    Balances e m (fillPlans e ⌈getAverage e m⌉ first rest) ↔
      OneAbove m e ∧ (subMetas m e).length * ⌈getAverage e m⌉ ≤ totalOf m e + 1 :=
  ⟨oneAbove_of_balances hl hrest hcover, fun h => balances_of_oneAbove hl hpos h.1 h.2⟩

/-- **When the plans balance an event**: at most one server is above the average, rounded up, and
what the servers hold is at most one short of that average for each of them. -/
theorem balances_iff {plans : List Plan} (hpos : ∀ a n, OMap.cell m e a = some n → 0 ≤ n)
    (h2 : 2 ≤ (subMetas m e).length) (hplans : (generatePlanForEvent std e m).2 = .ok plans) :
    Balances e m plans ↔
      OneAbove m e ∧ (subMetas m e).length * ⌈getAverage e m⌉ ≤ totalOf m e + 1 := by
  obtain ⟨first, rest, hl, hrest, hcover, rfl⟩ := exists_eq_fillPlans h2 hplans
  exact balances_fillPlans_iff hl hrest hcover hpos

end Balance

/-- Servers with four, two and no subscriptions. -/
def tripleMap : EventRecordMap :=
  OMap.insertCell (OMap.insertCell (OMap.insertCell ∅ "e" "s0" 4) "e" "s1" 2) "e" "s2" 0

theorem nonneg_tripleMap : ∀ a n, OMap.cell tripleMap "e" a = some n → 0 ≤ n := by
  intro a n hn
  simp only [tripleMap, OMap.cell_insertCell, OMap.cell_empty] at hn
  grind

theorem balances_tripleMap :
    Balances "e" tripleMap [⟨"s0", "s2", "e", 2⟩] :=
  (@balances_iff insertionSorting _ _ _ nonneg_tripleMap (by decide +kernel)
    (by decide +kernel)).2 (by unfold OneAbove; decide +kernel)

/-- Two servers with four subscriptions each, and two with none. -/
def fourMap : EventRecordMap :=
  OMap.insertCell (OMap.insertCell (OMap.insertCell (OMap.insertCell ∅ "e" "s0" 4) "e" "s1" 4)
    "e" "s2" 0) "e" "s3" 0

/-- Of two servers with four subscriptions each, one is emptied and the other one left alone. -/
theorem plans_unbalance :
    ¬ ∀ (std : Sorting) (e : String) (m : EventRecordMap) (plans : List Plan),
      (∀ a n, OMap.cell m e a = some n → 0 ≤ n) → 2 ≤ (subMetas m e).length →
      (generatePlanForEvent std e m).2 = .ok plans → Balances e m plans := by
  intro h
  have hbalances := h insertionSorting "e" fourMap
    [⟨"s0", "s2", "e", 2⟩, ⟨"s0", "s3", "e", 2⟩] (fun a n hn => by
      simp only [fourMap, OMap.cell_insertCell, OMap.cell_empty] at hn
      grind) (by decide +kernel) (by decide +kernel)
  have hleft := hbalances.le_ceil "s1" 4 (by decide +kernel)
  exact absurd hleft (by decide +kernel)

end TPST
