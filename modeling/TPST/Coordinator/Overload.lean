import TPST.Coordinator.RecordSub

/-!
# How many servers to add

When the average number of subscriptions of an event exceeds the threshold, the coordinator takes
`calculateNewServerNum` servers from the pool, at least one, and enters them in its record with no
subscriptions. The number is what is missing to `total / threshold` servers, **rounded down**, so a
remainder is left over: `relieves_iff` says for which totals the servers are enough.
-/

namespace TPST

open Std

/-- `calculateNewServerNum`, computed exactly. -/
def calculateNewServerNum (overLoadThreshold : ℤ) (avg : ℚ) (currSubNum : ℤ) : ℤ :=
  ⌊avg * currSubNum / overLoadThreshold - currSubNum⌋

/-- The average of an event exceeds the threshold. -/
def Overloaded (overLoadThreshold : ℤ) (event : String) (eventRecordMap : EventRecordMap) : Prop :=
  (overLoadThreshold : ℚ) < getAverage event eventRecordMap

instance (overLoadThreshold : ℤ) (event : String) (eventRecordMap : EventRecordMap) :
    Decidable (Overloaded overLoadThreshold event eventRecordMap) :=
  inferInstanceAs (Decidable ((_ : ℚ) < _))

/-- `serverNumber` of `checkOverload` at an overloaded event: the number so far, which is 1 at the
start, or the number calculated for the event if that is more. -/
def serverNumber (overLoadThreshold soFar : ℤ) (imbEvent : String)
    (eventRecordMap : EventRecordMap) : ℤ :=
  max soFar (calculateNewServerNum overLoadThreshold (getAverage imbEvent eventRecordMap)
    (subMetas eventRecordMap imbEvent).length)

/-- The servers from the pool are entered in the record of an event. -/
def addServers (imbEvent : String) (serverAddrList : List String)
    (eventRecordMap : EventRecordMap) : EventRecordMap :=
  serverAddrList.foldl (fun m serAddr => updateStatusMap imbEvent serAddr 0 m) eventRecordMap

section Overload

variable {T : ℤ} {m : EventRecordMap} {e : String} {servers : List String}

/-- A new server is one entry more in the row of the event. -/
theorem subMetas_updateStatusMap {a : String} (hnew : OMap.cell m e a = none) :
    (subMetas (updateStatusMap e a 0 m) e).Perm (⟨a, 0⟩ :: subMetas m e) := by
  have hrow : (OMap.rowEntries (updateStatusMap e a 0 m) e).Perm
      ((a, 0) :: OMap.rowEntries m e) := by
    refine OMap.rowEntries_perm_cons hnew fun b => ?_
    rw [cell_updateStatusMap le_rfl]
    by_cases hb : a = b
    · subst hb
      simp [hnew]
    · simp [hb]
  exact hrow.map fun entry : String × ℤ => (⟨entry.1, entry.2⟩ : SubMeta)

/-- **New servers change the number of servers**, and not the total. -/
theorem subMetas_addServers (hnodup : servers.Nodup)
    (hnew : ∀ a ∈ servers, OMap.cell m e a = none) :
    (subMetas (addServers e servers m) e).length = (subMetas m e).length + servers.length ∧
      totalOf (addServers e servers m) e = totalOf m e := by
  induction servers generalizing m with
  | nil => exact ⟨rfl, rfl⟩
  | cons a servers ih =>
    have hperm := subMetas_updateStatusMap (hnew a (by simp))
    have hothers : ∀ b ∈ servers, OMap.cell (updateStatusMap e a 0 m) e b = none := by
      intro b hb
      have hne : a ≠ b := by
        rintro rfl
        exact (List.nodup_cons.1 hnodup).1 hb
      rw [cell_updateStatusMap le_rfl, if_neg fun h => hne h.2, hnew b (by simp [hb])]
    obtain ⟨hlength, htotal⟩ := ih (List.nodup_cons.1 hnodup).2 hothers
    rw [addServers, List.foldl_cons, ← addServers]
    refine ⟨?_, htotal.trans ?_⟩
    · rw [hlength, hperm.length_eq, List.length_cons, List.length_cons]
      omega
    · rw [totalOf, (hperm.map SubMeta.subNumber).sum_eq, List.map_cons, List.sum_cons, zero_add,
        totalOf]

/-- An event is overloaded if its total is more than its servers may have. -/
theorem overloaded_iff (hne : (subMetas m e).length ≠ 0) :
    Overloaded T e m ↔ T * (subMetas m e).length < totalOf m e := by
  have hpos : (0 : ℚ) < ((subMetas m e).length : ℚ) := by
    exact_mod_cast Nat.pos_of_ne_zero hne
  rw [Overloaded, ← mul_lt_mul_iff_left₀ hpos, getAverage_mul_length hne]
  exact_mod_cast Iff.rfl

/-- An event without servers is not overloaded. -/
theorem length_ne_zero_of_overloaded (hT : 0 ≤ T) (hover : Overloaded T e m) :
    (subMetas m e).length ≠ 0 := by
  intro hzero
  have havg : getAverage e m = 0 := by rw [getAverage_eq, hzero, Nat.cast_zero, div_zero]
  rw [Overloaded, havg] at hover
  have hneg : T < 0 := by exact_mod_cast hover
  omega

/-- What is calculated: how many servers are missing to `total / threshold`, rounded down. -/
theorem calculateNewServerNum_eq (hT : 0 < T) (hne : (subMetas m e).length ≠ 0) :
    calculateNewServerNum T (getAverage e m) (subMetas m e).length =
      totalOf m e / T - (subMetas m e).length := by
  rw [calculateNewServerNum, Int.cast_natCast, getAverage_mul_length hne, Int.floor_sub_natCast]
  congr 1
  rw [Int.floor_eq_iff]
  have hcast : (0 : ℚ) < T := by exact_mod_cast hT
  constructor
  · rw [le_div_iff₀ hcast]
    exact_mod_cast Int.ediv_mul_le _ hT.ne'
  · rw [div_lt_iff₀ hcast]
    exact_mod_cast Int.lt_ediv_add_one_mul_self _ hT

/-- The servers of which there are `k` are enough for a total when it is divided by the threshold
without remainder, or when the number so far is enough. -/
theorem le_mul_max_iff {n k total : ℤ} (hT : 0 < T) :
    total ≤ T * (n + max k (total / T - n)) ↔ T ∣ total ∨ total ≤ T * (n + k) := by
  have hdiv := Int.mul_ediv_add_emod total T
  have hrem := Int.emod_nonneg total hT.ne'
  rw [Int.dvd_iff_emod_eq_zero]
  rcases le_total k (total / T - n) with hle | hle
  · rw [max_eq_right hle, show n + (total / T - n) = total / T by omega]
    have hmono : T * (n + k) ≤ T * (total / T) := mul_le_mul_of_nonneg_left (by omega) hT.le
    omega
  · rw [max_eq_left hle]
    refine ⟨.inr, fun h => h.elim (fun hzero => ?_) id⟩
    have hmono : T * (total / T) ≤ T * (n + k) := mul_le_mul_of_nonneg_left (by omega) hT.le
    omega

/-- **When the servers that are added are enough**: for every threshold and every record of an
event that is overloaded, if the total is a multiple of the threshold, or if it is less than what
one server more may have. -/
theorem relieves_iff (hT : 1 ≤ T) (hover : Overloaded T e m) (hnodup : servers.Nodup)
    (hnew : ∀ a ∈ servers, OMap.cell m e a = none)
    (hnumber : (servers.length : ℤ) = serverNumber T 1 e m) :
    ¬ Overloaded T e (addServers e servers m) ↔
      T ∣ totalOf m e ∨ totalOf m e < T * ((subMetas m e).length + 1) := by
  have hne := length_ne_zero_of_overloaded (by omega) hover
  obtain ⟨hlength, htotal⟩ := subMetas_addServers hnodup hnew
  rw [serverNumber, calculateNewServerNum_eq (by omega) hne] at hnumber
  rw [overloaded_iff (by omega), hlength, htotal, Nat.cast_add, hnumber, Int.not_lt,
    le_mul_max_iff (by omega)]
  constructor
  · rintro (hdvd | hle)
    · exact .inl hdvd
    · rcases hle.lt_or_eq with hlt | heq
      · exact .inr hlt
      · exact .inl (heq ▸ dvd_mul_right T _)
  · exact Or.imp_right LT.lt.le

end Overload

/-- One server has four subscriptions, where two are allowed. -/
theorem relieves_four :
    ¬ Overloaded 2 "e" (addServers "e" ["new"] (updateStatusMap "e" "s" 4 ∅)) := by
  refine (relieves_iff (by decide) (by decide +kernel) (by decide) ?_ (by decide +kernel)).2
    (.inl (by decide +kernel))
  intro a ha
  rw [List.mem_singleton.1 ha]
  decide +kernel

/-- With five, the server that is added is not enough. -/
theorem relieves_fails :
    ¬ ∀ (T : ℤ) (m : EventRecordMap) (e : String) (servers : List String), 1 ≤ T →
      Overloaded T e m → servers.Nodup → (∀ a ∈ servers, OMap.cell m e a = none) →
        (servers.length : ℤ) = serverNumber T 1 e m →
          ¬ Overloaded T e (addServers e servers m) := by
  intro h
  refine h 2 (updateStatusMap "e" "s" 5 ∅) "e" ["new"] (by decide) (by decide +kernel) (by decide)
    (fun a ha => ?_) (by decide +kernel) (by decide +kernel)
  rw [List.mem_singleton.1 ha]
  decide +kernel

end TPST
