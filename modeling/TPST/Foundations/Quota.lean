import Mathlib.Algebra.Order.BigOperators.Group.Multiset
import Mathlib.Data.Multiset.Count
import Mathlib.Data.Multiset.Replicate
import Mathlib.Tactic.Ring

/-!
# Quotas

A counter for several kinds of events waits until it has seen a certain number of each. It starts
afresh once the numbers seen are **exactly** the numbers needed, and it is full only then, so a
surplus is never made good:

* `fired_pos`: without surplus, the counter fires as soon as it has seen what it needs;
* `fired_eq_zero_of_missing`: it does not fire before;
* `fired_eq_zero_of_surplus`: after a surplus it never fires again;
* `fired_of_count_le`: within the quota, it fires once everything has come, in any order;
* `fired_replicate`, `full_run_replicate`: with one kind of events, it fires at every `n`-th of
  them;
* `Consistent.exists_supplies`: what is asked for can be supplied exactly, if every number is at
  least one and no event is asked for with two numbers.

What is needed and what was seen are multisets of events; an event that is not needed may be seen
any number of times.
-/

namespace TPST.Quota

variable {α : Type*} [DecidableEq α] (need : Multiset α)

/-- Of each event that is needed, exactly the number needed was seen. -/
def Full (seen : Multiset α) : Prop := ∀ a ∈ need, seen.count a = need.count a

instance (seen : Multiset α) : Decidable (Full need seen) :=
  inferInstanceAs (Decidable (∀ a ∈ need, _))

/-- See an event, and start afresh when that fills the quota. -/
def step (seen : Multiset α) (a : α) : Multiset α :=
  if Full need (a ::ₘ seen) then 0 else a ::ₘ seen

/-- See the events of a list. -/
def run (seen : Multiset α) (l : List α) : Multiset α := l.foldl (step need) seen

/-- How often the quota is filled by the events of a list. -/
def fired : Multiset α → List α → ℕ
  | _, [] => 0
  | seen, a :: l => (if Full need (a ::ₘ seen) then 1 else 0) + fired (step need seen a) l

/-- No event of the list is seen when enough of it was seen. -/
def NoSurplus : Multiset α → List α → Prop
  | _, [] => True
  | seen, a :: l =>
    (a ∈ need → seen.count a < need.count a) ∧ NoSurplus (step need seen a) l

variable {need} {seen : Multiset α}

theorem not_full_zero (hneed : need ≠ 0) : ¬ Full need 0 := by
  obtain ⟨a, ha⟩ := Multiset.exists_mem_of_ne_zero hneed
  intro h
  have hpos := Multiset.count_pos.2 ha
  rw [← h a ha, Multiset.count_zero] at hpos
  exact lt_irrefl 0 hpos

theorem run_append (l l' : List α) : run need seen (l ++ l') = run need (run need seen l) l' :=
  List.foldl_append

theorem fired_append (l l' : List α) :
    fired need seen (l ++ l') = fired need seen l + fired need (run need seen l) l' := by
  induction l generalizing seen with
  | nil => rw [List.nil_append, fired, Nat.zero_add]; rfl
  | cons a l ih => rw [List.cons_append, fired, fired, ih, Nat.add_assoc]; rfl

/-! ## Without surplus -/

/-- Without surplus and without firing, everything is still there at the end, and no more than
needed of it. -/
theorem count_run_of_fired_eq_zero {l : List α} (hl : NoSurplus need seen l)
    (hfired : fired need seen l = 0) (hbelow : ∀ a ∈ need, seen.count a ≤ need.count a) :
    ∀ a ∈ need, (run need seen l).count a = seen.count a + l.count a ∧
      (run need seen l).count a ≤ need.count a := by
  induction l generalizing seen with
  | nil => exact fun a ha => ⟨rfl, hbelow a ha⟩
  | cons b l ih =>
    obtain ⟨hb, hl⟩ := hl
    rw [fired, Nat.add_eq_zero_iff] at hfired
    have hopen : ¬ Full need (b ::ₘ seen) := fun hfull => by simp [hfull] at hfired
    have hstep : step need seen b = b ::ₘ seen := if_neg hopen
    rw [hstep] at hl hfired
    have hbelow' : ∀ a ∈ need, (b ::ₘ seen).count a ≤ need.count a := by
      intro a ha
      rw [Multiset.count_cons]
      split
      · subst_vars
        exact hb ha
      · exact hbelow a ha
    intro a ha
    have hrest := ih hl hfired.2 hbelow' a ha
    have hrun : run need seen (b :: l) = run need (b ::ₘ seen) l := by
      rw [run, List.foldl_cons, hstep, run]
    refine ⟨?_, by rw [hrun]; exact hrest.2⟩
    rw [hrun, hrest.1, Multiset.count_cons, List.count_cons]
    by_cases hab : a = b
    · subst hab; simp; ring
    · simp [hab, Ne.symm hab]

/-- A run that has not fired is not full at its end. -/
theorem not_full_run_of_fired_eq_zero {l : List α} (hopen : ¬ Full need seen)
    (hfired : fired need seen l = 0) : ¬ Full need (run need seen l) := by
  induction l generalizing seen with
  | nil => exact hopen
  | cons b l ih =>
    rw [fired, Nat.add_eq_zero_iff] at hfired
    have hopen' : ¬ Full need (b ::ₘ seen) := fun hfull => by simp [hfull] at hfired
    have hstep : step need seen b = b ::ₘ seen := if_neg hopen'
    rw [run, List.foldl_cons, ← run, hstep]
    rw [hstep] at hfired
    exact ih hopen' hfired.2

/-- **Without surplus the quota is filled** as soon as each event was seen as often as needed. -/
theorem fired_pos {l : List α} (hneed : need ≠ 0) (hl : NoSurplus need 0 l)
    (hcount : ∀ a ∈ need, need.count a ≤ l.count a) : 0 < fired need 0 l := by
  rw [Nat.pos_iff_ne_zero]
  intro hfired
  apply not_full_run_of_fired_eq_zero (not_full_zero hneed) hfired
  intro a ha
  obtain ⟨hseen, hle⟩ :=
    count_run_of_fired_eq_zero hl hfired (fun a _ => by simp) a ha
  have := hcount a ha
  rw [Multiset.count_zero] at hseen
  omega

/-! ## While an event is missing -/

/-- **While too few of an event were seen, the quota is not filled**, and everything is kept. -/
theorem fired_eq_zero_of_missing {a : α} (ha : a ∈ need) {l : List α}
    (hmissing : seen.count a + l.count a < need.count a) :
    fired need seen l = 0 ∧ run need seen l = seen + (l : Multiset α) := by
  induction l generalizing seen with
  | nil => exact ⟨rfl, (Multiset.add_zero seen).symm⟩
  | cons b l ih =>
    have hless : (b ::ₘ seen).count a + l.count a < need.count a := by
      rw [List.count_cons] at hmissing
      rw [Multiset.count_cons]
      by_cases hab : a = b
      · subst hab
        simp only [beq_self_eq_true, ↓reduceIte] at hmissing ⊢
        omega
      · simp only [beq_iff_eq, Ne.symm hab, hab, ↓reduceIte, Nat.add_zero] at hmissing ⊢
        exact hmissing
    have hopen : ¬ Full need (b ::ₘ seen) := by
      intro hfull
      have hcount := hfull a ha
      omega
    obtain ⟨hfired, hrun⟩ := ih hless
    have hstep : step need seen b = b ::ₘ seen := if_neg hopen
    rw [fired, if_neg hopen, hstep, Nat.zero_add]
    refine ⟨hfired, ?_⟩
    calc run need seen (b :: l)
        = run need (step need seen b) l := rfl
      _ = b ::ₘ seen + (l : Multiset α) := by rw [hstep, hrun]
      _ = seen + ((b :: l : List α) : Multiset α) := by
        rw [← Multiset.cons_coe, Multiset.cons_add, Multiset.add_cons]

/-! ## After a surplus -/

/-- **After a surplus the quota is never filled again.** -/
theorem fired_eq_zero_of_surplus {a : α} (ha : a ∈ need) (hsurplus : need.count a < seen.count a)
    (l : List α) : fired need seen l = 0 := by
  induction l generalizing seen with
  | nil => rfl
  | cons b l ih =>
    have hmore : need.count a < (b ::ₘ seen).count a :=
      hsurplus.trans_le (Multiset.count_le_count_cons a b seen)
    have hopen : ¬ Full need (b ::ₘ seen) := fun hfull => (hfull a ha ▸ hmore).false
    rw [fired, step, if_neg hopen, if_neg hopen, Nat.zero_add]
    exact ih hmore

/-! ## Within the quota -/

/-- Each event is asked for at least once, and with one number only. -/
def Consistent (demands : List (α × ℤ)) : Prop :=
  ∀ d ∈ demands, 1 ≤ d.2 ∧ ∀ d' ∈ demands, d'.1 = d.1 → d'.2 = d.2

instance (demands : List (α × ℤ)) : Decidable (Consistent demands) :=
  inferInstanceAs (Decidable (∀ d ∈ demands, _))

/-- The list has each event exactly as often as it is asked for. -/
def Supplies (l : List α) (demands : List (α × ℤ)) : Prop :=
  ∀ d ∈ demands, d.1 ∈ l ∧ (l.count d.1 : ℤ) = d.2

theorem Supplies.consistent {l : List α} {demands : List (α × ℤ)} (h : Supplies l demands) :
    Consistent demands := by
  intro d hd
  obtain ⟨hmem, hcount⟩ := h d hd
  have hpos := List.count_pos_iff.2 hmem
  refine ⟨by omega, fun d' hd' heq => ?_⟩
  rw [← (h d' hd').2, heq, hcount]

/-- **Consistent demands can be supplied**, by events that are asked for. -/
theorem Consistent.exists_supplies {demands : List (α × ℤ)} (h : Consistent demands) :
    ∃ l : List α, (∀ a ∈ l, a ∈ demands.map Prod.fst) ∧ Supplies l demands := by
  induction demands with
  | nil => exact ⟨[], by simp, by simp [Supplies]⟩
  | cons d demands ih =>
    obtain ⟨l, hl, hsupplies⟩ := ih fun d' hd' =>
      ⟨(h d' (by simp [hd'])).1, fun d'' hd'' => (h d' (by simp [hd'])).2 d'' (by simp [hd''])⟩
    obtain ⟨hpos, hone⟩ := h d (by simp)
    by_cases hd : d.1 ∈ demands.map Prod.fst
    · -- the event is supplied already, with the number of the other demand
      obtain ⟨d', hd', heq⟩ := List.mem_map.1 hd
      refine ⟨l, fun a ha => List.mem_cons_of_mem _ (hl a ha),
        List.forall_mem_cons.2 ⟨?_, hsupplies⟩⟩
      rw [← heq, ← hone d' (by simp [hd']) heq]
      exact hsupplies d' hd'
    · refine ⟨List.replicate d.2.toNat d.1 ++ l, fun a ha => ?_,
        List.forall_mem_cons.2 ⟨?_, fun d' hd' => ?_⟩⟩
      · rcases List.mem_append.1 ha with ha | ha
        · rw [(List.mem_replicate.1 ha).2]
          exact List.mem_cons_self
        · exact List.mem_cons_of_mem _ (hl a ha)
      · have hnone : l.count d.1 = 0 := List.count_eq_zero_of_not_mem fun hmem => hd (hl _ hmem)
        rw [List.count_append, List.count_replicate_self, hnone]
        exact ⟨List.mem_append_left _ (List.mem_replicate.2 ⟨by omega, rfl⟩), by omega⟩
      · have hne : d.1 ≠ d'.1 := fun heq => hd (heq ▸ List.mem_map_of_mem hd')
        obtain ⟨hmem, hcount⟩ := hsupplies d' hd'
        rw [List.count_append, List.count_replicate, if_neg (by simpa using hne), Nat.zero_add]
        exact ⟨List.mem_append_right _ hmem, hcount⟩

/-! ## One kind of events -/

section Replicate

variable {n : ℕ} {a : α}

theorem full_replicate (hn : n ≠ 0) :
    Full (Multiset.replicate n a) seen ↔ seen.count a = n := by
  simp [Full, Multiset.mem_replicate, hn]

theorem count_step_replicate (hn : n ≠ 0) (hseen : seen.count a < n) (b : α) :
    (step (Multiset.replicate n a) seen b).count a =
      if b = a then (seen.count a + 1) % n else seen.count a := by
  rw [step]
  simp only [full_replicate hn, Multiset.count_cons, eq_comm (a := a)]
  by_cases hb : b = a
  · simp only [hb, ↓reduceIte]
    by_cases hlast : seen.count a + 1 = n
    · simp [hlast]
    · rw [if_neg hlast, Multiset.count_cons_self, Nat.mod_eq_of_lt (by omega)]
  · simp only [hb, ↓reduceIte, Nat.add_zero, hseen.ne]
    rw [Multiset.count_cons_of_ne (Ne.symm hb)]

/-- What was seen since the last time, of the one kind. -/
theorem count_run_replicate (hn : n ≠ 0) (l : List α) :
    (run (Multiset.replicate n a) 0 l).count a = l.count a % n := by
  induction l using List.reverseRecOn with
  | nil => simp [run]
  | append_singleton l b ih =>
    have hlt : (run (Multiset.replicate n a) 0 l).count a < n := by
      rw [ih]; exact Nat.mod_lt _ (Nat.pos_of_ne_zero hn)
    rw [run_append]
    change (step _ (run _ 0 l) b).count a = _
    rw [count_step_replicate hn hlt, ih, List.count_append, List.count_singleton]
    by_cases hb : b = a
    · simp [hb]
    · simp [hb]

/-- **The quota is filled at every `n`-th event** of the kind, and at no other. -/
theorem full_run_replicate (hn : n ≠ 0) (l : List α) (b : α) :
    Full (Multiset.replicate n a) (b ::ₘ run (Multiset.replicate n a) 0 l) ↔
      b = a ∧ n ∣ l.count a + 1 := by
  have hlt : l.count a % n < n := Nat.mod_lt _ (Nat.pos_of_ne_zero hn)
  rw [full_replicate hn, Multiset.count_cons, count_run_replicate hn]
  by_cases hb : b = a
  · simp only [hb, ↓reduceIte, true_and]
    rw [Nat.dvd_iff_mod_eq_zero, Nat.add_mod]
    constructor
    · intro h
      rcases Nat.lt_or_ge 1 n with h1 | h1
      · rw [Nat.mod_eq_of_lt h1, h, Nat.mod_self]
      · obtain rfl : n = 1 := by omega
        exact Nat.mod_one _
    · intro h
      rcases Nat.lt_or_ge 1 n with h1 | h1
      · rw [Nat.mod_eq_of_lt h1] at h
        have := Nat.le_of_dvd (by omega) (Nat.dvd_of_mod_eq_zero h)
        omega
      · obtain rfl : n = 1 := by omega
        rw [Nat.mod_one]
  · simp [hb, Ne.symm hb, hlt.ne]

/-- **The number of times the quota is filled.** -/
theorem fired_replicate (hn : n ≠ 0) (l : List α) :
    fired (Multiset.replicate n a) 0 l = l.count a / n := by
  induction l using List.reverseRecOn with
  | nil => simp [fired]
  | append_singleton l b ih =>
    have hlast : fired (Multiset.replicate n a) (run (Multiset.replicate n a) 0 l) [b] =
        if b = a ∧ n ∣ l.count a + 1 then 1 else 0 := by
      rw [fired, fired, Nat.add_zero]
      simp only [full_run_replicate hn]
    rw [fired_append, ih, hlast, List.count_append, List.count_singleton]
    by_cases hb : b = a
    · simp only [hb, true_and, beq_self_eq_true, ↓reduceIte]
      rw [Nat.succ_div]
    · simp [hb]

end Replicate

end TPST.Quota
