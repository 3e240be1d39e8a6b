import Mathlib.Algebra.BigOperators.Group.Finset.Piecewise
import Mathlib.Tactic.Ring

/-!
# Transfers between accounts

A balance sheet `b : α → ℤ` and transfers between its accounts. Transfers keep the total
(`sum_applyAll`). The transfers `topUp src level b ds` fill the accounts `ds` up to a level at the
expense of one other account: afterwards each of `ds` is at the level (`applyAll_topUp_dst`), the
one that pays has what it had less the needs (`applyAll_topUp_src`), and all others are as they
were (`applyAll_topUp_other`).
-/

namespace TPST

/-- Move an amount from one account to another. -/
structure Transfer (α : Type*) where
  src : α
  dst : α
  amount : ℤ

namespace Transfer

variable {α : Type*} [DecidableEq α]

/-- What a transfer adds to an account. -/
def effect (t : Transfer α) (a : α) : ℤ :=
  (if a = t.dst then t.amount else 0) - if a = t.src then t.amount else 0

theorem effect_of_ne_src {t : Transfer α} {a : α} (h : a ≠ t.src) :
    t.effect a = if a = t.dst then t.amount else 0 := by
  rw [effect, if_neg h, sub_zero]

/-- The balances after a list of transfers. -/
def applyAll (ts : List (Transfer α)) (b : α → ℤ) : α → ℤ :=
  fun a => b a + (ts.map fun t => t.effect a).sum

theorem applyAll_cons (t : Transfer α) (ts : List (Transfer α)) (b : α → ℤ) :
    applyAll (t :: ts) b = applyAll ts fun a => b a + t.effect a := by
  funext a
  rw [applyAll, applyAll, List.map_cons, List.sum_cons, add_assoc]

theorem sum_effect {s : Finset α} {t : Transfer α} (hsrc : t.src ∈ s) (hdst : t.dst ∈ s) :
    ∑ a ∈ s, t.effect a = 0 := by
  simp only [effect, Finset.sum_sub_distrib, Finset.sum_ite_eq', hsrc, hdst, ↓reduceIte, sub_self]

/-- **Transfers keep the total.** -/
theorem sum_applyAll {s : Finset α} {ts : List (Transfer α)} (b : α → ℤ)
    (hts : ∀ t ∈ ts, t.src ∈ s ∧ t.dst ∈ s) :
    ∑ a ∈ s, applyAll ts b a = ∑ a ∈ s, b a := by
  induction ts generalizing b with
  | nil => simp [applyAll]
  | cons t ts ih =>
    obtain ⟨hsrc, hdst⟩ := hts t (by simp)
    rw [applyAll_cons, ih _ fun t' ht' => hts t' (by simp [ht']), Finset.sum_add_distrib,
      sum_effect hsrc hdst, add_zero]

/-! ## Filling up -/

section TopUp

variable {src : α} {level : ℤ} {b : α → ℤ} {ds : List α}

/-- Fill the accounts `ds` up to `level` from the account `src`. -/
def topUp (src : α) (level : ℤ) (b : α → ℤ) (ds : List α) : List (Transfer α) :=
  ds.map fun d => ⟨src, d, level - b d⟩

theorem applyAll_topUp_src (hsrc : src ∉ ds) :
    applyAll (topUp src level b ds) b src = b src - (ds.map fun d => level - b d).sum := by
  have hsum : ((topUp src level b ds).map fun t => t.effect src).sum =
      -(ds.map fun d => level - b d).sum := by
    induction ds with
    | nil => rfl
    | cons d ds ih =>
      rw [List.mem_cons, not_or] at hsrc
      rw [topUp, List.map_cons, List.map_cons, List.sum_cons, ← topUp, ih hsrc.2, List.map_cons,
        List.sum_cons, effect, if_neg hsrc.1, if_pos rfl]
      ring
  rw [applyAll, hsum, sub_eq_add_neg]

theorem sum_effect_topUp_of_ne {a : α} (ha : a ≠ src) (hds : a ∉ ds) :
    ((topUp src level b ds).map fun t => t.effect a).sum = 0 := by
  induction ds with
  | nil => rfl
  | cons d ds ih =>
    rw [List.mem_cons, not_or] at hds
    rw [topUp, List.map_cons, List.map_cons, List.sum_cons, ← topUp, ih hds.2, effect,
      if_neg hds.1, if_neg ha]
    rfl

theorem applyAll_topUp_other {a : α} (ha : a ≠ src) (hds : a ∉ ds) :
    applyAll (topUp src level b ds) b a = b a := by
  rw [applyAll, sum_effect_topUp_of_ne ha hds, add_zero]

theorem applyAll_topUp_dst (hnodup : ds.Nodup) {d : α} (hd : d ∈ ds) (hne : d ≠ src) :
    applyAll (topUp src level b ds) b d = level := by
  have hsum : ((topUp src level b ds).map fun t => t.effect d).sum = level - b d := by
    induction ds with
    | nil => simp at hd
    | cons d' ds ih =>
      rw [List.nodup_cons] at hnodup
      rw [topUp, List.map_cons, List.map_cons, List.sum_cons, ← topUp, effect, if_neg hne,
        sub_zero]
      rcases List.mem_cons.1 hd with rfl | hmem
      · rw [if_pos rfl, sum_effect_topUp_of_ne hne hnodup.1, add_zero]
      · have hdd' : d ≠ d' := fun heq => hnodup.1 (heq ▸ hmem)
        rw [if_neg hdd', ih hnodup.2 hmem, zero_add]
  rw [applyAll, hsum]
  ring

end TopUp

end Transfer

end TPST
