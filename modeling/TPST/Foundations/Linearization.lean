import Mathlib.Data.List.Nodup
import TPST.Foundations.Schedules

/-!
# Calls that take effect one after the other

The threads of a system are calls of operations, and each of them takes effect at one of its steps.
`order` lists the calls along a schedule by these steps. If every step keeps a relation to an
abstract state, on which the step at which a call takes effect does the whole operation and all
others do nothing, then the run does what the calls do one after the other in this order
(`related_run`). When a call takes effect at the step that ends it, it occurs in the order once, and
in that of a beginning of the schedule if it is over there (`Ends.nodup_order`,
`Ends.mem_order_iff`).
-/

namespace TPST.Schedule

variable {ι σ α : Type*} (step : ι → σ → σ) (effective : ι → σ → Bool)

/-- The calls in the order in which they take effect. -/
def order : List ι → σ → List ι
  | [], _ => []
  | t :: ts, s => if effective t s then t :: order ts (step t s) else order ts (step t s)

variable {step effective}

theorem order_append (ts ts' : List ι) (s : σ) :
    order step effective (ts ++ ts') s =
      order step effective ts s ++ order step effective ts' (run step ts s) := by
  induction ts generalizing s with
  | nil => rfl
  | cons t ts ih =>
    rw [List.cons_append, order, order, ih, run_cons]
    split <;> rfl

/-- **The calls take effect one after the other.** -/
theorem related_run {exec : ι → α → α} {R : σ → α → Prop}
    (hstep : ∀ t s a, R s a → R (step t s) (if effective t s then exec t a else a)) {s : σ} {a : α}
    (h : R s a) (ts : List ι) :
    R (run step ts s) ((order step effective ts s).foldl (fun a t => exec t a) a) := by
  induction ts generalizing s a with
  | nil => exact h
  | cons t ts ih =>
    have hnext := hstep t s a h
    rw [run_cons, order]
    split
    · rename_i heffective
      rw [if_pos heffective] at hnext
      exact ih hnext
    · rename_i hsilent
      rw [if_neg hsilent] at hnext
      exact ih hnext

/-- A thread is over for good, and gets there by the step at which it takes effect. -/
structure Ends (step : ι → σ → σ) (effective : ι → σ → Bool) (Over : ι → σ → Prop) : Prop where
  effective_iff : ∀ t s, effective t s = true ↔ ¬ Over t s ∧ Over t (step t s)
  stays : ∀ t s, Over t s → Over t (step t s)
  others : ∀ {t t'} s, t' ≠ t → (Over t (step t' s) ↔ Over t s)

section Over

variable {Over : ι → σ → Prop} {t : ι} {s : σ}

theorem Ends.over_step (h : Ends step effective Over) (hover : Over t s) (t' : ι) :
    Over t (step t' s) := by
  by_cases ht : t' = t
  · subst ht
    exact h.stays t' s hover
  · exact (h.others s ht).2 hover

theorem Ends.over_run (h : Ends step effective Over) (hover : Over t s) (ts : List ι) :
    Over t (run step ts s) := by
  induction ts generalizing s with
  | nil => exact hover
  | cons t' ts ih => exact ih (h.over_step hover t')

theorem Ends.not_mem_order (h : Ends step effective Over) (hover : Over t s) (ts : List ι) :
    t ∉ order step effective ts s := by
  induction ts generalizing s with
  | nil => exact List.not_mem_nil
  | cons t' ts ih =>
    have hrest := ih (h.over_step hover t')
    rw [order]
    split
    · rename_i heffective
      intro hmem
      rcases List.mem_cons.1 hmem with rfl | hmem
      · exact ((h.effective_iff t s).1 heffective).1 hover
      · exact hrest hmem
    · exact hrest

/-- The calls that have taken effect are those that are over, and were not at the beginning. -/
theorem Ends.mem_order_iff (h : Ends step effective Over) (hbegin : ¬ Over t s) (ts : List ι) :
    t ∈ order step effective ts s ↔ Over t (run step ts s) := by
  induction ts generalizing s with
  | nil => exact iff_of_false List.not_mem_nil hbegin
  | cons t' ts ih =>
    rw [order, run_cons]
    by_cases ht : t' = t
    · subst ht
      by_cases hover : Over t' (step t' s)
      · rw [if_pos ((h.effective_iff t' s).2 ⟨hbegin, hover⟩)]
        exact iff_of_true List.mem_cons_self (h.over_run hover ts)
      · rw [if_neg fun heffective => hover ((h.effective_iff t' s).1 heffective).2]
        exact ih hover
    · have hnext : ¬ Over t (step t' s) := fun hover => hbegin ((h.others s ht).1 hover)
      rw [← ih hnext]
      split
      · exact List.mem_cons.trans (or_iff_right fun heq => ht heq.symm)
      · exact Iff.rfl

/-- A call takes effect once. -/
theorem Ends.nodup_order (h : Ends step effective Over) (ts : List ι) (s : σ) :
    (order step effective ts s).Nodup := by
  induction ts generalizing s with
  | nil => exact List.nodup_nil
  | cons t ts ih =>
    rw [order]
    split
    · rename_i heffective
      have hover := ((h.effective_iff t s).1 heffective).2
      exact List.nodup_cons.2 ⟨h.not_mem_order hover ts, ih _⟩
    · exact ih _

end Over

end TPST.Schedule
