import Mathlib.Data.List.Basic

/-!
# What an observer sees of a run

A system answers each input with a list of outputs. An observer sees the outputs that satisfy a
predicate, and of the inputs those that `visible` turns into an input of its own. If its part of
the system is a system of its own, which the other inputs leave alone and do not make speak
(`View`), then what it sees of a run is the run of that system on the visible inputs
(`View.outputs_eq`). So two runs with the same visible inputs look alike to it, from whatever
states and with whatever inputs in between (`View.outputs_congr`).
-/

namespace TPST

variable {σ ι ω ν κ : Type*}

/-- Answer the inputs of a list, one after the other. -/
def answers (step : σ → ι → σ × List ω) (s : σ) : List ι → σ × List ω
  | [] => (s, [])
  | i :: is =>
    let answered := step s i
    let others := answers step answered.1 is
    (others.1, answered.2 ++ others.2)

/-- The observer sees the system `step` as the system `vstep`, where `R s v` relates a state to
what the observer has of it. -/
structure View (step : σ → ι → σ × List ω) (vstep : ν → κ → ν × List ω) (admits : ι → Prop)
    (visible : ι → Option κ) (sees : ω → Bool) (R : σ → ν → Prop) : Prop where
  hidden : ∀ {s v i}, R s v → admits i → visible i = none →
    R (step s i).1 v ∧ (step s i).2.filter sees = []
  shown : ∀ {s v i k}, R s v → admits i → visible i = some k →
    R (step s i).1 (vstep v k).1 ∧ (step s i).2.filter sees = (vstep v k).2

namespace View

variable {step : σ → ι → σ × List ω} {vstep : ν → κ → ν × List ω} {admits : ι → Prop}
  {visible : ι → Option κ} {sees : ω → Bool} {R : σ → ν → Prop}

/-- **What is seen of a run** is the observer's run on the visible inputs. -/
theorem outputs_eq (h : View step vstep admits visible sees R) {s : σ} {v : ν} (hR : R s v)
    {is : List ι} (his : ∀ i ∈ is, admits i) :
    R (answers step s is).1 (answers vstep v (is.filterMap visible)).1 ∧
      (answers step s is).2.filter sees = (answers vstep v (is.filterMap visible)).2 := by
  induction is generalizing s v with
  | nil => exact ⟨hR, rfl⟩
  | cons i is ih =>
    have hi := his i (by simp)
    have hrest : ∀ j ∈ is, admits j := fun j hj => his j (by simp [hj])
    rw [answers, List.filter_append]
    cases hv : visible i with
    | none =>
      obtain ⟨hnext, hsilent⟩ := h.hidden hR hi hv
      rw [List.filterMap_cons_none hv, hsilent, List.nil_append]
      exact ih hnext hrest
    | some k =>
      obtain ⟨hnext, hout⟩ := h.shown hR hi hv
      obtain ⟨hend, houts⟩ := ih hnext hrest
      rw [List.filterMap_cons_some hv, answers, hout, houts]
      exact ⟨hend, rfl⟩

/-- **Two runs with the same visible inputs look alike**, if they start alike. -/
theorem outputs_congr (h : View step vstep admits visible sees R) {s₁ s₂ : σ} {v : ν}
    (h₁ : R s₁ v) (h₂ : R s₂ v) {is₁ is₂ : List ι} (his₁ : ∀ i ∈ is₁, admits i)
    (his₂ : ∀ i ∈ is₂, admits i) (hsame : is₁.filterMap visible = is₂.filterMap visible) :
    (answers step s₁ is₁).2.filter sees = (answers step s₂ is₂).2.filter sees := by
  rw [(h.outputs_eq h₁ his₁).2, (h.outputs_eq h₂ his₂).2, hsame]

end View

end TPST
