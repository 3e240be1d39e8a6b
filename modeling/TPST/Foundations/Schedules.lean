import Mathlib.Data.Int.Notation
import Mathlib.Data.List.Basic
import Mathlib.Tactic.Common

/-!
# Schedules of threads

Threads that move one at a time, each by a function on the common state. A schedule says who moves
next; `run` follows it. `total charge` adds up what the steps of a run are charged, and `Along P`
says that `P` holds before each of them; `Always Good` says that every state of a run is good, and
`Alone t` that the steps of a run are all taken by `t`.

If the charge of every step makes up for what the step takes from a measure of the state, the
total makes up for what the run takes (`measure_run`). If the steps that satisfy `P` keep an
invariant, and the others leave the good states, then a run stays among the good states exactly if
`P` holds along it (`always_iff_along`).
-/

namespace TPST.Schedule

variable {ι σ : Type*} (step : ι → σ → σ)

/-- The state after the steps of a schedule. -/
def run (ts : List ι) (s : σ) : σ := ts.foldl (fun s t => step t s) s

/-- The charges for the steps of a schedule. -/
def total (charge : ι → σ → ℕ) : List ι → σ → ℕ
  | [], _ => 0
  | t :: ts, s => charge t s + total charge ts (step t s)

/-- Before each step of a schedule the state and the thread satisfy `P`. -/
def Along (P : ι → σ → Prop) : List ι → σ → Prop
  | [], _ => True
  | t :: ts, s => P t s ∧ Along P ts (step t s)

/-- Every state of a run is good, the first and the last included. -/
def Always (Good : σ → Prop) : List ι → σ → Prop
  | [], s => Good s
  | t :: ts, s => Good s ∧ Always Good ts (step t s)

/-- A thread takes some steps, and no other does. -/
def Alone (t : ι) (s s' : σ) : Prop := ∃ n, run step (List.replicate n t) s = s'

/-- Whether a condition holds along a schedule can be computed. -/
def decidableAlong {P : ι → σ → Prop} [∀ t s, Decidable (P t s)] :
    ∀ (ts : List ι) (s : σ), Decidable (Along step P ts s)
  | [], _ => .isTrue trivial
  | t :: ts, s =>
    have : Decidable (Along step P ts (step t s)) := decidableAlong ts (step t s)
    inferInstanceAs (Decidable (P t s ∧ Along step P ts (step t s)))

instance {P : ι → σ → Prop} [∀ t s, Decidable (P t s)] (ts : List ι) (s : σ) :
    Decidable (Along step P ts s) := decidableAlong step ts s

variable {step}

@[simp] theorem run_nil (s : σ) : run step [] s = s := rfl

@[simp] theorem run_cons (t : ι) (ts : List ι) (s : σ) :
    run step (t :: ts) s = run step ts (step t s) := rfl

theorem run_append (ts ts' : List ι) (s : σ) :
    run step (ts ++ ts') s = run step ts' (run step ts s) := List.foldl_append

theorem Alone.refl (t : ι) (s : σ) : Alone step t s s := ⟨0, rfl⟩

theorem Alone.head {t : ι} {s₁ s₂ s₃ : σ} (hstep : step t s₁ = s₂) (h : Alone step t s₂ s₃) :
    Alone step t s₁ s₃ := by
  subst hstep
  obtain ⟨n, hn⟩ := h
  exact ⟨n + 1, hn⟩

theorem Alone.trans {t : ι} {s₁ s₂ s₃ : σ} (h : Alone step t s₁ s₂) (h' : Alone step t s₂ s₃) :
    Alone step t s₁ s₃ := by
  obtain ⟨n, rfl⟩ := h
  obtain ⟨n', rfl⟩ := h'
  exact ⟨n + n', by rw [List.replicate_add, run_append]⟩

/-- A run is free of charge when all its steps are. -/
theorem total_eq_zero_iff {charge : ι → σ → ℕ} {ts : List ι} {s : σ} :
    total step charge ts s = 0 ↔ Along step (fun t s => charge t s = 0) ts s := by
  induction ts generalizing s with
  | nil => exact iff_of_true rfl trivial
  | cons t ts ih => rw [total, Along, Nat.add_eq_zero_iff, ih]

theorem along_forall {κ : Type*} {K : κ → Prop} {P : κ → ι → σ → Prop} {ts : List ι} {s : σ} :
    Along step (fun t s => ∀ k, K k → P k t s) ts s ↔ ∀ k, K k → Along step (P k) ts s := by
  induction ts generalizing s with
  | nil => exact iff_of_true trivial fun _ _ => trivial
  | cons t ts ih => simp only [Along, ih, forall_and]

theorem along_append {P : ι → σ → Prop} {ts ts' : List ι} {s : σ} :
    Along step P (ts ++ ts') s ↔ Along step P ts s ∧ Along step P ts' (run step ts s) := by
  induction ts generalizing s with
  | nil => exact (true_and _ ▸ Iff.rfl)
  | cons t ts ih => rw [List.cons_append, Along, Along, ih, run_cons, and_assoc]

theorem along_iff {P : ι → σ → Prop} {ts : List ι} {s : σ} :
    Along step P ts s ↔ ∀ pre t post, ts = pre ++ t :: post → P t (run step pre s) := by
  induction ts generalizing s with
  | nil => simp [Along]
  | cons t ts ih =>
    rw [Along, ih]
    constructor
    · rintro ⟨hhead, htail⟩ pre t' post heq
      cases pre with
      | nil =>
        obtain ⟨rfl, rfl⟩ := List.cons.inj heq
        exact hhead
      | cons t'' pre =>
        obtain ⟨rfl, rfl⟩ := List.cons.inj heq
        exact htail pre t' post rfl
    · intro h
      exact ⟨h [] t ts rfl, fun pre t' post heq => h (t :: pre) t' post (by rw [heq]; rfl)⟩

/-- The last state of a run is one of its states. -/
theorem Always.run {Good : σ → Prop} {ts : List ι} {s : σ} (h : Always step Good ts s) :
    Good (run step ts s) := by
  induction ts generalizing s with
  | nil => exact h
  | cons t ts ih => exact ih h.2

/-- An invariant that implies `Good` keeps every run good. -/
theorem always_of_invariant {Inv Good : σ → Prop} (hstep : ∀ t s, Inv s → Inv (step t s))
    (hgood : ∀ s, Inv s → Good s) {s : σ} (hs : Inv s) (ts : List ι) : Always step Good ts s := by
  induction ts generalizing s with
  | nil => exact hgood s hs
  | cons t ts ih => exact ⟨hgood s hs, ih (hstep t s hs)⟩

/-- What the steps that satisfy `P` keep, a run along which `P` holds keeps. -/
theorem run_induction_along {Inv : σ → Prop} {P : ι → σ → Prop}
    (hstep : ∀ t s, Inv s → P t s → Inv (step t s)) {s : σ} (hs : Inv s) {ts : List ι}
    (halong : Along step P ts s) : Inv (run step ts s) := by
  induction ts generalizing s with
  | nil => exact hs
  | cons t ts ih => exact ih (hstep t s hs halong.1) halong.2

/-- An invariant that the steps with `P` keep, and that implies `Good`, keeps a run along which `P`
holds good. -/
theorem always_of_along {Inv Good : σ → Prop} {P : ι → σ → Prop} (hgood : ∀ s, Inv s → Good s)
    (hkeep : ∀ t s, Inv s → P t s → Inv (step t s)) {s : σ} (hs : Inv s) {ts : List ι}
    (halong : Along step P ts s) : Always step Good ts s := by
  induction ts generalizing s with
  | nil => exact hgood s hs
  | cons t ts ih => exact ⟨hgood s hs, ih (hkeep t s hs halong.1) halong.2⟩

/-- When only steps with `P` lead to a good state, and only from one, `P` holds along a run that
ends in a good state. -/
theorem along_of_run {Inv Good : σ → Prop} {P : ι → σ → Prop}
    (hinv : ∀ t s, Inv s → Inv (step t s))
    (hback : ∀ t s, Inv s → Good (step t s) → Good s ∧ P t s) {s : σ} (hs : Inv s) (ts : List ι)
    (hend : Good (run step ts s)) : Good s ∧ Along step P ts s := by
  induction ts generalizing s with
  | nil => exact ⟨hend, trivial⟩
  | cons t ts ih =>
    obtain ⟨hgood, htail⟩ := ih (hinv t s hs) hend
    obtain ⟨hgood', hP⟩ := hback t s hs hgood
    exact ⟨hgood', hP, htail⟩

/-- **A run stays good exactly if no step leaves the good states.** -/
theorem always_iff_along {Inv Good : σ → Prop} {P : ι → σ → Prop} (hgood : ∀ s, Inv s → Good s)
    (hkeep : ∀ t s, Inv s → P t s → Inv (step t s))
    (hbreak : ∀ t s, Inv s → Good (step t s) → P t s) {s : σ} (hs : Inv s) (ts : List ι) :
    Always step Good ts s ↔ Along step P ts s := by
  have hhead : ∀ (ts : List ι) (s : σ), Always step Good ts s → Good s := by
    intro ts s h
    cases ts with
    | nil => exact h
    | cons t ts => exact h.1
  refine ⟨fun h => ?_, always_of_along hgood hkeep hs⟩
  induction ts generalizing s with
  | nil => trivial
  | cons t ts ih =>
    have hP : P t s := hbreak t s hs (hhead ts _ h.2)
    exact ⟨hP, ih (hkeep t s hs hP) h.2⟩

/-- **Accounting**: what a run takes from the measure is what its steps are charged. -/
theorem measure_run {Inv : σ → Prop} {measure : σ → ℤ} {charge : ι → σ → ℕ}
    (hinv : ∀ t s, Inv s → Inv (step t s))
    (hstep : ∀ t s, Inv s → measure (step t s) + charge t s = measure s) {s : σ} (hs : Inv s)
    (ts : List ι) : measure (run step ts s) + total step charge ts s = measure s := by
  induction ts generalizing s with
  | nil => simp [total]
  | cons t ts ih =>
    rw [run_cons, total, ← hstep t s hs, ← ih (hinv t s hs)]
    omega

end TPST.Schedule
