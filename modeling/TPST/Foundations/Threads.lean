import Mathlib.Algebra.BigOperators.Group.List.Basic
import Mathlib.Data.Nat.Pairing
import Mathlib.Tactic.Abel
import TPST.Foundations.Schedules

/-!
# Threads

An endless schedule goes through the `states` of its beginnings. If every step that changes the
state lowers a measure, the state stands still from some moment on (`eventually_still`); steps that
raise the measure may come in between, as long as they come to an end. When the schedule is `Fair`
the state it stands still at is `AtRest`: every thread has been tried there (`eventually_atRest`).

A measure of the threads of a list is the sum of what each of them counts, and `sum_map_set` says
how it changes when one of them moves.

A mutex is the thread that has it, if any. It is `Owned` when this is the thread that stands between
its lock and its unlock; there is one such thread at most, and what a step can do with a mutex, a
`Handover`, keeps this.
-/

namespace TPST.Schedule

variable {ι σ τ : Type*} (step : ι → σ → σ)

/-- The states that an endless schedule goes through. -/
def states (f : ℕ → ι) (s : σ) : ℕ → σ
  | 0 => s
  | n + 1 => step (f n) (states f s n)

/-- Every thread that is there moves again. -/
def Fair (live : τ → σ → Prop) (moves : τ → ι → Prop) (f : ℕ → ι) (s : σ) : Prop :=
  ∀ t n, live t (states step f s n) → ∃ m, n ≤ m ∧ moves t (f m)

/-- No thread that is there gets anywhere. -/
def AtRest (live : τ → σ → Prop) (moves : τ → ι → Prop) (s : σ) : Prop :=
  ∀ t, live t s → ∃ e, moves t e ∧ step e s = s

/-- A schedule in which each of the given steps is taken again and again. -/
def rounds (g : ℕ → ι) (n : ℕ) : ι := g n.unpair.1

theorem rounds_recurs (g : ℕ → ι) (k n : ℕ) : ∃ m, n ≤ m ∧ rounds g m = g k :=
  ⟨k.pair n, Nat.right_le_pair k n, by rw [rounds, Nat.unpair_pair]⟩

variable {step} {f : ℕ → ι} {s : σ} {Inv : σ → Prop} {Own : ι → Prop} {measure : σ → ℕ}

theorem states_eq_run (f : ℕ → ι) (s : σ) (n : ℕ) :
    states step f s n = run step ((List.range n).map f) s := by
  induction n with
  | zero => rfl
  | succ n ih =>
    rw [states, ih, List.range_succ, List.map_append, run_append]
    rfl

/-- An invariant holds of all the states. -/
theorem states_induction (hinv : ∀ e s, Inv s → Inv (step e s)) (hs : Inv s) (n : ℕ) :
    Inv (states step f s n) := by
  induction n with
  | zero => exact hs
  | succ n ih => exact hinv (f n) _ ih

/-- From a moment on at which only steps that lower the measure are left, the state is the one of
that moment or has a lower measure. -/
theorem states_eq_or_lt (hinv : ∀ e s, Inv s → Inv (step e s))
    (hlower : ∀ e s, Inv s → Own e → step e s = s ∨ measure (step e s) < measure s) (hs : Inv s)
    {N : ℕ} (hown : ∀ n, N ≤ n → Own (f n)) {n : ℕ} (hn : N ≤ n) :
    states step f s n = states step f s N ∨
      measure (states step f s n) < measure (states step f s N) := by
  induction n, hn using Nat.le_induction with
  | base => exact .inl rfl
  | succ n hn ih =>
    have hstep := hlower (f n) _ (states_induction (f := f) hinv hs n) (hown n hn)
    change step (f n) (states step f s n) = _ ∨ measure (step (f n) (states step f s n)) < _
    rcases hstep with hsame | hless
    · rw [hsame]
      exact ih
    · rcases ih with heq | hlt
      · rw [heq] at hless ⊢
        exact .inr hless
      · exact .inr (by omega)

/-- **Steps that lower a measure come to an end.** -/
theorem eventually_still (hinv : ∀ e s, Inv s → Inv (step e s))
    (hlower : ∀ e s, Inv s → Own e → step e s = s ∨ measure (step e s) < measure s) (hs : Inv s)
    (hown : ∃ N, ∀ n, N ≤ n → Own (f n)) :
    ∃ N, ∀ n, N ≤ n → states step f s n = states step f s N := by
  obtain ⟨N, hN⟩ := hown
  generalize hm : measure (states step f s N) = m
  induction m using Nat.strongRecOn generalizing N with
  | ind m ih =>
    subst hm
    by_cases hstill : ∀ n, N ≤ n → states step f s n = states step f s N
    · exact ⟨N, hstill⟩
    · push Not at hstill
      obtain ⟨n, hn, hne⟩ := hstill
      have hlt := (states_eq_or_lt hinv hlower hs hN hn).resolve_left hne
      exact ih _ hlt n (fun k hk => hN k (Nat.le_trans hn hk)) rfl

/-- **A fair schedule ends at rest.** -/
theorem eventually_atRest {live : τ → σ → Prop} {moves : τ → ι → Prop}
    (hinv : ∀ e s, Inv s → Inv (step e s))
    (hlower : ∀ e s, Inv s → Own e → step e s = s ∨ measure (step e s) < measure s) (hs : Inv s)
    (hown : ∃ N, ∀ n, N ≤ n → Own (f n)) (hfair : Fair step live moves f s) :
    ∃ N, AtRest step live moves (states step f s N) ∧
      ∀ n, N ≤ n → states step f s n = states step f s N := by
  obtain ⟨N, hN⟩ := eventually_still hinv hlower hs hown
  refine ⟨N, fun t hlive => ?_, hN⟩
  obtain ⟨n, hn, hmoves⟩ := hfair t N hlive
  refine ⟨f n, hmoves, ?_⟩
  have hnext : step (f n) (states step f s n) = states step f s N := hN (n + 1) (by omega)
  rwa [hN n hn] at hnext

/-! ## Sums over a list of threads -/

section Sums

variable {α M : Type*} [AddCommMonoid M] (count : α → M)

/-- When one thread moves, a sum changes by what this thread counts. -/
theorem sum_map_set {l : List α} {i : ℕ} {a : α} (b : α) (hi : l[i]? = some a) :
    ((l.set i b).map count).sum + count a = (l.map count).sum + count b := by
  induction l generalizing i with
  | nil => cases hi
  | cons c l ih =>
    cases i with
    | zero =>
      obtain rfl := Option.some.inj hi
      simp only [List.set_cons_zero, List.map_cons, List.sum_cons]
      rw [add_right_comm, add_comm (count b), add_right_comm, add_comm (count c)]
    | succ i =>
      simp only [List.set_cons_succ, List.map_cons, List.sum_cons, add_assoc]
      rw [ih hi]

/-- When one thread moves, an account of what the threads have and what is left of it balances if
the thread's own does. -/
theorem sum_map_set_add {N : Type*} [AddCancelCommMonoid N] {count : α → N} {l : List α} {i : ℕ}
    {a b : α} {x x' y y' : N} (hi : l[i]? = some a) (hsum : (l.map count).sum + y = x)
    (hb : count b + y' + x = count a + y + x') : ((l.set i b).map count).sum + y' = x' := by
  have hset := sum_map_set count b hi
  refine add_right_cancel (b := count a + y + x) ?_
  calc ((l.set i b).map count).sum + y' + (count a + y + x)
      = (((l.set i b).map count).sum + count a) + y + (y' + x) := by abel
    _ = ((l.map count).sum + y) + (count b + y' + x) := by rw [hset]; abel
    _ = x + (count a + y + x') := by rw [hsum, hb]
    _ = x' + (count a + y + x) := by abel

/-- What a thread keeps when it moves, the list keeps. -/
theorem map_set_of_eq {β : Type*} (g : α → β) {l : List α} {i : ℕ} {a b : α}
    (hi : l[i]? = some a) (hb : g b = g a) : (l.set i b).map g = l.map g := by
  obtain ⟨hlt, rfl⟩ := List.getElem?_eq_some_iff.1 hi
  rw [List.map_set, hb, ← List.getElem_map g (h := by simpa using hlt), List.set_getElem_self]

end Sums

section Mem

variable {α : Type*} {P : α → Prop} {l : List α} {i : ℕ} {a b : α}

theorem forall_mem_set (h : ∀ x ∈ l, P x) (hb : P b) : ∀ x ∈ l.set i b, P x := by
  intro x hx
  rcases List.mem_or_eq_of_mem_set hx with hx | rfl
  · exact h x hx
  · exact hb

theorem set_of_getElem? (hi : l[i]? = some a) : l.set i a = l := by
  obtain ⟨_, rfl⟩ := List.getElem?_eq_some_iff.1 hi
  exact List.set_getElem_self _

/-- The threads that do not move are still there. -/
theorem eq_or_mem_set (hi : l[i]? = some a) {x : α} (hx : x ∈ l) (b : α) :
    x = a ∨ x ∈ l.set i b := by
  obtain ⟨k, hk⟩ := List.mem_iff_getElem?.1 hx
  by_cases hki : i = k
  · subst hki
    exact .inl (Option.some.inj (hk.symm.trans hi))
  · exact .inr (List.mem_iff_getElem?.2 ⟨k, by rw [List.getElem?_set_ne hki, hk]⟩)

theorem exists_mem_set (hi : l[i]? = some a) (hab : P a → P b) (h : ∃ x ∈ l, P x) :
    ∃ x ∈ l.set i b, P x := by
  obtain ⟨x, hx, hP⟩ := h
  rcases eq_or_mem_set hi hx b with rfl | hmem
  · exact ⟨b, List.mem_set (List.getElem?_eq_some_iff.1 hi).1 b, hab hP⟩
  · exact ⟨x, hmem, hP⟩

end Mem

/-! ## A mutex -/

/-- The mutex is held by the one thread that stands where it is held. -/
def Owned (holds : τ → Prop) (mutex : Option τ) : Prop := ∀ t, holds t ↔ mutex = some t

section Owned

variable {holds holds' : τ → Prop} {mutex : Option τ} {t t' : τ}

theorem Owned.eq (h : Owned holds mutex) (ht : holds t) (ht' : holds t') : t = t' :=
  Option.some.inj (((h t).1 ht).symm.trans ((h t').1 ht'))

/-- What a step of `t` does with the mutex, by whether `t` holds it before and after. -/
inductive Handover (t : τ) (before after : Prop) : Option τ → Option τ → Prop
  | keep {mutex : Option τ} (h : after ↔ before) : Handover t before after mutex mutex
  | acquire (h : after) : Handover t before after none (some t)
  | release {mutex : Option τ} (h : before) (h' : ¬ after) : Handover t before after mutex none

/-- A thread takes the free mutex, gives its mutex back, or goes on with it or without it. -/
theorem Owned.move {mutex' : Option τ} (h : Owned holds mutex)
    (hstep : Handover t (holds t) (holds' t) mutex mutex')
    (hothers : ∀ t', t' ≠ t → (holds' t' ↔ holds t')) : Owned holds' mutex' := by
  intro t'
  by_cases ht : t' = t
  · subst ht
    cases hstep with
    | keep hself => rw [hself, h t']
    | acquire hself => exact iff_of_true hself rfl
    | release _ hself => exact iff_of_false hself nofun
  · rw [hothers t' ht]
    cases hstep with
    | keep _ => exact h t'
    | acquire _ =>
      rw [h t']
      exact iff_of_false nofun fun heq => ht (Option.some.inj heq).symm
    | release hbefore _ => exact iff_of_false (fun ht' => ht (h.eq ht' hbefore)) nofun

end Owned

/-! ## Polling a queue

A thread that polls a queue may read its size as a number of 32 bits with a sign. -/

/-- The size that is read is at most the size. -/
theorem toNat_bmod_le (n : ℕ) : ((n : Int).bmod (2 ^ 32)).toNat ≤ n := by
  have hle : (n : Int).bmod (2 ^ 32) ≤ n := by
    rw [Int.bmod_def]
    split <;> omega
  omega

/-- A queue of fewer than `2 ^ 31` elements that seems to be empty is. -/
theorem eq_nil_of_bmod_le {α : Type*} {l : List α} (h : (l.length : Int).bmod (2 ^ 32) ≤ 0)
    (hlt : l.length < 2 ^ 31) : l = [] := by
  rw [Int.bmod_eq_of_le (by omega) (by omega)] at h
  exact List.eq_nil_of_length_eq_zero (by omega)

end TPST.Schedule
