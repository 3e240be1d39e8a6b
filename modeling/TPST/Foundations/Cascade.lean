import Mathlib.Data.Multiset.Bind
import Mathlib.Logic.Relation
import Mathlib.Order.WellFounded

/-!
# Message cascades

Delivering a message makes its receiver send further messages. When what is sent depends on the
message only, and every message sent has a smaller rank than the one that caused it, then one
message causes a finite multiset `total m` of deliveries. Along every run, what has been delivered
together with what the messages in flight still cause never grows (`Step.conserve_le`), and stays
the same when nothing is lost (`ReliableStep.conserve`).

* `Run.sent_le`: whatever has been sent is part of the total of the start.
* `ReliableRun.delivered_eq`: without losses, the total has been delivered once nothing is in
  flight, in whatever order the network delivers.
* `Simulates.not_infinite`: there is no infinite run.
* `Simulates.exists_complete`: every run can be continued until nothing is in flight.

A system with more state than its messages is a cascade through a projection (`Simulates`).
-/

namespace TPST

/-- How receivers react to messages: what is sent in reaction has a smaller rank. -/
structure Cascade (μ : Type*) where
  react : μ → Multiset μ
  rank : μ → ℕ
  rank_lt : ∀ {m m' : μ}, m' ∈ react m → rank m' < rank m

namespace Cascade

variable {μ : Type*} (C : Cascade μ)

/-- Everything that is delivered because of `m`, `m` included. -/
def total (m : μ) : Multiset μ := m ::ₘ (C.react m).attach.bind fun m' => total m'.1
termination_by C.rank m
decreasing_by exact C.rank_lt m'.2

theorem total_eq (m : μ) : C.total m = m ::ₘ (C.react m).bind C.total := by
  rw [total]
  congr 1
  conv_rhs => rw [← Multiset.attach_map_val (C.react m), Multiset.bind_map]

/-- What holds of a message when it holds of those sent in reaction holds of all. -/
theorem induction {P : μ → Prop} (h : ∀ m, (∀ m' ∈ C.react m, P m') → P m) (m : μ) : P m := by
  induction hn : C.rank m using Nat.strong_induction_on generalizing m with
  | h n ih => exact h m fun m' hm' => ih _ (hn ▸ C.rank_lt hm') m' rfl

/-- What a reaction keeps of a message holds of all that is delivered because of it. -/
theorem of_mem_total {P : μ → Prop} (hP : ∀ m, P m → ∀ m' ∈ C.react m, P m') {m m' : μ}
    (h : P m) (hm' : m' ∈ C.total m) : P m' := by
  induction hn : C.rank m using Nat.strong_induction_on generalizing m with
  | h n ih =>
    rw [C.total_eq, Multiset.mem_cons, Multiset.mem_bind] at hm'
    rcases hm' with rfl | ⟨m₁, hm₁, hm'⟩
    · exact h
    · exact ih _ (hn ▸ C.rank_lt hm₁) (hP m h m₁ hm₁) hm' rfl

/-- What the network holds, and what it has delivered. -/
structure Cfg (μ : Type*) where
  inFlight : Multiset μ
  delivered : Multiset μ

/-- The network delivers one of the messages in flight. Of what is sent in reaction, some may be
lost. -/
inductive Step : Cfg μ → Cfg μ → Prop
  | deliver (m : μ) (rest delivered : Multiset μ) {sent : Multiset μ} (hsent : sent ≤ C.react m) :
      Step ⟨m ::ₘ rest, delivered⟩ ⟨rest + sent, m ::ₘ delivered⟩

/-- The network delivers one of the messages in flight, and nothing is lost. -/
inductive ReliableStep : Cfg μ → Cfg μ → Prop
  | deliver (m : μ) (rest delivered : Multiset μ) :
      ReliableStep ⟨m ::ₘ rest, delivered⟩ ⟨rest + C.react m, m ::ₘ delivered⟩

/-- Any number of deliveries. -/
abbrev Run : Cfg μ → Cfg μ → Prop := Relation.ReflTransGen C.Step

/-- Any number of deliveries without losses. -/
abbrev ReliableRun : Cfg μ → Cfg μ → Prop := Relation.ReflTransGen C.ReliableStep

/-- What the messages in flight still cause, themselves included. -/
def pending (c : Cfg μ) : Multiset μ := c.inFlight.bind C.total

variable {C}

theorem pending_cons (m : μ) (rest delivered : Multiset μ) :
    C.pending ⟨m ::ₘ rest, delivered⟩ = m ::ₘ (rest.bind C.total + (C.react m).bind C.total) := by
  rw [pending, Multiset.cons_bind, C.total_eq m, Multiset.cons_add, add_comm (rest.bind C.total)]

/-- **A delivery moves one message from what is to come to what has been delivered.** -/
theorem ReliableStep.conserve {c c' : Cfg μ} (h : C.ReliableStep c c') :
    c'.delivered + C.pending c' = c.delivered + C.pending c := by
  cases h with
  | deliver m rest delivered =>
    rw [pending_cons, pending, Multiset.add_bind, Multiset.cons_add, Multiset.add_cons]

/-- **A delivery adds nothing** to what has been delivered and what is to come. -/
theorem Step.conserve_le {c c' : Cfg μ} (h : C.Step c c') :
    c'.delivered + C.pending c' ≤ c.delivered + C.pending c := by
  cases h with
  | @deliver m rest delivered sent hsent =>
    obtain ⟨lost, hlost⟩ := Multiset.le_iff_exists_add.1 hsent
    rw [pending_cons, pending, hlost, Multiset.add_bind, Multiset.add_bind, Multiset.cons_add,
      Multiset.add_cons, ← add_assoc (rest.bind C.total)]
    exact Multiset.cons_le_cons m (add_le_add_right (Multiset.le_add_right _ _) delivered)

theorem Run.conserve_le {c c' : Cfg μ} (h : C.Run c c') :
    c'.delivered + C.pending c' ≤ c.delivered + C.pending c := by
  induction h with
  | refl => rfl
  | tail _ hstep ih => exact hstep.conserve_le.trans ih

theorem ReliableRun.conserve {c c' : Cfg μ} (h : C.ReliableRun c c') :
    c'.delivered + C.pending c' = c.delivered + C.pending c := by
  induction h with
  | refl => rfl
  | tail _ hstep ih => rw [hstep.conserve, ih]

theorem le_pending (c : Cfg μ) : c.inFlight ≤ C.pending c := by
  unfold pending
  induction c.inFlight using Multiset.induction with
  | empty => simp
  | cons m rest ih =>
    rw [Multiset.cons_bind, C.total_eq m, Multiset.cons_add]
    exact Multiset.cons_le_cons m (ih.trans (Multiset.le_add_left _ _))

/-- The messages ever sent in a run, those still in flight included, are among those its start
promises. -/
theorem Run.sent_le {c c' : Cfg μ} (h : C.Run c c') :
    c'.delivered + c'.inFlight ≤ c.delivered + C.pending c :=
  (add_le_add_right (le_pending c') c'.delivered).trans h.conserve_le

/-- **A complete run without losses delivers all that its start promises, in whatever order.** -/
theorem ReliableRun.delivered_eq {c c' : Cfg μ} (h : C.ReliableRun c c')
    (hdone : c'.inFlight = 0) : c'.delivered = c.delivered + C.pending c := by
  rw [← h.conserve, pending, hdone, Multiset.zero_bind, add_zero]

theorem Step.card_pending {c c' : Cfg μ} (h : C.Step c c') :
    (C.pending c').card < (C.pending c).card := by
  have hcard := Multiset.card_le_card h.conserve_le
  have hdelivered : c'.delivered.card = c.delivered.card + 1 := by
    cases h
    simp
  rw [Multiset.card_add, Multiset.card_add, hdelivered] at hcard
  omega

/-! ## Systems with more state -/

section Simulates

variable {S : Type*}

/-- `S` with steps `step` is a cascade on its messages: a step delivers a message, and a message
in flight can be delivered. -/
structure Simulates (C : Cascade μ) (step : S → S → Prop) (proj : S → Cfg μ) : Prop where
  step_proj : ∀ {s s'}, step s s' → C.Step (proj s) (proj s')
  progress : ∀ {s}, (proj s).inFlight ≠ 0 → ∃ s', step s s'

namespace Simulates

variable {step : S → S → Prop} {proj : S → Cfg μ} (hsim : Simulates C step proj)

include hsim

theorem run_proj {s s' : S} (h : Relation.ReflTransGen step s s') :
    C.Run (proj s) (proj s') :=
  h.lift proj fun _ _ => hsim.step_proj

/-- **There is no infinite run.** -/
theorem not_infinite : ¬ ∃ f : ℕ → S, ∀ n, step (f n) (f (n + 1)) := by
  rintro ⟨f, hf⟩
  have hcard : ∀ n, (C.pending (proj (f n))).card + n ≤ (C.pending (proj (f 0))).card := by
    intro n
    induction n with
    | zero => rfl
    | succ n ih =>
      have := (hsim.step_proj (hf n)).card_pending
      omega
  have := hcard ((C.pending (proj (f 0))).card + 1)
  omega

/-- **Every run can be continued until nothing is in flight.** -/
theorem exists_complete (s : S) :
    ∃ s', Relation.ReflTransGen step s s' ∧ (proj s').inFlight = 0 := by
  induction hn : (C.pending (proj s)).card using Nat.strong_induction_on generalizing s with
  | h n ih =>
    by_cases hdone : (proj s).inFlight = 0
    · exact ⟨s, .refl, hdone⟩
    · obtain ⟨s₁, hs₁⟩ := hsim.progress hdone
      obtain ⟨s', hrun, hdone'⟩ := ih _ (hn ▸ (hsim.step_proj hs₁).card_pending) s₁ rfl
      exact ⟨s', .head hs₁ hrun, hdone'⟩

end Simulates

end Simulates

end Cascade

end TPST
