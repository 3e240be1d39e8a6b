import Mathlib.Data.Finset.Filter
import Mathlib.Data.List.Chain
import Mathlib.Data.Set.Card
import TPST.Foundations.Cascade

/-!
# The chains of a cascade

A chain is a list of messages each of which is sent in reaction to the one before. The deliveries
that a message causes are the ends of the chains it starts, so that the total counts chains: when
no reaction sends a message twice, `count_bind_total` says that a message is delivered as often as
there are chains that lead to it.

* `ofAcyclic`: reactions within a finite set are a cascade if their relation has no cycle.
-/

namespace TPST.Cascade

open Relation

variable {μ : Type*} (C : Cascade μ)

/-- The chains that start with `m`. -/
def chains (m : μ) : Multiset (List μ) :=
  [m] ::ₘ ((C.react m).attach.bind fun m' => chains m'.1).map (m :: ·)
termination_by C.rank m
decreasing_by exact C.rank_lt m'.2

theorem chains_eq (m : μ) : C.chains m = [m] ::ₘ ((C.react m).bind C.chains).map (m :: ·) := by
  rw [chains]
  congr 2
  conv_rhs => rw [← Multiset.attach_map_val (C.react m), Multiset.bind_map]

/-- The chains from one of `roots` to `t`. -/
def chainsTo (roots : Multiset μ) (t : μ) : Set (List μ) :=
  {c | (∃ m ∈ roots, c.head? = some m) ∧ c.IsChain (fun a b => b ∈ C.react a) ∧
    c.getLast? = some t}

/-- What a message leads to. -/
theorem mem_total {m t : μ} :
    t ∈ C.total m ↔ ReflTransGen (fun a b => b ∈ C.react a) m t := by
  induction m using C.induction with
  | h m ih =>
    rw [C.total_eq, Multiset.mem_cons, Multiset.mem_bind, ReflTransGen.cases_head_iff,
      eq_comm (a := t)]
    exact or_congr_right (exists_congr fun m' => and_congr_right fun hm' => ih m' hm')

theorem mem_chains {m : μ} {c : List μ} :
    c ∈ C.chains m ↔ c.head? = some m ∧ c.IsChain (fun a b => b ∈ C.react a) := by
  induction m using C.induction generalizing c with
  | h m ih =>
    rw [C.chains_eq, Multiset.mem_cons, Multiset.mem_map]
    constructor
    · rintro (rfl | ⟨c', hc', rfl⟩)
      · exact ⟨rfl, List.isChain_singleton m⟩
      · obtain ⟨m', hm', hc'⟩ := Multiset.mem_bind.1 hc'
        obtain ⟨hhead, hchain⟩ := (ih m' hm').1 hc'
        refine ⟨rfl, List.isChain_cons.2 ⟨fun y hy => ?_, hchain⟩⟩
        rw [hhead, Option.mem_some_iff] at hy
        exact hy ▸ hm'
    · rintro ⟨hhead, hchain⟩
      match c, hhead, hchain with
      | [_], rfl, _ => exact .inl rfl
      | _ :: m' :: c', rfl, hchain =>
        obtain ⟨hm', hchain'⟩ := List.isChain_cons_cons.1 hchain
        exact .inr ⟨m' :: c', Multiset.mem_bind.2 ⟨m', hm', (ih m' hm').2 ⟨rfl, hchain'⟩⟩, rfl⟩

/-- **Each delivery ends one chain.** -/
theorem map_getLast_chains (m : μ) :
    (C.chains m).map List.getLast? = (C.total m).map some := by
  induction m using C.induction with
  | h m ih =>
    have hlast : ∀ c ∈ (C.react m).bind C.chains, (m :: c).getLast? = c.getLast? := by
      intro c hc
      obtain ⟨m', -, hc⟩ := Multiset.mem_bind.1 hc
      have hhead := (C.mem_chains.1 hc).1
      cases c with
      | nil => cases hhead
      | cons a c => exact List.getLast?_cons_cons
    calc (C.chains m).map List.getLast?
        = some m ::ₘ ((C.react m).bind C.chains).map fun c => (m :: c).getLast? := by
          rw [C.chains_eq, Multiset.map_cons, Multiset.map_map]
          rfl
      _ = some m ::ₘ (C.react m).bind fun m' => (C.chains m').map List.getLast? := by
          rw [Multiset.map_congr rfl hlast, Multiset.map_bind]
      _ = some m ::ₘ (C.react m).bind fun m' => (C.total m').map some := by
          rw [Multiset.bind_congr ih]
      _ = (C.total m).map some := by rw [C.total_eq, Multiset.map_cons, Multiset.map_bind]

/-- Chains with different heads are different. -/
theorem nodup_bind_chains {ms : Multiset μ} (hms : ms.Nodup) (h : ∀ m ∈ ms, (C.chains m).Nodup) :
    (ms.bind C.chains).Nodup := by
  refine Multiset.nodup_bind.2 ⟨h, hms.pairwise fun a _ b _ hab => ?_⟩
  rw [Function.onFun, Multiset.disjoint_left]
  intro c hca hcb
  have heq := (C.mem_chains.1 hca).1.symm.trans (C.mem_chains.1 hcb).1
  exact hab (Option.some.inj heq)

theorem nodup_chains (hreact : ∀ m, (C.react m).Nodup) (m : μ) : (C.chains m).Nodup := by
  induction m using C.induction with
  | h m ih =>
    rw [C.chains_eq, Multiset.nodup_cons]
    refine ⟨fun hmem => ?_, (C.nodup_bind_chains (hreact m) ih).map (List.cons_injective)⟩
    obtain ⟨c, hc, heq⟩ := Multiset.mem_map.1 hmem
    obtain ⟨m', -, hc⟩ := Multiset.mem_bind.1 hc
    obtain rfl := (List.cons.inj heq).2
    cases (C.mem_chains.1 hc).1

/-- **A message is delivered once for each chain that leads to it.** -/
theorem count_bind_total [DecidableEq μ] {roots : Multiset μ} (hroots : roots.Nodup)
    (hreact : ∀ m, (C.react m).Nodup) (t : μ) :
    ((roots.bind C.total).count t : ℕ∞) = (C.chainsTo roots t).encard := by
  have hnodup : (roots.bind C.chains).Nodup :=
    C.nodup_bind_chains hroots fun m _ => C.nodup_chains hreact m
  have hcount : (roots.bind C.total).count t =
      ((roots.bind C.chains).filter fun c => some t = c.getLast?).card := by
    rw [← Multiset.count_map, Multiset.map_bind, ← Multiset.count_map_eq_count' some _
      (Option.some_injective μ), Multiset.map_bind, Multiset.bind_congr fun m _ =>
      C.map_getLast_chains m]
  have hset : C.chainsTo roots t =
      ↑(⟨(roots.bind C.chains).filter fun c => some t = c.getLast?, hnodup.filter _⟩ :
        Finset (List μ)) := by
    ext c
    simp only [chainsTo, Set.mem_ofPred_eq, Finset.mem_coe, Finset.mem_mk, Multiset.mem_filter,
      Multiset.mem_bind, C.mem_chains, eq_comm (a := some t)]
    constructor
    · rintro ⟨⟨m, hm, hhead⟩, hchain, hlast⟩
      exact ⟨⟨m, hm, hhead, hchain⟩, hlast⟩
    · rintro ⟨⟨m, hm, hhead, hchain⟩, hlast⟩
      exact ⟨⟨m, hm, hhead⟩, hchain, hlast⟩
  rw [hcount, hset, Set.encard_coe_eq_coe_finsetCard, Finset.card_mk]

/-! ## Acyclic reactions -/

section Acyclic

variable (react : μ → Multiset μ) (S : Finset μ)

open Classical in
/-- Reactions within a finite set and without cycles. The rank of a message is the number of
messages that it leads to. -/
noncomputable def ofAcyclic (hS : ∀ a, ∀ b ∈ react a, b ∈ S)
    (hacyclic : ∀ a, ¬ TransGen (fun a b => b ∈ react a) a a) : Cascade μ where
  react := react
  rank a := (S.filter fun b => TransGen (fun a b => b ∈ react a) a b).card
  rank_lt {a b} hb := by
    refine Finset.card_lt_card (Finset.ssubset_iff_of_subset ?_ |>.2 ⟨b, ?_, ?_⟩)
    · intro c hc
      obtain ⟨hcS, hbc⟩ := Finset.mem_filter.1 hc
      exact Finset.mem_filter.2 ⟨hcS, .head hb hbc⟩
    · exact Finset.mem_filter.2 ⟨hS a b hb, .single hb⟩
    · exact fun h => hacyclic b (Finset.mem_filter.1 h).2

variable {react S} {hS : ∀ a, ∀ b ∈ react a, b ∈ S}
  {hacyclic : ∀ a, ¬ TransGen (fun a b => b ∈ react a) a a}

open Classical in
theorem rank_ofAcyclic_le (a : μ) : (ofAcyclic react S hS hacyclic).rank a ≤ S.card :=
  Finset.card_filter_le S fun b => TransGen (fun a b => b ∈ react a) a b

end Acyclic

end TPST.Cascade
