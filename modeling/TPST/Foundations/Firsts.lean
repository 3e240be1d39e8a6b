import Mathlib.Data.List.Induction
import Mathlib.Data.List.Nodup
import Mathlib.Tactic.Common

/-!
# First occurrences

`firsts key l` keeps of a list the elements that are the first ones with their key. It is the list
that grows at the end by each new key (`firsts_concat`): no key is in it twice (`nodup_firsts`),
each key of the list is in it (`mem_map_key_firsts`), and the keys stand in the order of their
first occurrences (`pairwise_firsts`).
-/

namespace TPST

variable {α κ : Type*} [BEq κ]

/-- The elements that are the first ones with their key. -/
def firsts (key : α → κ) (l : List α) : List α := l.eraseDupsBy fun a b => key a == key b

variable {key : α → κ} {l : List α} {a b : α} {k : κ}

theorem firsts_cons :
    firsts key (b :: l) = b :: firsts key (l.filter fun a => key a != key b) := by
  have hne : ∀ a, decide ((key a == key b) = false) = (key a != key b) := fun a => by simp [bne]
  rw [firsts, List.eraseDupsBy_cons]
  simp only [hne]
  rfl

variable [LawfulBEq κ]

/-- **One more element**: it is kept when its key is new. -/
theorem firsts_concat (key : α → κ) (l : List α) (a : α) :
    firsts key (l ++ [a]) =
      if key a ∈ l.map key then firsts key l else firsts key l ++ [a] := by
  cases l with
  | nil => rfl
  | cons b l =>
    rw [List.cons_append, firsts_cons, firsts_cons, List.filter_append]
    by_cases hab : key a = key b
    · have hmem : key a ∈ (b :: l).map key := List.mem_cons.2 (.inl hab)
      rw [if_pos hmem, List.filter_cons_of_neg (by simpa using hab), List.filter_nil,
        List.append_nil]
    · -- the new key is in the list exactly if it is still there without the key of `b`
      have hmem : key a ∈ (l.filter fun a => key a != key b).map key ↔
          key a ∈ (b :: l).map key := by
        rw [List.map_cons, List.mem_cons, or_iff_right hab, List.mem_map, List.mem_map]
        refine exists_congr fun c => and_congr_left fun hc => ?_
        simp [hc, hab]
      rw [List.filter_cons_of_pos (by simpa using hab), List.filter_nil, firsts_concat]
      simp only [hmem]
      split <;> rfl
termination_by l.length
decreasing_by exact Nat.lt_succ_of_le (List.length_filter_le _ _)

theorem mem_of_mem_firsts (ha : a ∈ firsts key l) : a ∈ l := by
  induction l using List.reverseRecOn with
  | nil => exact ha
  | append_singleton l b ih =>
    rw [firsts_concat] at ha
    split_ifs at ha with hmem
    · exact List.mem_append_left _ (ih ha)
    · exact List.mem_append.2 ((List.mem_append.1 ha).imp_left ih)

/-- The keys that are kept are those of the list. -/
theorem mem_map_key_firsts : k ∈ (firsts key l).map key ↔ k ∈ l.map key := by
  induction l using List.reverseRecOn with
  | nil => rfl
  | append_singleton l a ih =>
    rw [firsts_concat, List.map_append, List.map_singleton, List.mem_append, List.mem_singleton]
    split_ifs with hmem
    · rw [ih, or_iff_left_of_imp fun hk => hk ▸ hmem]
    · rw [List.map_append, List.map_singleton, List.mem_append, List.mem_singleton, ih]

theorem nodup_firsts : ((firsts key l).map key).Nodup := by
  induction l using List.reverseRecOn with
  | nil => exact List.nodup_nil
  | append_singleton l a ih =>
    rw [firsts_concat]
    split_ifs with hmem
    · exact ih
    · rw [List.map_append, List.map_singleton]
      exact List.nodup_append_comm.1
        (List.nodup_cons.2 ⟨fun hk => hmem (mem_map_key_firsts.1 hk), ih⟩)

/-- **The order**: that of the first occurrences. -/
theorem pairwise_firsts : ((firsts key l).map key).Pairwise fun k k' =>
    (l.map key).idxOf k < (l.map key).idxOf k' := by
  induction l using List.reverseRecOn with
  | nil => exact List.Pairwise.nil
  | append_singleton l a ih =>
    have hsame : ∀ k ∈ l.map key, (l.map key ++ [key a]).idxOf k = (l.map key).idxOf k :=
      fun k hk => List.idxOf_append_of_mem hk
    have hold : ((firsts key l).map key).Pairwise fun k k' =>
        (l.map key ++ [key a]).idxOf k < (l.map key ++ [key a]).idxOf k' :=
      ih.imp_of_mem fun hk hk' hlt => by
        rwa [hsame _ (mem_map_key_firsts.1 hk), hsame _ (mem_map_key_firsts.1 hk')]
    rw [firsts_concat, List.map_append, List.map_singleton]
    split_ifs with hmem
    · exact hold
    · rw [List.map_append, List.map_singleton]
      refine List.pairwise_append.2 ⟨hold, List.pairwise_singleton _ _, fun k hk k' hk' => ?_⟩
      obtain rfl := List.mem_singleton.1 hk'
      have hk := mem_map_key_firsts.1 hk
      rw [hsame k hk, List.idxOf_append_of_notMem hmem]
      exact Nat.lt_add_right _ (List.idxOf_lt_length_of_mem hk)

end TPST
