import TPST.Foundations.Fields

/-!
# Runs

A run of a list is a stretch without separators that cannot be made longer: `IsRun seps l i j` says
this of the elements from position `i` to before position `j`. The pieces of a list (`Pieces`) are
its runs in their order, and between two of them there is a separator (`exists_runs`). What a list
consists of, without its separators, is the concatenation of its pieces (`Pieces.flatten_eq`).
-/

namespace TPST.Cut

variable {α : Type*}

/-- The elements from position `i` to before `j` are no separators, and on both sides there is a
separator or an end of the list. -/
structure IsRun (seps l : List α) (i j : ℕ) : Prop where
  lt : i < j
  le : j ≤ l.length
  free : ∀ k c, i ≤ k → k < j → l[k]? = some c → c ∉ seps
  left : ∀ c, 0 < i → l[i - 1]? = some c → c ∈ seps
  right : ∀ c, l[j]? = some c → c ∈ seps

/-- The elements from position `i` to before `j`. -/
def slice (l : List α) (i j : ℕ) : List α := (l.drop i).take (j - i)

/-- Between the end of a run and the start of another one there is a separator. -/
def Separated (seps l : List α) (r r' : ℕ × ℕ) : Prop :=
  ∃ k c, r.2 ≤ k ∧ k < r'.1 ∧ l[k]? = some c ∧ c ∈ seps

section Runs

variable {seps lead piece rest s : List α} {pieces : List (List α)} {i j : ℕ}

theorem slice_append (l l' : List α) (i j : ℕ) :
    slice (l ++ l') (l.length + i) (l.length + j) = slice l' i j := by
  rw [slice, slice, ← List.drop_drop, List.drop_left, Nat.add_sub_add_left]

/-- A list of separators has no run. -/
theorem not_isRun (hlead : ∀ c ∈ s, c ∈ seps) : ¬ IsRun seps s i j := by
  intro h
  have hi : i < s.length := h.lt.trans_le h.le
  exact h.free i s[i] le_rfl h.lt (List.getElem?_eq_getElem hi) (hlead _ (List.getElem_mem hi))

/-- What comes behind, when it begins with a separator, has the same runs as in the whole list. -/
theorem isRun_append (hrest : ∀ c ∈ rest.head?, c ∈ seps) :
    IsRun seps (s ++ rest) (s.length + i) (s.length + j) ↔ IsRun seps rest i j := by
  have hget : ∀ k, (s ++ rest)[s.length + k]? = rest[k]? := fun k => by
    rw [List.getElem?_append_right (Nat.le_add_right _ _), Nat.add_sub_cancel_left]
  -- no run begins at the separator
  have hpos : ∀ {l : List α} {n}, l[n]? = rest[0]? → ∀ {m}, IsRun seps l n m → n < l.length →
      False := by
    intro l n hl m h hn
    have hc : l[n]? = some l[n] := List.getElem?_eq_getElem hn
    refine h.free n l[n] le_rfl h.lt hc (hrest _ ?_)
    rw [List.head?_eq_getElem?, ← hl, hc]
    rfl
  constructor
  · intro h
    have hlt : s.length + i < (s ++ rest).length := h.lt.trans_le h.le
    have hle := h.le
    rw [List.length_append] at hle
    cases i with
    | zero => exact (hpos (hget 0) h hlt).elim
    | succ i =>
      refine ⟨Nat.lt_of_add_lt_add_left h.lt, by omega, fun k c hik hkj hk => ?_,
        fun c _ hc => ?_, fun c hc => ?_⟩
      · exact h.free (s.length + k) c (by omega) (by omega) (by rw [hget, hk])
      · refine h.left c (by omega) ?_
        rw [← hc, Nat.add_sub_cancel, ← hget]
        rfl
      · exact h.right c (by rw [hget, hc])
  · intro h
    have hlt : i < rest.length := h.lt.trans_le h.le
    cases i with
    | zero => exact (hpos rfl h hlt).elim
    | succ i =>
      refine ⟨Nat.add_lt_add_left h.lt _, ?_, fun k c hik hkj hk => ?_, fun c _ hc => ?_,
        fun c hc => ?_⟩
      · rw [List.length_append]
        exact Nat.add_le_add_left h.le _
      · obtain ⟨k, rfl⟩ := Nat.exists_eq_add_of_le ((Nat.le_add_right _ _).trans hik)
        exact h.free k c (by omega) (by omega) (by rw [← hk, hget])
      · refine h.left c (Nat.succ_pos i) ?_
        rw [← hc, Nat.add_sub_cancel, ← hget]
        rfl
      · exact h.right c (by rw [← hc, hget])

/-- What separates two runs separates them wherever they stand. -/
theorem Separated.append {r r' : ℕ × ℕ} (h : Separated seps rest r r') :
    Separated seps (s ++ rest) (s.length + r.1, s.length + r.2)
      (s.length + r'.1, s.length + r'.2) := by
  obtain ⟨k, c, hk, hk', hc, hmem⟩ := h
  refine ⟨s.length + k, c, Nat.add_le_add_left hk _, Nat.add_lt_add_left hk' _, ?_, hmem⟩
  rw [List.getElem?_append_right (Nat.le_add_right _ _), Nat.add_sub_cancel_left, hc]

section First

variable (hlead : ∀ c ∈ lead, c ∈ seps) (hne : piece ≠ []) (hfree : ∀ c ∈ piece, c ∉ seps)
  (hrest : ∀ c ∈ rest.head?, c ∈ seps)

include hlead hne hfree hrest

/-- The first piece is a run. -/
theorem isRun_first :
    IsRun seps (lead ++ piece ++ rest) lead.length (lead.length + piece.length) := by
  have hpiece : 0 < piece.length := List.length_pos_iff.2 hne
  refine ⟨by omega, by simp, fun k c hik hkj hk => ?_, fun c hpos hc => ?_, fun c hc => ?_⟩
  · rw [List.append_assoc, List.getElem?_append_right hik,
      List.getElem?_append_left (by omega)] at hk
    exact hfree c (List.mem_of_getElem? hk)
  · rw [List.append_assoc, List.getElem?_append_left (by omega)] at hc
    exact hlead c (List.mem_of_getElem? hc)
  · rw [List.getElem?_append_right (by simp), List.length_append, Nat.sub_self,
      ← List.head?_eq_getElem?] at hc
    exact hrest c hc

/-- A run is the first piece, or it lies behind. -/
theorem IsRun.cases (h : IsRun seps (lead ++ piece ++ rest) i j) :
    (i = lead.length ∧ j = lead.length + piece.length) ∨ lead.length + piece.length ≤ i := by
  have hpiece : 0 < piece.length := List.length_pos_iff.2 hne
  have hfirst := isRun_first hlead hne hfree hrest
  have hat : ∀ {k}, k < (lead ++ piece ++ rest).length →
      ∃ c, (lead ++ piece ++ rest)[k]? = some c := fun hk => ⟨_, List.getElem?_eq_getElem hk⟩
  have hlength : (lead ++ piece ++ rest).length = lead.length + piece.length + rest.length := by
    simp only [List.length_append]
  have hlt := h.lt
  have hle := h.le
  rcases Nat.lt_trichotomy i lead.length with hi | hi | hi
  · -- it does not begin among the leading separators
    obtain ⟨c, hc⟩ := hat (k := i) (by omega)
    have hmem := hc
    rw [List.append_assoc, List.getElem?_append_left hi] at hmem
    exact absurd (hlead c (List.mem_of_getElem? hmem)) (h.free i c le_rfl hlt hc)
  · refine .inl ⟨hi, ?_⟩
    rcases Nat.lt_trichotomy j (lead.length + piece.length) with hj | hj | hj
    · obtain ⟨c, hc⟩ := hat (k := j) (by omega)
      exact absurd (h.right c hc) (hfirst.free j c (by omega) hj hc)
    · exact hj
    · obtain ⟨c, hc⟩ := hat (k := lead.length + piece.length) (by omega)
      exact absurd (hfirst.right c hc) (h.free _ c (by omega) hj hc)
  · -- nor inside the piece
    by_contra hbehind
    obtain ⟨c, hc⟩ := hat (k := i - 1) (by omega)
    exact hfirst.free (i - 1) c (by omega) (by omega) hc (h.left c (by omega) hc)

/-- **The runs of a list**: the first piece, and the runs behind it. -/
theorem isRun_iff : IsRun seps (lead ++ piece ++ rest) i j ↔
    (i = lead.length ∧ j = lead.length + piece.length) ∨
      ∃ i' j', IsRun seps rest i' j' ∧ (lead ++ piece).length + i' = i ∧
        (lead ++ piece).length + j' = j := by
  constructor
  · intro hrun
    refine (IsRun.cases hlead hne hfree hrest hrun).imp_right fun hle => ?_
    rw [← List.length_append] at hle
    obtain ⟨i, rfl⟩ := Nat.exists_eq_add_of_le hle
    obtain ⟨j, rfl⟩ := Nat.exists_eq_add_of_le ((Nat.le_add_right _ _).trans hrun.lt.le)
    exact ⟨i, j, (isRun_append hrest).1 hrun, rfl, rfl⟩
  · rintro (⟨rfl, rfl⟩ | ⟨i', j', hrun, rfl, rfl⟩)
    · exact isRun_first hlead hne hfree hrest
    · exact (isRun_append hrest).2 hrun

/-- The separator behind the first piece stands in front of the runs behind it. -/
theorem separated_first (h : IsRun seps rest i j) :
    Separated seps (lead ++ piece ++ rest) (lead.length, lead.length + piece.length)
      ((lead ++ piece).length + i, (lead ++ piece).length + j) := by
  have hfirst := isRun_first hlead hne hfree hrest
  have hrun := (isRun_append (s := lead ++ piece) hrest).2 h
  have hlength : (lead ++ piece).length = lead.length + piece.length := List.length_append
  have hlt : lead.length + piece.length < (lead ++ piece ++ rest).length := by
    have := hrun.lt.trans_le hrun.le
    omega
  have hc := List.getElem?_eq_getElem hlt
  refine ⟨_, _, le_rfl, ?_, hc, hfirst.right _ hc⟩
  by_contra hle
  have hzero : i = 0 := by
    simp only at hle
    omega
  rw [hzero, Nat.add_zero, hlength] at hrun
  exact hrun.free _ _ le_rfl hrun.lt hc (hfirst.right _ hc)

end First

/-- **The pieces of a list are its runs**, in their order, with separators in between. -/
theorem exists_runs (h : Pieces seps s pieces) :
    ∃ runs : List (ℕ × ℕ), runs.Pairwise (Separated seps s) ∧
      (∀ i j, (i, j) ∈ runs ↔ IsRun seps s i j) ∧
        pieces = runs.map fun r => slice s r.1 r.2 := by
  induction h with
  | nil hlead =>
    exact ⟨[], .nil, fun i j => iff_of_false List.not_mem_nil (not_isRun hlead), rfl⟩
  | @cons lead piece rest pieces hlead hne hfree hrest _ ih =>
    obtain ⟨runs, hsep, hruns, rfl⟩ := ih
    refine ⟨(lead.length, lead.length + piece.length) ::
      runs.map fun r => ((lead ++ piece).length + r.1, (lead ++ piece).length + r.2), ?_, ?_, ?_⟩
    · rw [List.pairwise_cons, List.pairwise_map]
      refine ⟨fun r' hr' => ?_, hsep.imp fun h => h.append⟩
      obtain ⟨r, hr, rfl⟩ := List.mem_map.1 hr'
      exact separated_first hlead hne hfree hrest ((hruns r.1 r.2).1 hr)
    · intro i j
      rw [List.mem_cons, Prod.mk.injEq, List.mem_map, isRun_iff hlead hne hfree hrest]
      simp only [Prod.exists, Prod.mk.injEq, hruns]
    · rw [List.map_cons, List.map_map]
      congr 1
      · rw [slice, List.append_assoc, List.drop_left, Nat.add_sub_cancel_left, List.take_left]
      · exact List.map_congr_left fun r _ => (slice_append _ _ _ _).symm

/-- **The pieces make up the list without its separators.** -/
theorem Pieces.flatten_eq [DecidableEq α] (h : Pieces seps s pieces) :
    pieces.flatten = s.filter (· ∉ seps) := by
  induction h with
  | nil hlead => simpa using hlead
  | @cons lead piece rest pieces hlead hne hfree hrest _ ih =>
    have hlead' : lead.filter (· ∉ seps) = [] := List.filter_eq_nil_iff.2 (by simpa using hlead)
    have hpiece : piece.filter (· ∉ seps) = piece := List.filter_eq_self.2 (by simpa using hfree)
    rw [List.filter_append, List.filter_append, List.flatten_cons, ih, hlead', hpiece,
      List.nil_append]

/-- A piece is not empty and has no separator in it. -/
theorem Pieces.of_mem (h : Pieces seps s pieces) :
    ∀ piece ∈ pieces, piece ≠ [] ∧ ∀ c ∈ piece, c ∉ seps := by
  induction h with
  | nil => simp
  | cons _ hne hfree _ _ ih => exact List.forall_mem_cons.2 ⟨⟨hne, hfree⟩, ih⟩

end Runs

end TPST.Cut
