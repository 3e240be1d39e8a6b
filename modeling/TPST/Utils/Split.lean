import TPST.Foundations.Runs
import TPST.Utils.Numerals

/-!
# The loops of `split`

`split` walks over the string with two positions. The first inner loop moves `i` past separators,
the second one moves `j` to the next separator, and what is in between is a piece. A flag leaves the
loops: the first one goes on as long as a separator was found (`flag == 0`), the second one until
one is found (`flag == 1`).

`splitWhile` has these loops. It is the function that the rest of the development works with
(`splitByIndex_eq`), and `split_runs` says what it returns: the runs of the string.
-/

namespace TPST

open Cut

/-- The loop over the separators: `s[i]` is one of them. -/
def hitsSeperator (seperator s : List Char) (i : ℕ) : Bool := seperator.any fun x => s[i]? = some x

/-- The first inner loop. The positions do not go beyond the end, where the source tests for it with
`!=`. -/
def skipLoop (seperator s : List Char) (i : ℕ) (flag : Bool) : ℕ :=
  if i < s.length ∧ flag = false then
    if hitsSeperator seperator s i then skipLoop seperator s (i + 1) false
    else skipLoop seperator s i true
  else i
termination_by 2 * (s.length - i) + (if flag then 0 else 1)
decreasing_by
  all_goals
    rename_i hlt _
    simp only [hlt.2, Bool.false_eq_true, ↓reduceIte]
    omega

/-- The second inner loop. -/
def pieceLoop (seperator s : List Char) (j : ℕ) (flag : Bool) : ℕ :=
  if j < s.length ∧ flag = false then
    if hitsSeperator seperator s j then pieceLoop seperator s j true
    else pieceLoop seperator s (j + 1) false
  else j
termination_by 2 * (s.length - j) + (if flag then 0 else 1)
decreasing_by
  all_goals
    rename_i hlt _
    simp only [hlt.2, Bool.false_eq_true, ↓reduceIte]
    omega

section Loops

variable {seperator s xs ys t : List Char} {c : Char} {i : ℕ}

theorem of_drop_cons (h : s.drop i = c :: t) :
    i < s.length ∧ s[i]? = some c ∧ s.drop (i + 1) = t := by
  have hlt : i < s.length := by
    by_contra hle
    rw [List.drop_eq_nil_of_le (by omega)] at h
    cases h
  rw [List.drop_eq_getElem_cons hlt] at h
  obtain ⟨rfl, rfl⟩ := List.cons.inj h
  exact ⟨hlt, List.getElem?_eq_getElem hlt, rfl⟩

theorem hitsSeperator_eq (hc : s[i]? = some c) :
    hitsSeperator seperator s i = decide (c ∈ seperator) := by
  rw [hitsSeperator, hc, Bool.eq_iff_iff]
  simp

/-- The first loop goes past the separators. -/
theorem skipLoop_eq (hs : s.drop i = xs ++ ys) (hxs : ∀ c ∈ xs, c ∈ seperator)
    (hys : ∀ c ∈ ys.head?, c ∉ seperator) : skipLoop seperator s i false = i + xs.length := by
  induction xs generalizing i with
  | nil =>
    rw [skipLoop]
    split
    · rename_i hlt
      cases ys with
      | nil => exact absurd hlt.1 (by simpa using hs)
      | cons c ys =>
        rw [hitsSeperator_eq (of_drop_cons hs).2.1, decide_eq_false (hys c rfl), if_neg (by simp),
          skipLoop, if_neg (by simp)]
        rfl
    · rfl
  | cons c xs ih =>
    obtain ⟨hlt, hc, htail⟩ := of_drop_cons hs
    rw [skipLoop, if_pos ⟨hlt, rfl⟩, hitsSeperator_eq hc, decide_eq_true (hxs c (by simp)),
      if_pos rfl, ih htail fun d hd => hxs d (by simp [hd]), List.length_cons]
    omega

/-- The second loop goes to the next one. -/
theorem pieceLoop_eq (hs : s.drop i = xs ++ ys) (hxs : ∀ c ∈ xs, c ∉ seperator)
    (hys : ∀ c ∈ ys.head?, c ∈ seperator) : pieceLoop seperator s i false = i + xs.length := by
  induction xs generalizing i with
  | nil =>
    rw [pieceLoop]
    split
    · rename_i hlt
      cases ys with
      | nil => exact absurd hlt.1 (by simpa using hs)
      | cons c ys =>
        rw [hitsSeperator_eq (of_drop_cons hs).2.1, decide_eq_true (hys c rfl), if_pos rfl,
          pieceLoop, if_neg (by simp)]
        rfl
    · rfl
  | cons c xs ih =>
    obtain ⟨hlt, hc, htail⟩ := of_drop_cons hs
    rw [pieceLoop, if_pos ⟨hlt, rfl⟩, hitsSeperator_eq hc, decide_eq_false (hxs c (by simp)),
      if_neg (by simp), ih htail fun d hd => hxs d (by simp [hd]), List.length_cons]
    omega

/-- Where the two loops stop: `lead` is skipped, and `piece` is what is in between. -/
theorem exists_stops (seperator s : List Char) (i : ℕ) :
    ∃ lead piece rest, s.drop i = lead ++ piece ++ rest ∧ (∀ c ∈ lead, c ∈ seperator) ∧
      (∀ c ∈ piece, c ∉ seperator) ∧ (∀ c ∈ (piece ++ rest).head?, c ∉ seperator) ∧
        (∀ c ∈ rest.head?, c ∈ seperator) ∧
          skipLoop seperator s i false = i + lead.length ∧
            pieceLoop seperator s (i + lead.length) false = i + lead.length + piece.length := by
  obtain ⟨lead, start, hstart, hlead, hhead⟩ := exists_append_stop (· ∈ seperator) (s.drop i)
  obtain ⟨piece, rest, rfl, hpiece, hrest⟩ := exists_append_stop (· ∉ seperator) start
  simp only [decide_eq_true_eq, decide_eq_false_iff_not, not_not] at hlead hhead hpiece hrest
  have hdrop : s.drop (i + lead.length) = piece ++ rest := by
    rw [← List.drop_drop, hstart, List.drop_left]
  exact ⟨lead, piece, rest, by rw [hstart, List.append_assoc], hlead, hpiece, hhead, hrest,
    skipLoop_eq hstart hlead hhead, pieceLoop_eq hdrop hpiece hrest⟩

/-- **The positions move on** in every round of the outer loop. -/
theorem lt_pieceLoop (hi : i < s.length) :
    i < pieceLoop seperator s (skipLoop seperator s i false) false := by
  obtain ⟨lead, piece, rest, hs, -, -, hhead, hrest, hskip, hpiece⟩ := exists_stops seperator s i
  rw [hskip, hpiece]
  by_contra hle
  obtain rfl : lead = [] := List.length_eq_zero_iff.1 (by omega)
  obtain rfl : piece = [] := List.length_eq_zero_iff.1 (by omega)
  cases rest with
  | nil => simp at hs; omega
  | cons c rest => exact hhead c rfl (hrest c rfl)

end Loops

/-- The outer loop. -/
def splitWhile (seperator s : List Char) (i : ℕ) (result : List (List Char)) :
    List (List Char) :=
  if _h : i < s.length then
    let i' := skipLoop seperator s i false
    let j := pieceLoop seperator s i' false
    if i' ≠ j then splitWhile seperator s j (result ++ [(s.drop i').take (j - i')])
    else splitWhile seperator s i' result
  else result
termination_by s.length - i
decreasing_by
  · exact Nat.sub_lt_sub_left _h (lt_pieceLoop _h)
  · rename_i hsame
    exact Nat.sub_lt_sub_left _h ((lt_pieceLoop _h).trans_eq (not_not.1 hsame).symm)

/-- `split`, with its positions. -/
def splitByIndex (s seperator : String) : List String :=
  (splitWhile seperator.toList s.toList 0 []).map String.ofList

/-- The outer loop appends the pieces of what is left of the string. -/
theorem splitWhile_eq (seperator s : List Char) (i : ℕ) (result : List (List Char)) :
    splitWhile seperator s i result = result ++ splitLoop seperator (s.drop i) := by
  induction hn : s.length - i using Nat.strong_induction_on generalizing i result with
  | h n ih =>
    rw [splitWhile]
    split
    · rename_i hi
      obtain ⟨lead, piece, rest, hs, hlead, hfree, hhead, hrest, hskip, hpiece⟩ :=
        exists_stops seperator s i
      have hmove := @lt_pieceLoop seperator s i hi
      simp only [hskip, hpiece] at hmove ⊢
      have hdrop : s.drop (i + lead.length + piece.length) = rest := by
        rw [Nat.add_assoc, ← List.length_append, ← List.drop_drop, hs, List.drop_left]
      by_cases hnil : piece = []
      · subst hnil
        have hrest' : rest = [] := by
          cases rest with
          | nil => rfl
          | cons c rest => exact absurd (hrest c rfl) (hhead c rfl)
        rw [if_neg (by simp), ih _ (by simp at hmove; omega) _ _ rfl]
        subst hrest'
        simp only [List.length_nil, Nat.add_zero] at hdrop
        rw [hdrop, hs, splitLoop_of_separators (by simp),
          splitLoop_of_separators (by simpa using hlead)]
      · have hlength : 0 < piece.length := List.length_pos_iff.2 hnil
        have hslice : (s.drop (i + lead.length)).take (i + lead.length + piece.length -
            (i + lead.length)) = piece := by
          rw [← List.drop_drop, hs, List.append_assoc, List.drop_left, Nat.add_sub_cancel_left,
            List.take_left]
        rw [if_pos (by omega), ih _ (by omega) _ _ rfl, hdrop, hslice, hs,
          splitLoop_append hlead hnil hfree hrest, List.append_assoc, List.singleton_append]
    · rw [List.drop_eq_nil_of_le (by omega), splitLoop, dif_pos rfl, List.append_nil]

/-- **The loops compute `split`.** -/
theorem splitByIndex_eq (s seperator : String) : splitByIndex s seperator = split s seperator := by
  rw [splitByIndex, splitWhile_eq, List.nil_append, List.drop_zero]
  rfl

/-- **What `split` returns**: its loops come to their end, and the pieces they find are the runs of
the string between separators, in their order. So no piece is empty or has a separator in it, the
pieces make up the string without its separators, and there is a separator between two of them. -/
theorem split_runs (s seperator : String) :
    (∃ runs : List (ℕ × ℕ), runs.Pairwise (Separated seperator.toList s.toList) ∧
      (∀ i j, (i, j) ∈ runs ↔ IsRun seperator.toList s.toList i j) ∧
        splitByIndex s seperator = runs.map fun r => String.ofList (slice s.toList r.1 r.2)) ∧
      (∀ piece ∈ splitByIndex s seperator,
        piece ≠ "" ∧ ∀ c ∈ piece.toList, c ∉ seperator.toList) ∧
        ((splitByIndex s seperator).map String.toList).flatten =
          s.toList.filter (· ∉ seperator.toList) := by
  have hpieces : Pieces seperator.toList s.toList (splitLoop seperator.toList s.toList) :=
    splitLoop_eq_iff.1 rfl
  rw [splitByIndex_eq, split]
  refine ⟨?_, ?_, ?_⟩
  · obtain ⟨runs, hsep, hruns, hslices⟩ := exists_runs hpieces
    refine ⟨runs, hsep, hruns, ?_⟩
    rw [hslices, List.map_map]
    rfl
  · rintro _ hpiece
    obtain ⟨piece, hmem, rfl⟩ := List.mem_map.1 hpiece
    obtain ⟨hne, hfree⟩ := hpieces.of_mem piece hmem
    exact ⟨by simpa using hne, by simpa using hfree⟩
  · rw [List.map_map, ← hpieces.flatten_eq]
    simp [Function.comp_def]

example : splitByIndex "event1:1:2" ":" = ["event1", "1", "2"] := by decide +kernel

end TPST
