import Mathlib.Data.List.TakeWhile
import Mathlib.Tactic.Common

/-!
# Lists that are cut

A reader that looks for a separator cuts a list into what comes before and what comes after it
(`takeWhile_cut`, `dropWhile_cut`). One that goes on like this finds fields, each closed by a
separator, where the last one may do without (`Fields`). One that takes runs of separators as one
finds pieces (`Pieces`).

`Fields` and `Pieces` say what a list consists of, and nothing of how it is read;
`fields_intercalate` is the list that is written with a separator between the fields, and
`Pieces.cons_field` does the same for pieces, one at a time.
-/

namespace TPST.Cut

variable {α : Type*}

/-- The fields of a list, each closed by a separator; the last one may do without, unless it is
empty. -/
inductive Fields (sep : α) : List α → List (List α) → Prop
  | nil : Fields sep [] []
  | last {field} (hne : field ≠ []) (hfree : sep ∉ field) : Fields sep field [field]
  | cons {field s fields} (hfree : sep ∉ field) (h : Fields sep s fields) :
      Fields sep (field ++ sep :: s) (field :: fields)

/-- The pieces of a list between runs of separators. -/
inductive Pieces (seps : List α) : List α → List (List α) → Prop
  | nil {s} (hlead : ∀ c ∈ s, c ∈ seps) : Pieces seps s []
  | cons {lead piece rest pieces} (hlead : ∀ c ∈ lead, c ∈ seps) (hne : piece ≠ [])
      (hfree : ∀ c ∈ piece, c ∉ seps) (hrest : ∀ c ∈ rest.head?, c ∈ seps)
      (h : Pieces seps rest pieces) : Pieces seps (lead ++ piece ++ rest) (piece :: pieces)

/-! ## One cut -/

section Cut

variable {p : α → Bool} {xs ys : List α} {c : α}

/-- What is taken up to the first element that stops it. -/
theorem takeWhile_append_stop (hxs : ∀ a ∈ xs, p a = true) (hys : ∀ a ∈ ys.head?, p a = false) :
    (xs ++ ys).takeWhile p = xs := by
  rw [List.takeWhile_append_of_pos hxs]
  cases ys with
  | nil => simp
  | cons a ys => simp [hys a rfl]

theorem dropWhile_append_stop (hxs : ∀ a ∈ xs, p a = true) (hys : ∀ a ∈ ys.head?, p a = false) :
    (xs ++ ys).dropWhile p = ys := by
  rw [List.dropWhile_append_of_pos hxs]
  cases ys with
  | nil => rfl
  | cons a ys => simp [hys a rfl]

/-- A list is what is taken and what is left, and the first element left stops it. -/
theorem exists_append_stop (p : α → Bool) (s : List α) :
    ∃ xs ys, s = xs ++ ys ∧ (∀ a ∈ xs, p a = true) ∧ ∀ a ∈ ys.head?, p a = false := by
  refine ⟨s.takeWhile p, s.dropWhile p, List.takeWhile_append_dropWhile.symm,
    fun a ha => List.mem_takeWhile_imp ha, fun a ha => ?_⟩
  have hstop := List.head?_dropWhile_not p s
  rw [Option.mem_def.1 ha] at hstop
  simpa using hstop

/-- What stops it stops it wherever it stands. -/
theorem takeWhile_append_cons (hc : p c = false) :
    (xs ++ c :: ys).takeWhile p = xs.takeWhile p := by
  induction xs with
  | nil => simp [hc]
  | cons a xs ih => rw [List.cons_append, List.takeWhile_cons, List.takeWhile_cons, ih]

theorem dropWhile_append_cons (hc : p c = false) :
    (xs ++ c :: ys).dropWhile p = xs.dropWhile p ++ c :: ys := by
  induction xs with
  | nil => simp [hc]
  | cons a xs ih =>
    rw [List.cons_append, List.dropWhile_cons, List.dropWhile_cons, ih]
    split <;> rfl

/-- A list is free of elements with a property, or cut at the last one. -/
theorem exists_last {P : α → Prop} (l : List α) :
    (∀ a ∈ l, ¬ P a) ∨ ∃ pre a post, l = pre ++ a :: post ∧ P a ∧ ∀ b ∈ post, ¬ P b := by
  induction l with
  | nil => exact .inl fun _ h => absurd h List.not_mem_nil
  | cons a l ih =>
    rcases ih with hnone | ⟨pre, last, post, rfl, hlast, hpost⟩
    · by_cases ha : P a
      · exact .inr ⟨[], a, l, rfl, ha, hnone⟩
      · exact .inl (List.forall_mem_cons.2 ⟨ha, hnone⟩)
    · exact .inr ⟨a :: pre, last, post, rfl, hlast, hpost⟩

variable [DecidableEq α]

theorem ne_of_free (hfree : c ∉ xs) : ∀ a ∈ xs, decide (a ≠ c) = true := by
  rintro a ha
  rw [decide_eq_true_eq]
  rintro rfl
  exact hfree ha

/-- A list cut at the first separator. -/
theorem takeWhile_cut (hfree : c ∉ xs) : (xs ++ c :: ys).takeWhile (· ≠ c) = xs :=
  takeWhile_append_stop (ne_of_free hfree) (by simp)

theorem dropWhile_cut (hfree : c ∉ xs) : (xs ++ c :: ys).dropWhile (· ≠ c) = c :: ys :=
  dropWhile_append_stop (ne_of_free hfree) (by simp)

theorem takeWhile_free (hfree : c ∉ xs) : xs.takeWhile (· ≠ c) = xs :=
  List.takeWhile_eq_self_iff.2 (ne_of_free hfree)

theorem dropWhile_free (hfree : c ∉ xs) : xs.dropWhile (· ≠ c) = [] :=
  List.dropWhile_eq_nil_iff.2 (ne_of_free hfree)

end Cut

/-! ## Pieces between separators -/

section Pieces

variable {seps s f : List α} {pieces : List (List α)} {c : α}

/-- A separator in front changes nothing. -/
theorem Pieces.cons_sep (hc : c ∈ seps) (h : Pieces seps s pieces) :
    Pieces seps (c :: s) pieces := by
  cases h with
  | nil hlead => exact .nil (List.forall_mem_cons.2 ⟨hc, hlead⟩)
  | @cons lead piece rest pieces hlead hne hfree hrest h =>
    have hcons := Pieces.cons (List.forall_mem_cons.2 ⟨hc, hlead⟩) hne hfree hrest h
    simpa using hcons

/-- A field that is not empty is its only piece. -/
theorem pieces_one (hne : f ≠ []) (hfree : c ∉ f) : Pieces [c] f [f] := by
  have hnot : ∀ a ∈ f, a ∉ [c] := fun a ha hac => hfree (List.mem_singleton.1 hac ▸ ha)
  have hcons := @Pieces.cons α [c] [] f [] [] (by simp) hne hnot (by simp) (.nil (by simp))
  simpa using hcons

/-- A field that is not empty is a piece in front of others. -/
theorem Pieces.cons_field (hne : f ≠ []) (hfree : c ∉ f) (h : Pieces [c] s pieces) :
    Pieces [c] (f ++ c :: s) (f :: pieces) := by
  have hnot : ∀ a ∈ f, a ∉ [c] := fun a ha hac => hfree (List.mem_singleton.1 hac ▸ ha)
  have hcons := @Pieces.cons α [c] [] f (c :: s) pieces (by simp) hne hnot (by simp)
    (h.cons_sep (by simp))
  simpa using hcons

end Pieces

/-! ## Fields written with separators -/

/-- **The fields of a list that is written with a separator between them.** -/
theorem fields_intercalate {sep : α} {fields : List (List α)} (hne : ∀ f ∈ fields, f ≠ [])
    (hfree : ∀ f ∈ fields, sep ∉ f) : Fields sep ([sep].intercalate fields) fields := by
  induction fields with
  | nil => exact .nil
  | cons f fields ih =>
    cases fields with
    | nil =>
      rw [List.intercalate_singleton]
      exact .last (hne f (by simp)) (hfree f (by simp))
    | cons f' fields =>
      rw [List.intercalate_cons_cons, List.append_assoc, List.singleton_append]
      exact .cons (hfree f (by simp))
        (ih (fun g hg => hne g (by simp [hg])) fun g hg => hfree g (by simp [hg]))

/-- What is not in the fields and is no separator is not in the list. -/
theorem notMem_intercalate {sep c : α} {fields : List (List α)} (hsep : c ≠ sep)
    (hfields : ∀ f ∈ fields, c ∉ f) : c ∉ [sep].intercalate fields := by
  induction fields with
  | nil => simp
  | cons f fields ih =>
    have hf : c ∉ f := hfields f (by simp)
    cases fields with
    | nil => rwa [List.intercalate_singleton]
    | cons f' fields =>
      have hrest := ih fun g hg => hfields g (by simp [hg])
      rw [List.intercalate_cons_cons]
      simp [hf, hsep, hrest]

end TPST.Cut
