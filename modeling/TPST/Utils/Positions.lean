import Mathlib.Data.List.Infix
import TPST.Utils.Strings

/-!
# Positions in a string

`find` and `erase` of the C++ library, as the server calls them: the result of `find` is stored in
an `int`, so that a string that is not found has the position `-1`, and `erase` takes its position
as unsigned, so that `-1` is beyond the end of every string.

* `find_of_append`, `find_eq_neg_one_iff`: the position of what is found, and when nothing is.
* `erase_span`, `erase_neg`: what `erase` leaves, and that it raises at `-1`.
-/

namespace TPST

/-- The first place of `s` where `t` begins. -/
def findPos (t : List Char) : List Char → Option ℕ
  | [] => if t = [] then some 0 else none
  | c :: s => if t <+: c :: s then some 0 else (findPos t s).map (· + 1)

/-- `s.find(t)`, stored in an `int`. -/
def find (t s : List Char) : Int :=
  match findPos t s with
  | some position => position
  | none => -1

/-- `s.erase(pos, count)`, which raises when `pos` is beyond the end. -/
def erase (pos : Int) (count : ℕ) (s : List Char) : Except Fault (List Char) :=
  -- as an unsigned number, a negative `pos` is larger than any length
  if pos < 0 ∨ (s.length : Int) < pos then .error .outOfRange
  else .ok (s.take pos.toNat ++ s.drop (pos.toNat + count))

section Find

variable {s t pre post : List Char} {c : Char}

theorem findPos_eq_none_iff : findPos t s = none ↔ ¬ t <:+: s := by
  induction s with
  | nil => simp [findPos]
  | cons c s ih =>
    rw [findPos, List.infix_cons_iff]
    split
    · rename_i hstarts
      simp [hstarts]
    · rename_i hstarts
      simp [hstarts, ih]

/-- Nothing is found exactly if nothing is there. -/
theorem find_eq_neg_one_iff : find t s = -1 ↔ ¬ t <:+: s := by
  rw [← findPos_eq_none_iff, find]
  cases findPos t s with
  | none => simp
  | some position => simp

/-- What is at the start is found there. -/
theorem find_of_append : find t (t ++ s) = 0 := by
  have hpos : findPos t (t ++ s) = some 0 := by
    cases t with
    | nil => cases s <;> simp [findPos]
    | cons c t => exact if_pos (List.prefix_append _ _)
  rw [find, hpos]
  rfl

/-- What is there is found at a place where it is. -/
theorem exists_find (h : t <:+: s) :
    ∃ pre post, s = pre ++ t ++ post ∧ find t s = pre.length := by
  induction s with
  | nil =>
    obtain rfl := List.infix_nil.1 h
    exact ⟨[], [], rfl, rfl⟩
  | cons c s ih =>
    by_cases hstarts : t <+: c :: s
    · obtain ⟨post, hpost⟩ := hstarts
      exact ⟨[], post, hpost.symm, hpost ▸ find_of_append⟩
    · have htail : t <:+: s := (List.infix_cons_iff.1 h).resolve_left hstarts
      obtain ⟨pre, post, hs, hfind⟩ := ih htail
      refine ⟨c :: pre, post, by rw [hs]; rfl, ?_⟩
      have hpos : findPos t s ≠ none := fun hnone => findPos_eq_none_iff.1 hnone htail
      obtain ⟨position, hposition⟩ := Option.ne_none_iff_exists'.1 hpos
      rw [find, hposition] at hfind
      have hlength : position = pre.length := Int.ofNat.inj hfind
      rw [find, findPos, if_neg hstarts, hposition, hlength]
      rfl

/-- The first occurrence of a character. -/
theorem find_char (hfree : c ∉ pre) : find [c] (pre ++ c :: post) = pre.length := by
  have hpos : findPos [c] (pre ++ c :: post) = some pre.length := by
    induction pre with
    | nil => exact if_pos (by simp)
    | cons d pre ih =>
      rw [List.mem_cons, not_or] at hfree
      have hstarts : ¬ [c] <+: d :: (pre ++ c :: post) := by
        simp [List.cons_prefix_cons, hfree.1]
      rw [List.cons_append, findPos, if_neg hstarts, ih hfree.2]
      rfl
  rw [find, hpos]

end Find

section Erase

variable {pre mid post s : List Char} {pos : Int} {count : ℕ}

/-- The characters from a position on are erased, as many as are asked for. -/
theorem erase_span (hpos : pos = pre.length) (hcount : count = mid.length) :
    erase pos count (pre ++ mid ++ post) = .ok (pre ++ post) := by
  subst hpos hcount
  have hlength : ¬ ((pre.length : Int) < 0 ∨
      ((pre ++ mid ++ post).length : Int) < pre.length) := by
    simp only [List.length_append]
    omega
  rw [erase, if_neg hlength, Int.toNat_natCast, List.append_assoc, List.take_left, ← List.drop_drop,
    List.drop_left, List.drop_left]

/-- **Erasing at `-1` raises.** -/
theorem erase_neg (hpos : pos < 0) : erase pos count s = .error .outOfRange :=
  if_pos (.inl hpos)

end Erase

end TPST
