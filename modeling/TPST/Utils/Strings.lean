import Mathlib.Data.List.Basic
import Mathlib.Data.List.TakeWhile
import Mathlib.Tactic.Common

/-!
# Strings of the server

The string functions the server is built on: `split`, and the part of the C++ library that raises
(`stoi`) or has undefined behaviour (indexing). A string is worked on as its list of characters,
each of them a `char` of the source.
-/

namespace TPST

/-- How a computation of the server can go wrong: by an exception of the C++ library, or by
leaving the defined behaviour of the language (an access outside a string, a vector or a map). -/
inductive Fault
  | invalidArgument
  | outOfRange
  | undefinedBehaviour
  deriving DecidableEq, Repr

/-! ## `stoi` -/

/-- The white space that `strtol` skips. -/
def isSpace (c : Char) : Bool := c ∈ [' ', '\t', '\n', '\x0b', '\x0c', '\r']

/-- The value of a run of decimal digits. -/
def digitsValue (ds : List Char) : ℕ := ds.foldl (fun n c => 10 * n + (c.toNat - '0'.toNat)) 0

/-- The optional sign in front of the digits. -/
def readSign : List Char → Int × List Char
  | '-' :: s => (-1, s)
  | '+' :: s => (1, s)
  | s => (1, s)

/-- `std::stoi`: the number at the front of the string. What follows it is ignored; no digit at
all and a number that is no `int` are the two exceptions. -/
def stoi (s : List Char) : Except Fault Int :=
  let signed := readSign (s.dropWhile isSpace)
  let ds := signed.2.takeWhile Char.isDigit
  let v := signed.1 * digitsValue ds
  if ds = [] then .error .invalidArgument
  else if v < -2147483648 ∨ 2147483647 < v then .error .outOfRange
  else .ok v

/-! ## `split` -/

/-- The outer loop of `split`, on the part of the string that is not read yet: skip separators,
take what comes before the next one, and go on behind it. -/
def splitLoop (seperator : List Char) (s : List Char) : List (List Char) :=
  if _h : s = [] then []
  else
    let start := s.dropWhile (· ∈ seperator)
    let piece := start.takeWhile (· ∉ seperator)
    let rest := start.dropWhile (· ∉ seperator)
    if piece = [] then splitLoop seperator rest
    else piece :: splitLoop seperator rest
termination_by s.length
decreasing_by
  all_goals
    obtain ⟨c, t, rfl⟩ := List.exists_cons_of_ne_nil _h
    by_cases hc : c ∈ seperator
    · have h₁ := (List.dropWhile_suffix (l := t) (· ∈ seperator)).length_le
      have h₂ := (List.dropWhile_suffix (l := t.dropWhile (· ∈ seperator))
        (· ∉ seperator)).length_le
      simp only [List.dropWhile_cons, hc, decide_true, ↓reduceIte, List.length_cons]
      omega
    · have h₁ := (List.dropWhile_suffix (l := t) (· ∉ seperator)).length_le
      simp only [List.dropWhile_cons, hc, decide_false, Bool.false_eq_true, ↓reduceIte,
        not_false_eq_true, decide_true, List.length_cons]
      omega

/-- `split`: the pieces of `s` between separator characters, without the empty ones. -/
def split (s seperator : String) : List String :=
  (splitLoop seperator.toList s.toList).map String.ofList

/-- The pieces are not empty and hold no separator. -/
theorem mem_splitLoop {seperator s piece : List Char} (h : piece ∈ splitLoop seperator s) :
    piece ≠ [] ∧ ∀ c ∈ piece, c ∉ seperator := by
  induction s using splitLoop.induct seperator with
  | case1 => simp [splitLoop] at h
  | case2 s hs start piece' rest hempty ih =>
    rw [splitLoop, dif_neg hs] at h
    simp only [piece', start] at hempty
    simp only [hempty, ↓reduceIte] at h
    exact ih h
  | case3 s hs start piece' rest hne ih =>
    rw [splitLoop, dif_neg hs] at h
    simp only [piece', start] at hne
    simp only [hne, ↓reduceIte] at h
    rcases List.mem_cons.1 h with rfl | htail
    · refine ⟨hne, fun c hc => ?_⟩
      simpa using List.mem_takeWhile_imp hc
    · exact ih htail

/-- A string without separators is its own only piece. -/
theorem splitLoop_of_free {seperator piece : List Char} (hne : piece ≠ [])
    (hfree : ∀ c ∈ piece, c ∉ seperator) : splitLoop seperator piece = [piece] := by
  obtain ⟨c, rest, rfl⟩ := List.exists_cons_of_ne_nil hne
  have hstart : (c :: rest).dropWhile (· ∈ seperator) = c :: rest := by
    simp [hfree c (by simp)]
  have htake : (c :: rest).takeWhile (· ∉ seperator) = c :: rest := by
    rw [List.takeWhile_eq_self_iff]
    simpa using hfree
  have hdrop : (c :: rest).dropWhile (· ∉ seperator) = [] := by
    rw [List.dropWhile_eq_nil_iff]
    simpa using hfree
  rw [splitLoop, dif_neg hne]
  simp only [hstart, htake, hdrop, hne, ↓reduceIte]
  rw [splitLoop, dif_pos rfl]

/-- **A piece is not split again.** -/
theorem split_of_mem_split {s seperator piece : String} (h : piece ∈ split s seperator) :
    split piece seperator = [piece] := by
  obtain ⟨chars, hchars, rfl⟩ := List.mem_map.1 h
  obtain ⟨hne, hfree⟩ := mem_splitLoop hchars
  rw [split, String.toList_ofList, splitLoop_of_free hne hfree]
  rfl

end TPST
