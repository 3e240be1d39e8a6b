import TPST.Utils.Strings

/-!
# The grid metadata of a publish

A publish matched by `META_GRID` carries its bounding box in its metadata, written
`GRID[<0,0>:<1,1>]%TS[5]`; a subscription carries `<0,0>:<2,2>`. The parsers of `strparse.cpp`
cut these strings by position, so a malformed one raises or leaves the string (`Fault`).
-/

namespace TPST

/-- `strSplit`: the numbers between commas. An empty string has none. -/
def strSplit (str : List Char) : Except Fault (List Int) :=
  if _h : str = [] then .ok []
  else do
    let n ← stoi (str.takeWhile (· ≠ ','))
    let ns ← strSplit ((str.dropWhile (· ≠ ',')).drop 1)
    return n :: ns
termination_by str.length
decreasing_by
  obtain ⟨c, t, rfl⟩ := List.exists_cons_of_ne_nil _h
  have h₁ := (List.dropWhile_suffix (l := c :: t) (· ≠ ',')).length_le
  rw [List.length_drop]
  simp only [List.length_cons] at h₁ ⊢
  omega

/-- `s.substr(pos, count)`, which raises when `pos` is beyond the end. -/
def substr (s : List Char) (pos count : ℕ) : Except Fault (List Char) :=
  if s.length < pos then .error .outOfRange else .ok ((s.drop pos).take count)

/-- `getGridFromRawMeta`: what stands between the brackets of the grid part. Erasing from a `%`
that is not there starts before the string. -/
def getGridFromRawMeta (publishedMeta : List Char) : Except Fault (List Char) :=
  if '%' ∈ publishedMeta then
    let rawGrid := publishedMeta.takeWhile (· ≠ '%')
    -- `rawGrid.length() - 6` is unsigned: below 6 it wraps to more than any length
    substr rawGrid 5 (if rawGrid.length < 6 then rawGrid.length else rawGrid.length - 6)
  else .error .undefinedBehaviour

/-- `getTsFromRawMeta`: the time step. Without a `%` nothing is erased. -/
def getTsFromRawMeta (publishedMeta : List Char) : Except Fault Int := do
  let rawTS :=
    if '%' ∈ publishedMeta then (publishedMeta.dropWhile (· ≠ '%')).drop 1 else publishedMeta
  -- as above, `rawTS.length() - 4` wraps below 4
  let inner ← substr rawTS 3 (if rawTS.length < 4 then rawTS.length else rawTS.length - 4)
  stoi inner

/-- One corner `<x,y>` without its first and last character. -/
def cornerInner (corner : List Char) : Except Fault (List Char) :=
  -- on an empty string `length() - 1` wraps, and `substr(0, ..)` is the string itself
  let front := corner.take (corner.length - 1)
  substr front 1 front.length

/-- `getbbxfromGridMeta`: the two corners of a box, lower bounds before the first colon. -/
def getbbxfromGridMeta (gridRawMeta : List Char) : Except Fault (List Int × List Int) :=
  if ':' ∈ gridRawMeta then do
    let lbmeta ← cornerInner (gridRawMeta.takeWhile (· ≠ ':'))
    let ubmeta ← cornerInner ((gridRawMeta.dropWhile (· ≠ ':')).drop 1)
    let lb ← strSplit lbmeta
    let ub ← strSplit ubmeta
    return (lb, ub)
  else .error .undefinedBehaviour

/-- `v[i]` on a vector: outside of it the behaviour is undefined. -/
def vectorAt (v : List Int) (i : ℕ) : Except Fault Int :=
  match v[i]? with
  | some n => .ok n
  | none => .error .undefinedBehaviour

/-- The four coordinates the match reads off a box: `lb[0]`, `lb[1]`, `ub[0]`, `ub[1]`. -/
def boxCorners (box : List Int × List Int) : Except Fault (Int × Int × Int × Int) := do
  let lbx ← vectorAt box.1 0
  let lby ← vectorAt box.1 1
  let ubx ← vectorAt box.2 0
  let uby ← vectorAt box.2 1
  return (lbx, lby, ubx, uby)

/-- The box of a published metadata string. -/
def publishedBox (publishedMeta : String) : Except Fault (Int × Int × Int × Int) := do
  let grid ← getGridFromRawMeta publishedMeta.toList
  let box ← getbbxfromGridMeta grid
  boxCorners box

/-- The box of a subscription's metadata string. -/
def subscribedBox (subMetadata : String) : Except Fault (Int × Int × Int × Int) := do
  let box ← getbbxfromGridMeta subMetadata.toList
  boxCorners box

example : publishedBox "GRID[<0,-1>:<1,12>]%TS[5]" = .ok (0, -1, 1, 12) := by decide +kernel

end TPST
