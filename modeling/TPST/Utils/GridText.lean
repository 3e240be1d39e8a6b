import Mathlib.Data.List.Forall2
import TPST.Utils.Numerals
import TPST.Utils.Strparse

/-!
# The texts of a grid

What the parsers of `strparse.cpp` accept, said without them. Their positions are counted, not
looked at: the brackets of a corner and the word in front of a grid may be any characters, a corner
may have any number of coordinates, and what follows the digits of a coordinate is ignored.

* `PublishedGrid`, `Box`, `Corner`, `Coordinates`: the texts accepted, with what is read off them
  (`publishedBox_eq_ok_iff`, `subscribedBox_eq_ok_iff`).
* `PlaneBox`: a box in the plane as it should be written, `<0,0>:<2,2>`, with two numbers in each
  corner and nothing else (`PlaneBox.box`).
* `printGridMeta`: a grid written in decimal. It is read back as it was, in any dimension
  (`parse_printGridMeta`).
-/

namespace TPST

open Cut

/-- Numerals between commas. -/
def Coordinates (text : List Char) (ns : List Int) : Prop :=
  ∃ fields, Fields ',' text fields ∧ List.Forall₂ Numeral fields ns

/-- Coordinates between two characters. -/
def Corner (text : List Char) (ns : List Int) : Prop :=
  ∃ first inner last, text = first :: inner ++ [last] ∧ Coordinates inner ns

/-- Two corners, cut at the first colon. -/
def Box (text : List Char) (box : List Int × List Int) : Prop :=
  ∃ lb ub, text = lb ++ ':' :: ub ∧ ':' ∉ lb ∧ Corner lb box.1 ∧ Corner ub box.2

/-- Five characters, a box, a character, and then the first percent sign. -/
def PublishedGrid (text : List Char) (box : List Int × List Int) : Prop :=
  ∃ front inner last rest, text = (front ++ inner ++ [last]) ++ '%' :: rest ∧ front.length = 5 ∧
    '%' ∉ front ++ inner ++ [last] ∧ Box inner box

/-- The published metadata carries a box with the lower bounds `a`, `b` and the upper bounds `c`,
`d` in its first two dimensions. -/
def PublishedCorners (publishedMeta : String) (a b c d : Int) : Prop :=
  ∃ lbs ubs, PublishedGrid publishedMeta.toList (a :: b :: lbs, c :: d :: ubs)

/-- The metadata of a subscription is such a box. -/
def SubscribedCorners (subMetadata : String) (a b c d : Int) : Prop :=
  ∃ lbs ubs, Box subMetadata.toList (a :: b :: lbs, c :: d :: ubs)

/-! ## What the parsers accept -/

section Accepted

variable {text : List Char} {ns : List Int} {box : List Int × List Int} {n : Int}

/-- A field that a comma closes, and the rest. -/
theorem strSplit_cons {field rest : List Char} (hfree : ',' ∉ field) :
    strSplit (field ++ ',' :: rest) = .ok ns ↔
      ∃ n ns', ns = n :: ns' ∧ Numeral field n ∧ strSplit rest = .ok ns' := by
  rw [strSplit, dif_neg (by simp), takeWhile_cut hfree, dropWhile_cut hfree]
  simp only [List.drop_succ_cons, List.drop_zero, ← stoi_eq_ok_iff]
  cases hfield : stoi field with
  | error x => simp [bind, Except.bind]
  | ok n =>
    cases hrest : strSplit rest with
    | error x => simp [bind, Except.bind]
    | ok ns' => simp [bind, Except.bind, pure, Except.pure, eq_comm]

/-- The last field. -/
theorem strSplit_last {field : List Char} (hne : field ≠ []) (hfree : ',' ∉ field) :
    strSplit field = .ok ns ↔ ∃ n, ns = [n] ∧ Numeral field n := by
  rw [strSplit, dif_neg hne, takeWhile_free hfree, dropWhile_free hfree, List.drop_nil, strSplit,
    dif_pos rfl]
  simp only [← stoi_eq_ok_iff]
  cases hfield : stoi field with
  | error x => simp [bind, Except.bind]
  | ok n => simp [bind, Except.bind, pure, Except.pure, eq_comm]

theorem coordinates_of_strSplit (h : strSplit text = .ok ns) : Coordinates text ns := by
  induction hlength : text.length using Nat.strong_induction_on generalizing text ns with
  | _ length ih =>
    rcases eq_or_ne text [] with rfl | hne
    · rw [strSplit, dif_pos rfl] at h
      obtain rfl := Except.ok.inj h
      exact ⟨[], .nil, .nil⟩
    by_cases hcomma : ',' ∈ text
    · obtain ⟨field, rest, rfl, hfree⟩ := List.eq_append_cons_of_mem hcomma
      obtain ⟨n, ns', rfl, hn, hrest⟩ := (strSplit_cons hfree).1 h
      have hshort : rest.length < length := by
        rw [← hlength, List.length_append, List.length_cons]
        omega
      obtain ⟨fields, hfields, hnumerals⟩ := ih _ hshort hrest rfl
      exact ⟨field :: fields, .cons hfree hfields, .cons hn hnumerals⟩
    · obtain ⟨n, rfl, hn⟩ := (strSplit_last hne hcomma).1 h
      exact ⟨[text], .last hne hcomma, .cons hn .nil⟩

theorem strSplit_of_coordinates (h : Coordinates text ns) : strSplit text = .ok ns := by
  obtain ⟨fields, hfields, hnumerals⟩ := h
  induction hfields generalizing ns with
  | nil =>
    cases hnumerals
    rw [strSplit, dif_pos rfl]
  | last hne hfree =>
    cases hnumerals with
    | cons hn hnil =>
      cases hnil
      exact (strSplit_last hne hfree).2 ⟨_, rfl, hn⟩
  | cons hfree _ ih =>
    cases hnumerals with
    | cons hn hrest => exact (strSplit_cons hfree).2 ⟨_, _, rfl, hn, ih hrest⟩

/-- **What `strSplit` reads** are the numerals between the commas. -/
theorem strSplit_eq_ok_iff : strSplit text = .ok ns ↔ Coordinates text ns :=
  ⟨coordinates_of_strSplit, strSplit_of_coordinates⟩

/-- What is left of a corner: all but its first and its last character. -/
theorem cornerInner_eq_ok_iff {inner : List Char} :
    cornerInner text = .ok inner ↔ ∃ first last, text = first :: inner ++ [last] := by
  unfold cornerInner substr
  rcases List.eq_nil_or_concat text with rfl | ⟨front, last, rfl⟩
  · simp
  · simp only [List.concat_eq_append, List.length_append, List.length_singleton,
      Nat.add_sub_cancel, List.take_left]
    cases front with
    | nil => simp
    | cons first inner' =>
      have htake : (inner'.take (inner'.length + 1)) = inner' := List.take_of_length_le (by omega)
      simp only [List.length_cons, List.drop_succ_cons, List.drop_zero, htake]
      rw [if_neg (by omega)]
      constructor
      · intro h
        exact ⟨first, last, by rw [Except.ok.inj h]⟩
      · rintro ⟨first', last', heq⟩
        have hfront := (List.append_inj' heq rfl).1
        rw [(List.cons.inj hfront).2]

theorem corner_iff : Corner text ns ↔ ∃ inner, cornerInner text = .ok inner ∧
    strSplit inner = .ok ns := by
  simp only [Corner, cornerInner_eq_ok_iff, strSplit_eq_ok_iff]
  constructor
  · rintro ⟨first, inner, last, heq, hns⟩
    exact ⟨inner, ⟨first, last, heq⟩, hns⟩
  · rintro ⟨inner, ⟨first, last, heq⟩, hns⟩
    exact ⟨first, inner, last, heq, hns⟩

/-- **What `getbbxfromGridMeta` reads** are the two corners. -/
theorem getbbxfromGridMeta_eq_ok_iff : getbbxfromGridMeta text = .ok box ↔ Box text box := by
  by_cases hcolon : ':' ∈ text
  · obtain ⟨lb, ub, rfl, hfree⟩ := List.eq_append_cons_of_mem hcolon
    have hbox : Box (lb ++ ':' :: ub) box ↔ Corner lb box.1 ∧ Corner ub box.2 := by
      constructor
      · rintro ⟨lb', ub', heq, hfree', hcorners⟩
        have hlb : (lb ++ ':' :: ub).takeWhile (· ≠ ':') = lb := takeWhile_cut hfree
        have hub : (lb ++ ':' :: ub).dropWhile (· ≠ ':') = ':' :: ub := dropWhile_cut hfree
        rw [heq, takeWhile_cut hfree'] at hlb
        rw [heq, dropWhile_cut hfree'] at hub
        rwa [← hlb, ← (List.cons.inj hub).2]
      · intro hcorners
        exact ⟨lb, ub, rfl, hfree, hcorners⟩
    rw [hbox, corner_iff, corner_iff, getbbxfromGridMeta, if_pos hcolon, takeWhile_cut hfree,
      dropWhile_cut hfree, List.drop_succ_cons, List.drop_zero]
    obtain ⟨lbs, ubs⟩ := box
    cases cornerInner lb with
    | error x => simp [bind, Except.bind]
    | ok lbmeta =>
      cases cornerInner ub with
      | error x => simp [bind, Except.bind]
      | ok ubmeta =>
        cases hlbs : strSplit lbmeta with
        | error x => simp [bind, Except.bind, hlbs]
        | ok lb =>
          cases hubs : strSplit ubmeta with
          | error x => simp [bind, Except.bind, hlbs, hubs]
          | ok ub => simp [bind, Except.bind, pure, Except.pure, hlbs, hubs]
  · rw [getbbxfromGridMeta, if_neg hcolon]
    refine iff_of_false (by simp) ?_
    rintro ⟨lb, ub, rfl, -⟩
    simp at hcolon

theorem substr_between (front inner back : List Char) :
    substr (front ++ inner ++ back) front.length inner.length = .ok inner := by
  unfold substr
  rw [if_neg (by simp), List.append_assoc, List.drop_left, List.take_left]

/-- What `getGridFromRawMeta` leaves of a published text. -/
theorem getGridFromRawMeta_cut {front inner rest : List Char} {last : Char}
    (hfront : front.length = 5) (hfree : '%' ∉ front ++ inner ++ [last]) :
    getGridFromRawMeta ((front ++ inner ++ [last]) ++ '%' :: rest) = .ok inner := by
  have hlength : (front ++ inner ++ [last]).length = inner.length + 6 := by
    simp only [List.length_append, List.length_singleton, hfront]
    omega
  have hbetween := substr_between front inner [last]
  rw [hfront] at hbetween
  rw [getGridFromRawMeta, if_pos (by simp), takeWhile_cut hfree]
  dsimp only
  rw [hlength, if_neg (by omega), Nat.add_sub_cancel, hbetween]

/-- **What is read off a published text.** -/
theorem publishedGrid_iff :
    PublishedGrid text box ↔
      ∃ inner, getGridFromRawMeta text = .ok inner ∧ getbbxfromGridMeta inner = .ok box := by
  simp only [getbbxfromGridMeta_eq_ok_iff]
  constructor
  · rintro ⟨front, inner, last, rest, rfl, hfront, hfree, hbox⟩
    exact ⟨inner, getGridFromRawMeta_cut hfront hfree, hbox⟩
  · rintro ⟨inner, hgrid, hbox⟩
    by_cases hpercent : '%' ∈ text
    · obtain ⟨raw, rest, rfl, hfree⟩ := List.eq_append_cons_of_mem hpercent
      rcases Nat.lt_or_ge raw.length 6 with hshort | hlong
      · -- nothing is left to hold a box
        rw [getGridFromRawMeta, if_pos hpercent, takeWhile_cut hfree] at hgrid
        dsimp only at hgrid
        rw [if_pos hshort, substr] at hgrid
        split at hgrid
        · cases hgrid
        · rw [List.drop_eq_nil_of_le (by omega), List.take_nil] at hgrid
          obtain ⟨lb, ub, hnil, -⟩ := Except.ok.inj hgrid ▸ hbox
          simp at hnil
      · have hraw := (List.take_append_drop 5 raw).symm
        rcases List.eq_nil_or_concat (raw.drop 5) with hnil | ⟨inner', last, hconcat⟩
        · rw [List.drop_eq_nil_iff] at hnil
          omega
        · rw [hconcat, List.concat_eq_append, ← List.append_assoc] at hraw
          have hfront : (raw.take 5).length = 5 := by
            rw [List.length_take]
            omega
          rw [hraw] at hgrid hfree
          rw [getGridFromRawMeta_cut hfront hfree] at hgrid
          obtain rfl := Except.ok.inj hgrid
          exact ⟨raw.take 5, inner', last, rest, by rw [← hraw], hfront, hfree, hbox⟩
    · rw [getGridFromRawMeta, if_neg hpercent] at hgrid
      cases hgrid

/-- The coordinates read off a box: the first two of each corner. -/
theorem boxCorners_eq_ok_iff {a b c d : Int} :
    boxCorners box = .ok (a, b, c, d) ↔ ∃ lbs ubs, box = (a :: b :: lbs, c :: d :: ubs) := by
  obtain ⟨lb, ub⟩ := box
  rcases lb with _ | ⟨a', _ | ⟨b', lbs⟩⟩ <;> rcases ub with _ | ⟨c', _ | ⟨d', ubs⟩⟩ <;>
    simp [boxCorners, vectorAt, bind, Except.bind, pure, Except.pure, and_assoc]

end Accepted

section Corners

variable {publishedMeta subMetadata : String} {a b c d : Int}

theorem subscribedBox_eq_ok_iff :
    subscribedBox subMetadata = .ok (a, b, c, d) ↔ SubscribedCorners subMetadata a b c d := by
  unfold subscribedBox SubscribedCorners
  simp only [← getbbxfromGridMeta_eq_ok_iff]
  cases getbbxfromGridMeta subMetadata.toList with
  | error x => simp [bind, Except.bind]
  | ok box => simpa [bind, Except.bind] using boxCorners_eq_ok_iff

theorem publishedBox_eq_ok_iff :
    publishedBox publishedMeta = .ok (a, b, c, d) ↔ PublishedCorners publishedMeta a b c d := by
  unfold publishedBox PublishedCorners
  simp only [publishedGrid_iff]
  cases hgrid : getGridFromRawMeta publishedMeta.toList with
  | error x => simp [bind, Except.bind]
  | ok grid =>
    cases hbox : getbbxfromGridMeta grid with
    | error x => simp [bind, Except.bind, hbox]
    | ok box => simpa [bind, Except.bind, hbox] using boxCorners_eq_ok_iff

end Corners

/-! ## Boxes in the plane -/

/-- A corner in the plane, `<x,y>`. -/
def PlaneCorner (text : List Char) (x y : Int) : Prop :=
  ∃ first second, text = '<' :: (first ++ ',' :: second) ++ ['>'] ∧ Integer first x ∧
    Integer second y

/-- A box in the plane, `<a,b>:<c,d>`. -/
def PlaneBox (text : List Char) (a b c d : Int) : Prop :=
  ∃ lb ub, text = lb ++ ':' :: ub ∧ PlaneCorner lb a b ∧ PlaneCorner ub c d

section Plane

variable {text : List Char} {a b c d : Int}

theorem PlaneCorner.corner (h : PlaneCorner text a b) : Corner text [a, b] := by
  obtain ⟨first, second, rfl, hfirst, hsecond⟩ := h
  refine ⟨'<', first ++ ',' :: second, '>', rfl, [first, second], ?_, ?_⟩
  · exact .cons (hfirst.notMem (by simp)) (.last hsecond.ne_nil (hsecond.notMem (by simp)))
  · exact .cons hfirst.numeral (.cons hsecond.numeral .nil)

theorem PlaneCorner.notMem {sep : Char} (h : PlaneCorner text a b) (hsep : sep ∈ [':', '%']) :
    sep ∉ text := by
  obtain ⟨first, second, rfl, hfirst, hsecond⟩ := h
  have hfields : sep ∉ first ∧ sep ∉ second :=
    ⟨hfirst.notMem (by simp_all), hsecond.notMem (by simp_all)⟩
  simp only [List.mem_cons, List.not_mem_nil, or_false] at hsep
  rcases hsep with rfl | rfl <;> simp [hfields]

/-- **A box in the plane is read** with the numbers it carries. -/
theorem PlaneBox.box (h : PlaneBox text a b c d) : Box text ([a, b], [c, d]) := by
  obtain ⟨lb, ub, rfl, hlb, hub⟩ := h
  exact ⟨lb, ub, rfl, hlb.notMem (by simp), hlb.corner, hub.corner⟩

theorem PlaneBox.notMem_percent (h : PlaneBox text a b c d) : '%' ∉ text := by
  obtain ⟨lb, ub, rfl, hlb, hub⟩ := h
  have hlower : '%' ∉ lb := hlb.notMem (by simp)
  have hupper : '%' ∉ ub := hub.notMem (by simp)
  simp [hlower, hupper]

end Plane

/-! ## Grids in decimal -/

/-- A corner, `<0,0>`. -/
def printCorner (ns : List Int) : String := "<" ++ ",".intercalate (ns.map toString) ++ ">"

/-- A box, `<0,0>:<2,2>`. -/
def printBox (lb ub : List Int) : String := printCorner lb ++ ":" ++ printCorner ub

/-- A published box with its time step, `GRID[<0,0>:<1,1>]%TS[5]`. -/
def printGridMeta (lb ub : List Int) (ts : Int) : String :=
  "GRID[" ++ printBox lb ub ++ "]%TS[" ++ toString ts ++ "]"

section Print

variable {lb ub ns : List Int}

/-- The numbers of a corner, with commas between them. -/
def printedInner (ns : List Int) : List Char :=
  [','].intercalate (ns.map fun n => (toString n).toList)

theorem toList_printCorner (ns : List Int) :
    (printCorner ns).toList = '<' :: printedInner ns ++ ['>'] := by
  rw [printCorner, String.toList_append, String.toList_append, String.toList_intercalate,
    List.map_map]
  rfl

theorem coordinates_printedInner (hns : ∀ n ∈ ns, IsInt n) :
    Coordinates (printedInner ns) ns := by
  refine ⟨ns.map fun n => (toString n).toList, fields_intercalate ?_ ?_, ?_⟩
  · simp only [List.mem_map, forall_exists_index, and_imp, forall_apply_eq_imp_iff₂]
    exact fun n _ => (free_toString n).1
  · simp only [List.mem_map, forall_exists_index, and_imp, forall_apply_eq_imp_iff₂]
    exact fun n _ => (free_toString n).2 ',' (by simp)
  · rw [List.forall₂_map_left_iff, List.forall₂_same]
    exact fun n hn => numeral_toString (hns n hn)

theorem notMem_printCorner {c : Char} (hc : c ∈ [':', '%']) (ns : List Int) :
    c ∉ (printCorner ns).toList := by
  have hinner : c ∉ printedInner ns := by
    refine notMem_intercalate (by rintro rfl; simp at hc) ?_
    simp only [List.mem_map, forall_exists_index, and_imp, forall_apply_eq_imp_iff₂]
    exact fun n _ => (free_toString n).2 c (by simp_all)
  rw [toList_printCorner]
  simp only [List.mem_cons, List.not_mem_nil, or_false] at hc
  rcases hc with rfl | rfl <;> simp [hinner]

theorem corner_printCorner (hns : ∀ n ∈ ns, IsInt n) : Corner (printCorner ns).toList ns :=
  ⟨'<', printedInner ns, '>', toList_printCorner ns, coordinates_printedInner hns⟩

/-- **A printed box is read back.** -/
theorem box_printBox (hlb : ∀ n ∈ lb, IsInt n) (hub : ∀ n ∈ ub, IsInt n) :
    Box (printBox lb ub).toList (lb, ub) := by
  refine ⟨(printCorner lb).toList, (printCorner ub).toList, ?_, notMem_printCorner (by simp) lb,
    corner_printCorner hlb, corner_printCorner hub⟩
  rw [printBox, String.toList_append, String.toList_append, List.append_assoc]
  rfl

theorem notMem_printBox (lb ub : List Int) : '%' ∉ (printBox lb ub).toList := by
  rw [printBox, String.toList_append, String.toList_append]
  simp [notMem_printCorner (c := '%') (by simp)]

/-- What follows the percent sign makes no difference. -/
theorem publishedGrid_printBox (hlb : ∀ n ∈ lb, IsInt n) (hub : ∀ n ∈ ub, IsInt n)
    (rest : String) :
    PublishedGrid ("GRID[" ++ printBox lb ub ++ "]%" ++ rest).toList (lb, ub) := by
  refine ⟨"GRID[".toList, (printBox lb ub).toList, ']', rest.toList, ?_, rfl, ?_,
    box_printBox hlb hub⟩
  · simp only [String.toList_append, List.append_assoc]
    rfl
  · simp [notMem_printBox]

/-- **Parsing undoes printing**, in any dimension: the grid of a printed text holds the two corners
as they were, and the time step is read back. -/
theorem parse_printGridMeta (hlb : ∀ n ∈ lb, IsInt n) (hub : ∀ n ∈ ub, IsInt n) {ts : Int}
    (hts : IsInt ts) :
    (getGridFromRawMeta (printGridMeta lb ub ts).toList).bind getbbxfromGridMeta = .ok (lb, ub) ∧
      getTsFromRawMeta (printGridMeta lb ub ts).toList = .ok ts := by
  have hmeta : printGridMeta lb ub ts =
      "GRID[" ++ printBox lb ub ++ "]%" ++ ("TS[" ++ toString ts ++ "]") := by
    simp only [printGridMeta, String.append_assoc]
    rfl
  constructor
  · rw [hmeta]
    obtain ⟨inner, hgrid, hbox⟩ := publishedGrid_iff.1 (publishedGrid_printBox hlb hub _)
    rw [hgrid]
    exact hbox
  · have hcut : (printGridMeta lb ub ts).toList =
        ("GRID[" ++ printBox lb ub ++ "]").toList ++ '%' ::
          ("TS[".toList ++ (toString ts).toList ++ [']']) := by
      rw [hmeta]
      simp only [String.toList_append, List.append_assoc]
      rfl
    have hfree : '%' ∉ ("GRID[" ++ printBox lb ub ++ "]").toList := by
      simp [notMem_printBox]
    have hlength : ("TS[".toList ++ (toString ts).toList ++ [']']).length =
        (toString ts).toList.length + 4 := by
      rw [List.length_append, List.length_append, Nat.add_comm "TS[".toList.length]
      rfl
    rw [getTsFromRawMeta, if_pos (by rw [hcut]; simp), hcut, dropWhile_cut hfree,
      List.drop_succ_cons, List.drop_zero, hlength, if_neg (by omega), Nat.add_sub_cancel,
      show 3 = "TS[".toList.length from rfl, substr_between]
    exact stoi_eq_ok_iff.2 (numeral_toString hts)

/-- A box in the plane, with a negative corner. -/
theorem parse_printGridMeta_plane :
    (getGridFromRawMeta (printGridMeta [0, -1] [1, 12] 5).toList).bind getbbxfromGridMeta =
        .ok ([0, -1], [1, 12]) ∧
      getTsFromRawMeta (printGridMeta [0, -1] [1, 12] 5).toList = .ok 5 :=
  parse_printGridMeta (by decide) (by decide) (by decide)

end Print

end TPST
