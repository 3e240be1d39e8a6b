import Mathlib.Data.Int.ConditionallyCompleteOrder
import Mathlib.Order.ConditionallyCompleteLattice.Basic
import Mathlib.Order.Interval.Set.Basic
import TPST.Server.Rules
import TPST.Utils.GridText

/-!
# Matching grids

`checkIfTriggureMetaGrid` reads a box off the published metadata and one off the subscription's, and
compares them by a separating axis. On texts as the clients write them, the comparison decides
whether the boxes have a point in common (`gridMatch_iff`).

Of other texts only one kind is tested for, a subscription without a colon. `rejectsMalformed_iff`
says which pairs of texts are handled as they should be: no exception, no access outside a string or
a vector, and no match unless both texts have their form.
-/

namespace TPST

/-! ## Boxes with a point in common -/

/-- Two boxes in the plane have a point in common unless one of the four sides separates them. -/
theorem exists_common_point {a b c d e f g h : Int} (hac : a ≤ c) (hbd : b ≤ d) (heg : e ≤ g)
    (hfh : f ≤ h) :
    (∃ p : ℤ × ℤ, p ∈ Set.Icc (a, b) (c, d) ∧ p ∈ Set.Icc (e, f) (g, h)) ↔
      e ≤ c ∧ a ≤ g ∧ b ≤ h ∧ f ≤ d := by
  have hinter : (∃ p : ℤ × ℤ, p ∈ Set.Icc (a, b) (c, d) ∧ p ∈ Set.Icc (e, f) (g, h)) ↔
      (Set.Icc (a, b) (c, d) ∩ Set.Icc (e, f) (g, h)).Nonempty := Iff.rfl
  rw [hinter, Set.Icc_inter_Icc, Set.nonempty_Icc]
  simp only [Prod.mk_sup_mk, Prod.mk_inf_mk, Prod.mk_le_mk, sup_le_iff, le_inf_iff]
  omega

section Match

variable {psw : PubsubWrapper} {publishedMeta : String} {a b c d e f g h : Int}

/-- The comparison of the boxes that are read. -/
theorem checkIfTriggureMetaGrid_of_corners (hpub : PublishedCorners publishedMeta a b c d)
    (hsub : SubscribedCorners psw.subMetadata e f g h) :
    checkIfTriggureMetaGrid psw publishedMeta =
      .ok (decide (e ≤ c ∧ a ≤ g ∧ b ≤ h ∧ f ≤ d)) := by
  have hsub' := subscribedBox_eq_ok_iff.2 hsub
  rw [checkIfTriggureMetaGrid, publishedBox_eq_ok_iff.2 hpub]
  dsimp only
  rw [if_neg (not_not_intro (mem_of_subscribedBox hsub')), hsub']
  dsimp only
  split
  · rw [decide_eq_false (by omega)]
  · split
    · rw [decide_eq_false (by omega)]
    · rw [decide_eq_true (by omega)]

/-- **Grid matching decides whether the boxes overlap.** For texts as the clients print them,
whatever the time step, the comparison comes to its end, and it is true exactly if the two boxes
have a point in common. -/
theorem gridMatch_iff (hints : ∀ n ∈ [a, b, c, d, e, f, g, h], IsInt n) (hac : a ≤ c) (hbd : b ≤ d)
    (heg : e ≤ g) (hfh : f ≤ h) (ts : Int) (hsub : psw.subMetadata = printBox [e, f] [g, h]) :
    ∃ overlap, checkIfTriggureMetaGrid psw (printGridMeta [a, b] [c, d] ts) = .ok overlap ∧
      (overlap = true ↔
        ∃ p : ℤ × ℤ, p ∈ Set.Icc (a, b) (c, d) ∧ p ∈ Set.Icc (e, f) (g, h)) := by
  simp only [List.forall_mem_cons, List.not_mem_nil, false_imp_iff, implies_true, and_true]
    at hints
  obtain ⟨ha, hb, hc, hd, he, hf, hg, hh⟩ := hints
  have hpub : PublishedCorners (printGridMeta [a, b] [c, d] ts) a b c d := by
    have hprinted : PublishedGrid ("GRID[" ++ printBox [a, b] [c, d] ++ "]%" ++
        ("TS[" ++ toString ts ++ "]")).toList ([a, b], [c, d]) :=
      publishedGrid_printBox (by simp [ha, hb]) (by simp [hc, hd]) _
    refine ⟨[], [], ?_⟩
    convert hprinted using 2
    simp only [printGridMeta, String.append_assoc]
    rfl
  have hbox : SubscribedCorners psw.subMetadata e f g h := by
    rw [hsub]
    exact ⟨[], [], box_printBox (by simp [he, hf]) (by simp [hg, hh])⟩
  refine ⟨_, checkIfTriggureMetaGrid_of_corners hpub hbox, ?_⟩
  rw [decide_eq_true_eq, exists_common_point hac hbd heg hfh]

end Match

/-- Two boxes that touch in the corner `(-1, 2)`. -/
theorem gridMatch_touching :
    ∃ overlap, checkIfTriggureMetaGrid (newWrapper "c" "addr" "META_GRID" "<-1,2>:<3,4>" ∅)
        (printGridMeta [-3, 0] [-1, 2] 5) = .ok overlap ∧
      (overlap = true ↔
        ∃ p : ℤ × ℤ, p ∈ Set.Icc (-3, 0) (-1, 2) ∧ p ∈ Set.Icc (-1, 2) (3, 4)) :=
  gridMatch_iff (by decide) (by decide) (by decide) (by decide) (by decide) 5 (by decide)

/-! ## Malformed texts -/

/-- The metadata of a publish has its form: a box with two corners in the plane, between `GRID[` and
`]%`. -/
def PublishedForm (publishedMeta : String) : Prop :=
  ∃ box a b c d rest, PlaneBox box a b c d ∧
    publishedMeta.toList = ("GRID[".toList ++ box ++ [']']) ++ '%' :: rest

/-- The metadata of a subscription has its form. -/
def SubscribedForm (subMetadata : String) : Prop :=
  ∃ a b c d, PlaneBox subMetadata.toList a b c d

/-- The comparison comes to its end, and a text that does not have its form does not match. -/
def RejectsMalformed (psw : PubsubWrapper) (publishedMeta : String) : Prop :=
  ∃ matched, checkIfTriggureMetaGrid psw publishedMeta = .ok matched ∧
    (¬ (PublishedForm publishedMeta ∧ SubscribedForm psw.subMetadata) → matched = false)

/-- The published text carries two corners of two or more numbers. So does the subscription's, or
it has no colon. If both do, they have their form, or the boxes that are read are apart. -/
def HandlesTexts (psw : PubsubWrapper) (publishedMeta : String) : Prop :=
  ∃ a b c d, PublishedCorners publishedMeta a b c d ∧
    (':' ∉ psw.subMetadata.toList ∨
      ∃ e f g h, SubscribedCorners psw.subMetadata e f g h ∧
        ((PublishedForm publishedMeta ∧ SubscribedForm psw.subMetadata) ∨
          ¬ (e ≤ c ∧ a ≤ g ∧ b ≤ h ∧ f ≤ d)))

section Malformed

variable {psw : PubsubWrapper} {publishedMeta : String}

/-- The comparison comes to its end only if the published text carries its corners, and the
subscription's does, too, or has no colon. -/
theorem corners_of_eq_ok {matched : Bool}
    (hok : checkIfTriggureMetaGrid psw publishedMeta = .ok matched) :
    ∃ a b c d, PublishedCorners publishedMeta a b c d ∧
      (':' ∉ psw.subMetadata.toList ∨ ∃ e f g h, SubscribedCorners psw.subMetadata e f g h) := by
  rw [checkIfTriggureMetaGrid] at hok
  cases hpub : publishedBox publishedMeta with
  | error x => simp [hpub] at hok
  | ok box =>
    obtain ⟨a, b, c, d⟩ := box
    refine ⟨a, b, c, d, publishedBox_eq_ok_iff.1 hpub, ?_⟩
    rw [hpub] at hok
    dsimp only at hok
    split at hok
    · rename_i hcolon
      exact .inl hcolon
    · cases hsub : subscribedBox psw.subMetadata with
      | error x => simp [hsub] at hok
      | ok box' =>
        obtain ⟨e, f, g, h⟩ := box'
        exact .inr ⟨e, f, g, h, subscribedBox_eq_ok_iff.1 hsub⟩

/-- **Which texts are handled as they should be**: every published text and every subscription's. -/
theorem rejectsMalformed_iff (psw : PubsubWrapper) (publishedMeta : String) :
    RejectsMalformed psw publishedMeta ↔ HandlesTexts psw publishedMeta := by
  constructor
  · rintro ⟨matched, hok, hform⟩
    obtain ⟨a, b, c, d, hpub, hsub⟩ := corners_of_eq_ok hok
    refine ⟨a, b, c, d, hpub, hsub.imp_right ?_⟩
    rintro ⟨e, f, g, h, hsub⟩
    refine ⟨e, f, g, h, hsub, ?_⟩
    rw [checkIfTriggureMetaGrid_of_corners hpub hsub, Except.ok.injEq] at hok
    by_contra hnot
    rw [not_or, not_not] at hnot
    have hfalse := hform hnot.1
    rw [← hok, decide_eq_false_iff_not] at hfalse
    exact hfalse hnot.2
  · rintro ⟨a, b, c, d, hpub, hcolon | ⟨e, f, g, h, hsub, hform | hapart⟩⟩
    · refine ⟨false, ?_, fun _ => rfl⟩
      rw [checkIfTriggureMetaGrid, publishedBox_eq_ok_iff.2 hpub]
      exact if_pos hcolon
    · exact ⟨_, checkIfTriggureMetaGrid_of_corners hpub hsub, fun hnot => absurd hform hnot⟩
    · exact ⟨_, checkIfTriggureMetaGrid_of_corners hpub hsub, fun _ => decide_eq_false hapart⟩

/-- Texts in their form are handled, and compared by the corners they carry. -/
theorem handlesTexts_of_form (hpub : PublishedForm publishedMeta)
    (hsub : SubscribedForm psw.subMetadata) : HandlesTexts psw publishedMeta := by
  obtain ⟨box, a, b, c, d, rest, hbox, hmeta⟩ := id hpub
  obtain ⟨e, f, g, h, hbox'⟩ := id hsub
  have hfree : '%' ∉ "GRID[".toList ++ box ++ [']'] := by
    simp [hbox.notMem_percent]
  have hcorners : PublishedCorners publishedMeta a b c d :=
    ⟨[], [], "GRID[".toList, box, ']', rest, hmeta, rfl, hfree, hbox.box⟩
  exact ⟨a, b, c, d, hcorners, .inr ⟨e, f, g, h, ⟨[], [], hbox'.box⟩, .inl ⟨hpub, hsub⟩⟩⟩

end Malformed

/-- A published text without a percent sign. -/
theorem rejectsMalformed_fails :
    ¬ ∀ (psw : PubsubWrapper) (publishedMeta : String), RejectsMalformed psw publishedMeta := by
  intro hall
  obtain ⟨matched, hok, -⟩ := hall (newWrapper "c" "addr" "META_GRID" "<0,0>:<2,2>" ∅) "testMeta"
  have hfault : checkIfTriggureMetaGrid (newWrapper "c" "addr" "META_GRID" "<0,0>:<2,2>" ∅)
      "testMeta" = .error .undefinedBehaviour := by decide +kernel
  rw [hfault] at hok
  cases hok

end TPST
