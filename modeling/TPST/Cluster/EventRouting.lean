import Mathlib.Data.Int.ModEq
import TPST.Cluster.GroupManager
import TPST.Utils.Numerals
import TPST.Utils.Positions

/-!
# Events and their clusters

A client finds the cluster of an event by the number at the end of its name, `eventmessage_i`:
`getClusterDirFromEventMsg` cuts the name at an underscore, reads a number behind it, and takes its
remainder by the number of groups. The cut is made at the first underscore, and the remainder has
the sign of the number.

`routesToCluster_iff` says for which names this leads to the cluster of the number.
-/

namespace TPST

open Cut

namespace GroupConfig

variable (cfg : GroupConfig)

/-- `getClusterDirFromEvent`; `%` has the sign of its first operand. -/
def getClusterDirFromEvent (i : Int) : Path :=
  let clusterId := i.tmod cfg.gmGroupNumber
  gmMultinodeip ++ ["cluster" ++ toString clusterId]

/-- `getClusterDirFromEventMsg`. -/
def getClusterDirFromEventMsg (eventMsg : String) : Except Fault Path := do
  let startPosition := find ['_'] eventMsg.toList
  let eventMsg ← erase 0 (startPosition + 1).toNat eventMsg.toList
  let index ← stoi eventMsg
  return cfg.getClusterDirFromEvent index

/-- The event is led to one of the clusters, and this has the number `i` up to multiples of the
number of groups. -/
def RoutesToCluster (eventMsg : String) (i : Int) : Prop :=
  ∃ k < cfg.gmGroupNumber, k ≡ i [ZMOD cfg.gmGroupNumber] ∧
    cfg.getClusterDirFromEventMsg eventMsg = .ok (gmMultinodeip ++ ["cluster" ++ k.repr])

/-- A number that leads to a cluster: it is not negative, or a multiple of the number of groups. -/
def IndexOfCluster (j : Int) : Prop := 0 ≤ j ∨ (cfg.gmGroupNumber : Int) ∣ j

variable {cfg} {p pre : String} {rest : List Char} {i j : Int} {k : ℕ}

/-- A number leads to the cluster of its remainder unless the remainder is negative. -/
theorem getClusterDirFromEvent_eq (hk : k < cfg.gmGroupNumber) :
    cfg.getClusterDirFromEvent j = gmMultinodeip ++ ["cluster" ++ k.repr] ↔
      cfg.IndexOfCluster j ∧ k ≡ j [ZMOD cfg.gmGroupNumber] := by
  have hpos : (0 : Int) < cfg.gmGroupNumber := by omega
  have hlt := Int.emod_lt_of_pos j hpos
  have hk' : (k : Int) % cfg.gmGroupNumber = k := Int.emod_eq_of_lt (by omega) (by omega)
  rw [getClusterDirFromEvent, List.append_right_inj, List.singleton_inj, String.append_right_inj,
    toString_eq_repr_iff, Int.tmod_eq_emod, Int.ModEq, hk', IndexOfCluster]
  split
  · rename_i hindex
    rw [Nat.cast_zero, Int.sub_zero, and_iff_right hindex]
    exact eq_comm
  · rename_i hindex
    refine iff_of_false (fun h => ?_) fun h => hindex h.1
    rw [Int.natAbs_natCast] at h
    omega

/-- The name is cut at its first underscore. -/
theorem getClusterDirFromEventMsg_eq {eventMsg : String}
    (hmsg : eventMsg.toList = pre.toList ++ '_' :: rest) (hpre : '_' ∉ pre.toList) :
    cfg.getClusterDirFromEventMsg eventMsg = (stoi rest).map cfg.getClusterDirFromEvent := by
  have herase : erase 0 (pre.toList.length + 1) (pre.toList ++ '_' :: rest) = .ok rest := by
    have hspan := @erase_span [] (pre.toList ++ ['_']) rest 0 (pre.toList.length + 1) rfl (by simp)
    simpa using hspan
  rw [getClusterDirFromEventMsg, hmsg, find_char hpre,
    show ((pre.toList.length : Int) + 1).toNat = pre.toList.length + 1 by omega, herase]
  change (stoi rest >>= fun index => pure (cfg.getClusterDirFromEvent index)) = _
  cases stoi rest <;> rfl

/-- Where a name leads to: what is read behind its first underscore decides. -/
theorem routesToCluster_cut {eventMsg : String} (hg : 0 < cfg.gmGroupNumber)
    (hmsg : eventMsg.toList = pre.toList ++ '_' :: rest) (hpre : '_' ∉ pre.toList) :
    cfg.RoutesToCluster eventMsg i ↔
      ∃ j, Numeral rest j ∧ j ≡ i [ZMOD cfg.gmGroupNumber] ∧ cfg.IndexOfCluster j := by
  rw [RoutesToCluster, getClusterDirFromEventMsg_eq hmsg hpre]
  simp only [← stoi_eq_ok_iff]
  cases hread : stoi rest with
  | error x => simp [Except.map]
  | ok j =>
    simp only [Except.map, Except.ok.injEq, exists_eq_left']
    constructor
    · rintro ⟨k, hk, hmod, hdir⟩
      obtain ⟨hindex, hmod'⟩ := (getClusterDirFromEvent_eq hk).1 hdir
      exact ⟨hmod'.symm.trans hmod, hindex⟩
    · rintro ⟨hmod, hindex⟩
      have hpos : (0 : Int) < cfg.gmGroupNumber := by omega
      have hnonneg := Int.emod_nonneg j hpos.ne'
      have hlt := Int.emod_lt_of_pos j hpos
      have hrem : ((j % cfg.gmGroupNumber).toNat : Int) ≡ j [ZMOD cfg.gmGroupNumber] := by
        rw [Int.toNat_of_nonneg hnonneg]
        exact Int.mod_modEq j _
      have hk : (j % cfg.gmGroupNumber).toNat < cfg.gmGroupNumber := by omega
      exact ⟨_, hk, hrem.trans hmod, (getClusterDirFromEvent_eq hk).2 ⟨hindex, hrem⟩⟩

end GroupConfig

section Routing

variable {cfg : GroupConfig} {i : Int} {p q r : String}

/-- Without an underscore in the prefix the number itself is read. -/
theorem routesToCluster_of_free (hg : 0 < cfg.gmGroupNumber) (hi : IsInt i)
    (hfree : '_' ∉ p.toList) :
    cfg.RoutesToCluster (p ++ "_" ++ toString i) i ↔ cfg.IndexOfCluster i := by
  have hread : stoi (toString i).toList = .ok i := stoi_eq_ok_iff.2 (numeral_toString hi)
  have hmsg : (p ++ "_" ++ toString i).toList = p.toList ++ '_' :: (toString i).toList := by
    simp
  rw [GroupConfig.routesToCluster_cut hg hmsg hfree]
  simp only [← stoi_eq_ok_iff, hread, Except.ok.injEq, exists_eq_left']
  exact and_iff_right (.refl i)

/-- With an underscore in the prefix, what stands behind the first one is read, up to the next. -/
theorem routesToCluster_of_underscore (hg : 0 < cfg.gmGroupNumber) (hq : '_' ∉ q.toList) :
    cfg.RoutesToCluster (q ++ "_" ++ r ++ "_" ++ toString i) i ↔
      ∃ j, Numeral r.toList j ∧ j ≡ i [ZMOD cfg.gmGroupNumber] ∧ cfg.IndexOfCluster j := by
  have hmsg : (q ++ "_" ++ r ++ "_" ++ toString i).toList =
      q.toList ++ '_' :: (r.toList ++ '_' :: (toString i).toList) := by
    simp
  rw [GroupConfig.routesToCluster_cut hg hmsg hq]
  simp only [← stoi_eq_ok_iff,
    stoi_append_cons (c := '_') (by decide) (by decide) (by decide) (by decide)]

/-- **Which names lead to the cluster of their number**: those with a prefix without an underscore,
if the number is not negative or a multiple of the number of groups; and those with an underscore in
the prefix, if behind the first one such a number is read that has the same remainder. -/
theorem routesToCluster_iff (hg : 0 < cfg.gmGroupNumber) (hi : IsInt i) (p : String) :
    cfg.RoutesToCluster (p ++ "_" ++ toString i) i ↔
      ('_' ∉ p.toList ∧ cfg.IndexOfCluster i) ∨
        ∃ q r j, p = q ++ "_" ++ r ∧ '_' ∉ q.toList ∧ Numeral r.toList j ∧
          j ≡ i [ZMOD cfg.gmGroupNumber] ∧ cfg.IndexOfCluster j := by
  constructor
  · intro h
    by_cases hfree : '_' ∈ p.toList
    · obtain ⟨q, r, hp, hq⟩ := List.eq_append_cons_of_mem hfree
      have hp' : p = String.ofList q ++ "_" ++ String.ofList r :=
        String.toList_injective (by simp [hp])
      have hq' : '_' ∉ (String.ofList q).toList := by simpa using hq
      rw [hp', routesToCluster_of_underscore hg hq'] at h
      obtain ⟨j, hnumeral, hmod, hindex⟩ := h
      exact .inr ⟨_, _, j, hp', hq', hnumeral, hmod, hindex⟩
    · exact .inl ⟨hfree, (routesToCluster_of_free hg hi hfree).1 h⟩
  · rintro (⟨hfree, hindex⟩ | ⟨q, r, j, rfl, hq, hnumeral, hmod, hindex⟩)
    · exact (routesToCluster_of_free hg hi hfree).2 hindex
    · exact (routesToCluster_of_underscore hg hq).2 ⟨j, hnumeral, hmod, hindex⟩

end Routing

/-- The event of the tests with the number 7, and three groups. -/
theorem routesToCluster_seven :
    (GroupConfig.mk 3 2).RoutesToCluster ("fakeOnePubMultipleSub" ++ "_" ++ toString (7 : Int)) 7 :=
  (routesToCluster_iff (by decide) (by decide) "fakeOnePubMultipleSub").2
    (.inl ⟨by decide, .inl (by decide)⟩)

/-- A name with an underscore in front of the number's raises; a negative number leads to no
cluster. -/
theorem routesToCluster_fails :
    ¬ ∀ (cfg : GroupConfig) (p : String) (i : Int), 0 < cfg.gmGroupNumber → IsInt i →
      cfg.RoutesToCluster (p ++ "_" ++ toString i) i := by
  intro hall
  obtain ⟨k, -, -, hok⟩ := hall ⟨2, 2⟩ "event_message" 1 (by decide) (by decide)
  have hraises : (GroupConfig.mk 2 2).getClusterDirFromEventMsg
      ("event_message" ++ "_" ++ toString (1 : Int)) = .error .invalidArgument := by decide +kernel
  rw [hraises] at hok
  cases hok

example : (GroupConfig.mk 2 2).getClusterDirFromEventMsg "eventmessage_-1" =
    .ok [".", "multinodeip", "cluster-1"] := by decide +kernel

end TPST
