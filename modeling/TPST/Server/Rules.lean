import TPST.Server.Topics

/-!
# The rule a client asked for

A subscription says by which rule it is to be matched, and a publish says by which rule it
matches. `pubsubPublish` goes by the publish and does not look at the subscription: a publish by
name counts for clients subscribed by box, too, and a publish by box compares the metadata of
clients subscribed by name. Clients whose notification is pending are matched like the others, and
their metadata is overwritten. `byRule_iff` says when a publish matches every client by the rule it
asked for all the same, and `runByRule_iff` says it for the runs of a server, with any number of
subscriptions, publishes and notifications in any order.
-/

namespace TPST

open Std

/-- The box of a published metadata string and the box of a subscription's overlap. -/
def Overlaps (publishedMeta subMetadata : String) : Prop :=
  ∃ plbx plby pubx puby slbx slby subx suby,
    publishedBox publishedMeta = .ok (plbx, plby, pubx, puby) ∧
      subscribedBox subMetadata = .ok (slbx, slby, subx, suby) ∧
      slbx ≤ pubx ∧ plbx ≤ subx ∧ plby ≤ suby ∧ slby ≤ puby

/-- The events of the publish that are counted in the wrapper at `p`. -/
def counted (mt : String) (L : List String) (s : Store) (p : Place) : List String :=
  if mt = "NAME" then s.eventsAt p.1 L else []

/-- The wrapper's required counts are reached before the publish or in its course. -/
def CountsReached (mt : String) (L : List String) (s : Store) (p : Place)
    (w : PubsubWrapper) : Prop :=
  ∃ es, es <+: counted mt L s p ∧ MetAfter w es

/-- The wrapper with its trigger cleared. -/
def PubsubWrapper.cleared (w : PubsubWrapper) : PubsubWrapper := { w with iftrigure := false }

/-- The store with the trigger of the wrapper at `p` cleared. -/
def Store.cleared (s : Store) (p : Place) : Store :=
  s.modifyWrapper p.1 p.2 PubsubWrapper.cleared

/-- The walk of the publish marks the wrapper at `p`, be it pending already or not. The walk does
not read the trigger, so it marks the wrapper if it leaves the cleared one triggered. -/
def Store.Marked (s : Store) (mt md : String) (L : List String) (p : Place) : Prop :=
  ∃ w', (pubsubPublish L mt md (s.cleared p)).state.wrapper? p.1 p.2 = some w' ∧
    w'.iftrigure = true

/-- A publish triggers each client by the rule it asked for, pending ones included: by box, only if
the boxes overlap; by name, only if its counts are reached. -/
def ByRule (L : List String) (mt md : String) (s : Store) : Prop :=
  ∀ (p : Place) w, s.wrapper? p.1 p.2 = some w → s.Marked mt md L p →
    (w.matchType = "META_GRID" → Overlaps md w.subMetadata) ∧
      (w.matchType = "NAME" → CountsReached mt L s p w)

/-- The other rule does not match: a publish by name completes no counts of a client subscribed by
box, unless its box overlaps; a publish by box comes, before its first fault, to no client
subscribed by name whose counts are not met and whose metadata is a box that overlaps. -/
def OtherRuleFails (L : List String) (mt md : String) (s : Store) : Prop :=
  ∀ (p : Place) w, s.wrapper? p.1 p.2 = some w →
    (mt = "NAME" → w.matchType = "META_GRID" → ¬ Overlaps md w.subMetadata →
        ∀ P e R, s.eventsAt p.1 L = P ++ e :: R → ¬ MetAfter w (P ++ [e])) ∧
      (mt = "META_GRID" → w.matchType = "NAME" → checkIfTriggure w = false →
        (∃ v ∈ s.completed mt md (s.visits L), v.index = p.1 ∧ v.client = p.2) →
          ¬ Overlaps md w.subMetadata)

section OneStep

variable {s : Store} {L : List String} {mt md : String} {w : PubsubWrapper}

theorem mem_of_getbbxfromGridMeta {l : List Char} {box : List Int × List Int}
    (h : getbbxfromGridMeta l = .ok box) : ':' ∈ l := by
  by_contra hcolon
  rw [getbbxfromGridMeta, if_neg hcolon] at h
  cases h

theorem mem_of_subscribedBox {md : String} {box : Int × Int × Int × Int}
    (h : subscribedBox md = .ok box) : ':' ∈ md.toList := by
  unfold subscribedBox at h
  cases hbbx : getbbxfromGridMeta md.toList with
  | error x => simp [hbbx, bind, Except.bind] at h
  | ok bbx => exact mem_of_getbbxfromGridMeta hbbx

/-- The comparison of `checkIfTriggureMetaGrid` is that the boxes overlap. -/
theorem checkIfTriggureMetaGrid_eq_true :
    checkIfTriggureMetaGrid w md = .ok true ↔ Overlaps md w.subMetadata := by
  unfold checkIfTriggureMetaGrid Overlaps
  cases hpub : publishedBox md with
  | error x => simp
  | ok pub =>
    obtain ⟨plbx, plby, pubx, puby⟩ := pub
    by_cases hcolon : ':' ∈ w.subMetadata.toList
    · cases hsub : subscribedBox w.subMetadata with
      | error x => simp [hcolon]
      | ok sub =>
        obtain ⟨slbx, slby, subx, suby⟩ := sub
        simp only [hcolon, not_true_eq_false, ↓reduceIte, Except.ok.injEq, Prod.mk.injEq]
        constructor
        · intro h
          split at h
          · cases h
          · split at h
            · cases h
            · exact ⟨plbx, plby, pubx, puby, slbx, slby, subx, suby, ⟨rfl, rfl, rfl, rfl⟩,
                ⟨rfl, rfl, rfl, rfl⟩, by omega⟩
        · rintro ⟨_, _, _, _, _, _, _, _, ⟨rfl, rfl, rfl, rfl⟩, ⟨rfl, rfl, rfl, rfl⟩, h⟩
          rw [if_neg (by omega), if_neg (by omega)]
    · simp only [hcolon, not_false_eq_true, ↓reduceIte, Except.ok.injEq, Bool.false_eq_true,
        false_iff]
      rintro ⟨_, _, _, _, _, _, _, _, -, hsub, -⟩
      exact hcolon (mem_of_subscribedBox hsub)

theorem metAfter_nil : MetAfter w [] ↔ checkIfTriggure w = true := by
  rw [checkIfTriggure_iff]
  rfl

theorem wrapper?_cleared {p : Place} (hw : s.wrapper? p.1 p.2 = some w) :
    (s.cleared p).wrapper? p.1 p.2 = some w.cleared := by
  simp [Store.cleared, Store.wrapper?_modifyWrapper, hw]

theorem sameShape_cleared (s : Store) (p : Place) : s.SameShape (s.cleared p) :=
  .modifyWrapper s p.1 p.2 _

theorem sameTerms_cleared (w : PubsubWrapper) : w.SameTerms w.cleared :=
  ⟨rfl, rfl, rfl, rfl, rfl⟩

theorem faultsAt_cleared (s : Store) (p : Place) (mt md : String) :
    (s.cleared p).faultsAt mt md = s.faultsAt mt md := by
  funext v
  unfold Store.faultsAt
  rw [Store.cleared, Store.wrapper?_modifyWrapper]
  cases s.wrapper? v.index v.client with
  | none => simp
  | some w =>
    by_cases hv : p.1 = v.index ∧ p.2 = v.client
    · simp [hv, visitFaults_congr (sameTerms_cleared w)]
    · simp [hv]

/-- A wrapper that is not pending is marked if the walk leaves it triggered. -/
theorem marked_of_not_iftrigure {p : Place} (hw : s.wrapper? p.1 p.2 = some w)
    (hoff : w.iftrigure = false) :
    s.Marked mt md L p ↔
      ∃ w', (pubsubPublish L mt md s).state.wrapper? p.1 p.2 = some w' ∧ w'.iftrigure = true := by
  have hsame : s.cleared p = s := by
    have hcell : OMap.modifyCell s.subtoClient p.1 p.2 PubsubWrapper.cleared =
        OMap.modifyCell s.subtoClient p.1 p.2 fun w => w :=
      OMap.modifyCell_congr fun w' hw' => by
        obtain rfl := Option.some.inj (hw.symm.trans hw')
        rw [PubsubWrapper.cleared, ← hoff]
    rw [Store.cleared, Store.modifyWrapper, hcell, OMap.modifyCell_id]
  rw [Store.Marked, hsame]

/-- **Which wrappers a publish marks**, pending ones included: those it completes a match of. -/
theorem marked_iff {p : Place} (hw : s.wrapper? p.1 p.2 = some w) :
    s.Marked mt md L p ↔ s.Matches mt md L p := by
  have hshape := sameShape_cleared s p
  have hmet : ∀ es, MetAfter w.cleared es ↔ MetAfter w es := by
    intro es
    have hsame : w.cleared.publishedEvent = w.publishedEvent := rfl
    simp only [MetAfter, (sameTerms_cleared w).requires_iff,
      publishedEvent_countAll_congr hsame es]
  have hbox := checkIfTriggureMetaGrid_congr (sameTerms_cleared w) md
  rw [Store.Marked, matches_iff (wrapper?_cleared hw) rfl, Store.Matches, Store.Matches]
  simp only [wrapper?_cleared hw, hw, Option.some.injEq, exists_eq_left', hmet, hbox,
    hshape.eventsAt_eq, hshape.visits_eq, Store.completed, faultsAt_cleared]

/-- **When a publish triggers every client by the rule it asked for.** -/
theorem byRule_iff : ByRule L mt md s ↔ OtherRuleFails L mt md s := by
  constructor
  · intro hby p w hw
    constructor
    · intro hname hrule hapart P e R heq hmet
      have hmarked : s.Marked mt md L p :=
        (marked_iff hw).2 ⟨w, hw, .inl ⟨hname, P, e, R, heq, hmet⟩⟩
      exact hapart ((hby p w hw hmarked).1 hrule)
    · intro hgrid hrule hmiss hv hoverlap
      have hmarked : s.Marked mt md L p :=
        (marked_iff hw).2 ⟨w, hw, .inr ⟨hgrid, checkIfTriggureMetaGrid_eq_true.2 hoverlap, hv⟩⟩
      obtain ⟨es, hes, hmet⟩ := (hby p w hw hmarked).2 hrule
      -- a publish by box counts nothing, so the counts would have to be met before it
      rw [counted, if_neg (by rw [hgrid]; decide), List.prefix_nil] at hes
      rw [hes, metAfter_nil, hmiss] at hmet
      cases hmet
  · intro hfails p w hw hmarked
    obtain ⟨hname, hgrid⟩ := hfails p w hw
    obtain ⟨w₀, hw₀, hmatch⟩ := (marked_iff hw).1 hmarked
    obtain rfl := Option.some.inj (hw₀.symm.trans hw)
    rcases hmatch with ⟨hmt, P, e, R, heq, hmet⟩ | ⟨hmt, hoverlap, hv⟩
    · refine ⟨fun hrule => ?_, fun _ => ⟨P ++ [e], ?_, hmet⟩⟩
      · by_contra hapart
        exact hname hmt hrule hapart P e R heq hmet
      · rw [counted, if_pos hmt, heq]
        exact ⟨R, by simp⟩
    · rw [checkIfTriggureMetaGrid_eq_true] at hoverlap
      refine ⟨fun _ => hoverlap, fun hrule => ⟨[], List.nil_prefix, metAfter_nil.2 ?_⟩⟩
      cases hmiss : checkIfTriggure w₀ with
      | true => rfl
      | false => exact absurd hoverlap (hgrid hmt hrule hmiss hv)

end OneStep

/-! ## Runs -/

/-- The steps of a server: its handlers, and the tasks of its thread pool. -/
inductive Operation
  | subscribe (eventList : List String) (clientId notifyAddr matchType metadata : String)
  | publish (eventList : List String) (matchType metadata : String)
  | checkNotify (p : Place)
  deriving DecidableEq, Repr

/-- The store after a step. -/
def Operation.run (s : Store) : Operation → Store
  | .subscribe eventList clientId notifyAddr matchType metadata =>
    TPST.subscribe eventList clientId notifyAddr matchType metadata s
  | .publish eventList matchType metadata => (TPST.publish eventList matchType metadata s).1
  | .checkNotify p => (runTask p s).1

/-- The store after a run from the start of the server. -/
def runOperations (ops : List Operation) : Store := ops.foldl Operation.run .empty

/-- Every publish of the run is as `P` says, of the store it finds. -/
def EveryPublish (P : List String → String → String → Store → Prop) (ops : List Operation) : Prop :=
  ∀ pre L mt md post, ops = pre ++ .publish L mt md :: post →
    P L (requestMatchType mt) md (runOperations pre)

/-- **The runs in which every client is triggered by the rule it asked for** are those in which the
other rule never matches. -/
theorem runByRule_iff (ops : List Operation) :
    EveryPublish ByRule ops ↔ EveryPublish OtherRuleFails ops := by
  constructor
  · exact fun h pre L mt md post heq => byRule_iff.1 (h pre L mt md post heq)
  · exact fun h pre L mt md post heq => byRule_iff.2 (h pre L mt md post heq)

/-- A client subscribed by box is triggered by a publish by name. -/
theorem runByRule_fails : ¬ ∀ ops : List Operation, EveryPublish ByRule ops := by
  intro h
  have hby := h [.subscribe ["a"] "c" "addr" "META_GRID" "<0,0>:<2,2>", .publish ["a"] "NAME" "m"]
    [.subscribe ["a"] "c" "addr" "META_GRID" "<0,0>:<2,2>"] ["a"] "NAME" "m" [] rfl
  let s := runOperations [.subscribe ["a"] "c" "addr" "META_GRID" "<0,0>:<2,2>"]
  have hsub : (s.wrapper? "a" "c").map
      (fun w => (w.iftrigure, w.matchType)) = some (false, "META_GRID") := by decide +kernel
  have hon : ((pubsubPublish ["a"] "NAME" "m" s).state.wrapper? "a" "c").map (·.iftrigure) =
      some true := by decide +kernel
  obtain ⟨w, hw, hwsub⟩ := Option.map_eq_some_iff.1 hsub
  obtain ⟨hwoff, hrule⟩ := Prod.mk.inj hwsub
  have hmarked : s.Marked "NAME" "m" ["a"] ("a", "c") :=
    (marked_of_not_iftrigure hw hwoff).2 (Option.map_eq_some_iff.1 hon)
  obtain ⟨_, _, _, _, _, _, _, _, hbox, -⟩ := (hby ("a", "c") w hw hmarked).1 hrule
  have hnone : publishedBox "m" = .error .undefinedBehaviour := by decide +kernel
  rw [hnone] at hbox
  cases hbox

end TPST
