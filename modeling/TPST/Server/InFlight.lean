import TPST.Server.Counting

/-!
# Publishes during a notification

The handlers of several publishes and the `checkNotify` tasks run at the same time. This is a
model of one wrapper under any interleaving of them, with the atomic steps of the source: the
count and the check of a publish, its locked write of `iftrigure`, the enqueuing of a task, and
the three parts of a task: test and clear, push, delete the counters.

* `run_alone`: a publish and its task that run alone do what `visited` and `checkNotify` do.
* `accounting`: in every run at most one trigger is under way, each notification accounts for `n`
  publishes, and what it does not account for was counted while a trigger was under way, or is
  still in the counter.
* `notified_when_settled`: when every publish counts in a settled state, nothing is lost.
-/

namespace TPST

/-- One wrapper, and the handlers and tasks at work on it. Those at the same point are alike, so
it is enough to say how many there are. -/
structure InFlight where
  psw : PubsubWrapper
  /-- The publishes that matched and have not written `iftrigure`, by their metadata. -/
  toWrite : List String
  /-- The publishes that have not come to `startNotify`. -/
  toNotify : ℕ
  /-- The tasks that have not tested `iftrigure`. -/
  queued : ℕ
  /-- The tasks that have cleared it and have not pushed. -/
  cleared : ℕ
  /-- The tasks that have pushed and have not deleted the counters. -/
  pushed : ℕ
  notifyQueue : List NotifyInfo

/-- The atomic steps. A task may also come from a publish of another event. -/
inductive Action
  | count (metadata : String)
  | write (metadata : String)
  | enqueue
  | enqueueOther
  | test
  | push
  | delete
  deriving DecidableEq, Repr

namespace InFlight

/-- One step, of a server on which the event `e` is published. -/
def step (e : String) (s : InFlight) : Action → Option InFlight
  | .count metadata =>
    let counted := countPublish e s.psw
    if checkIfTriggure counted then
      some { s with psw := counted, toWrite := metadata :: s.toWrite }
    else some { s with psw := counted, toNotify := s.toNotify + 1 }
  | .write metadata =>
    if metadata ∈ s.toWrite then
      some { s with
        psw := markTriggered metadata s.psw
        toWrite := s.toWrite.erase metadata
        toNotify := s.toNotify + 1 }
    else none
  | .enqueue =>
    if 0 < s.toNotify then some { s with toNotify := s.toNotify - 1, queued := s.queued + 1 }
    else none
  | .enqueueOther => some { s with queued := s.queued + 1 }
  | .test =>
    if 0 < s.queued then
      if s.psw.iftrigure then
        some { s with
          psw := { s.psw with iftrigure := false }
          queued := s.queued - 1
          cleared := s.cleared + 1 }
      else some { s with queued := s.queued - 1 }
    else none
  | .push =>
    if 0 < s.cleared then
      some { s with
        cleared := s.cleared - 1
        pushed := s.pushed + 1
        notifyQueue := s.notifyQueue ++ [⟨s.psw.peerURL, s.psw.pubMetadata, s.psw.clientID⟩] }
    else none
  | .delete =>
    if 0 < s.pushed then
      some { s with
        psw := if s.psw.matchType = "NAME" then deletePubEvent s.psw else s.psw
        pushed := s.pushed - 1 }
    else none

/-- The steps of a list, one after the other. -/
def run (e : String) : InFlight → List Action → Option InFlight
  | s, [] => some s
  | s, a :: acts => (step e s a).bind fun s' => run e s' acts

/-- A wrapper with no handler and no task at work on it. -/
def idle (psw : PubsubWrapper) : InFlight := ⟨psw, [], 0, 0, 0, 0, []⟩

/-- Every handler and every task has finished. -/
def Finished (s : InFlight) : Prop :=
  s.toWrite = [] ∧ s.toNotify = 0 ∧ s.queued = 0 ∧ s.cleared = 0 ∧ s.pushed = 0

/-- How many triggers are under way: seen and not written, written and not cleared, cleared and
the counters not deleted. -/
def underWay (s : InFlight) : ℕ :=
  s.toWrite.length + s.psw.iftrigure.toNat + s.cleared + s.pushed

/-- No trigger is under way. -/
def Settled (s : InFlight) : Prop := s.underWay = 0

instance (s : InFlight) : Decidable s.Settled := inferInstanceAs (Decidable (_ = 0))

/-- The notifications pushed and those sure to be. -/
def owed (s : InFlight) : ℕ :=
  s.notifyQueue.length + s.toWrite.length + s.psw.iftrigure.toNat + s.cleared

/-- The step is the count of a publish. -/
def isCount : Action → Bool
  | .count _ => true
  | _ => false

/-- The number of publishes in a run. -/
def publishes (acts : List Action) : ℕ := acts.countP isCount

/-- A publish counts while a trigger is under way. -/
def losesAt (s : InFlight) (a : Action) : Bool := isCount a && decide ¬ s.Settled

/-- The number of publishes that count while a trigger is under way. -/
def lost (e : String) : InFlight → List Action → ℕ
  | _, [] => 0
  | s, a :: acts => (if s.losesAt a then 1 else 0) + ((step e s a).map (lost e · acts)).getD 0

/-! ## One handler alone -/

/-- The steps of a publish and its task, from a wrapper that is not triggered. -/
def alone (e metadata : String) (psw : PubsubWrapper) : List Action :=
  if checkIfTriggure (countPublish e psw) then
    [.count metadata, .write metadata, .enqueue, .test, .push, .delete]
  else [.count metadata, .enqueue, .test]

/-- **A publish and its task that run alone** do what the sequential model says. -/
theorem run_alone (e metadata : String) {psw : PubsubWrapper} (hoff : psw.iftrigure = false) :
    run e (idle psw) (alone e metadata psw) =
      some { idle (checkNotify (visited "NAME" metadata e psw)).1 with
        notifyQueue := (checkNotify (visited "NAME" metadata e psw)).2.toList } := by
  rw [alone, visited_NAME]
  by_cases hmet : checkIfTriggure (countPublish e psw) = true
  · rw [if_pos hmet, if_pos hmet]
    simp only [run, step, idle, hmet, markTriggered, checkNotify, ↓reduceIte, Option.bind_some,
      List.mem_singleton, List.erase_cons_head, Nat.zero_add, Nat.lt_add_one, Nat.sub_self,
      Bool.true_eq_false, List.nil_append, Option.toList_some]
    rfl
  · have hcount : (countPublish e psw).iftrigure = false := hoff
    rw [if_neg hmet, if_neg hmet, checkNotify_of_not_iftrigure hcount]
    simp [run, step, idle, hmet, hcount]

/-! ## The invariant -/

/-- At most one trigger is under way; the counter `k` is below `n` when none is, and not below
otherwise; a trigger that is written has a task to come; and each publish is in a notification,
in the counter, or lost. -/
structure Inv (e : String) (n k m l : ℕ) (s : InFlight) : Prop where
  matchType : s.psw.matchType = "NAME"
  tracks : Tracks (.replicate n e) (.replicate k e) s.psw
  underWay_le : s.underWay ≤ 1
  below : s.underWay = 0 → k < n
  full : s.underWay = 1 → n ≤ k
  task : s.psw.iftrigure = true → 0 < s.toNotify + s.queued
  account : m = n * s.owed + l + if s.underWay = 0 then k else 0

section Inv

variable {e : String} {n k m l : ℕ} {s s' : InFlight}

theorem Inv.idle {psw : PubsubWrapper} (hn : n ≠ 0) (hmatch : psw.matchType = "NAME")
    (hoff : psw.iftrigure = false) (htracks : Tracks (.replicate n e) 0 psw) :
    Inv e n 0 0 0 (idle psw) where
  matchType := hmatch
  tracks := by
    rw [Multiset.replicate_zero]
    exact htracks
  underWay_le := by simp [underWay, InFlight.idle, hoff]
  below := fun _ => Nat.pos_of_ne_zero hn
  full := by simp [underWay, InFlight.idle, hoff]
  task := by simp [InFlight.idle, hoff]
  account := by
    rw [ite_self]
    simp [owed, InFlight.idle, hoff]

/-- A publish in a settled state counts for the next notification; any other is lost. -/
theorem Inv.count (h : Inv e n k m l s) (hn : n ≠ 0) {metadata : String}
    (hs : step e s (.count metadata) = some s') :
    Inv e n (k + 1) (m + 1) (l + if s.underWay = 0 then 0 else 1) s' := by
  have htracks : Tracks (.replicate n e) (.replicate (k + 1) e) (countPublish e s.psw) :=
    h.tracks.countPublish e
  have hmet : checkIfTriggure (countPublish e s.psw) = true ↔ k + 1 = n := by
    rw [htracks.checkIfTriggure, Quota.full_replicate hn, Multiset.count_replicate_self]
  have hle := h.underWay_le
  have hbelow := h.below
  have hfull := h.full
  have hacc := h.account
  by_cases hlast : k + 1 = n
  · -- a match: no trigger was under way, and this one is now
    have hsettled : s.underWay = 0 := by omega
    rw [step, if_pos (hmet.2 hlast)] at hs
    obtain rfl := Option.some.inj hs
    have hunder : underWay { s with
        psw := countPublish e s.psw, toWrite := metadata :: s.toWrite } = s.underWay + 1 := by
      simp only [underWay, countPublish, List.length_cons]
      omega
    have howed : owed { s with
        psw := countPublish e s.psw, toWrite := metadata :: s.toWrite } = s.owed + 1 := by
      simp only [owed, countPublish, List.length_cons]
      omega
    refine ⟨h.matchType, htracks, by omega, by omega, by omega, h.task, ?_⟩
    rw [howed, hunder, hacc, if_pos hsettled, if_pos hsettled, if_neg (by omega), Nat.mul_add]
    omega
  · rw [step, if_neg (mt hmet.1 hlast)] at hs
    obtain rfl := Option.some.inj hs
    have hunder : underWay { s with
        psw := countPublish e s.psw, toNotify := s.toNotify + 1 } = s.underWay := rfl
    have howed : owed { s with
        psw := countPublish e s.psw, toNotify := s.toNotify + 1 } = s.owed := rfl
    refine ⟨h.matchType, htracks, by omega, by omega, by omega, fun _ => by simp only; omega, ?_⟩
    rw [howed, hunder, hacc]
    split <;> omega

/-- A step that keeps the counters and the number of triggers under way. -/
theorem Inv.keep (h : Inv e n k m l s) (hterms : s.psw.SameTerms s'.psw)
    (hpub : s'.psw.publishedEvent = s.psw.publishedEvent) (hunder : s'.underWay = s.underWay)
    (howed : s'.owed = s.owed) (htask : s'.psw.iftrigure = true → 0 < s'.toNotify + s'.queued) :
    Inv e n k m l s' := by
  refine ⟨hterms.2.2.2.1.trans h.matchType, tracks_congr hterms.2.2.2.2 hpub h.tracks, ?_, ?_, ?_,
    htask, ?_⟩
  all_goals rw [hunder]
  · exact h.underWay_le
  · exact h.below
  · exact h.full
  · rw [howed]
    exact h.account

/-- The task that deletes the counters ends the one trigger under way. -/
theorem Inv.delete (h : Inv e n k m l s) (hn : n ≠ 0) (hs : step e s .delete = some s') :
    Inv e n 0 m l s' := by
  have hle := h.underWay_le
  have hacc := h.account
  rw [step] at hs
  split at hs
  case isFalse => cases hs
  rename_i hpushed
  obtain rfl := Option.some.inj hs
  have hunder : s.underWay = 1 := by
    unfold underWay at hle ⊢
    omega
  rw [if_neg (by omega)] at hacc
  have hafter : underWay { s with
      psw := if s.psw.matchType = "NAME" then deletePubEvent s.psw else s.psw
      pushed := s.pushed - 1 } = 0 := by
    rw [if_pos h.matchType]
    unfold underWay at hunder ⊢
    simp only [deletePubEvent]
    omega
  have howed : owed { s with
      psw := if s.psw.matchType = "NAME" then deletePubEvent s.psw else s.psw
      pushed := s.pushed - 1 } = s.owed := by
    rw [if_pos h.matchType]
    rfl
  refine ⟨?_, ?_, by omega, fun _ => Nat.pos_of_ne_zero hn, by omega, ?_, ?_⟩
  · rw [if_pos h.matchType]
    exact h.matchType
  · rw [if_pos h.matchType]
    simpa using h.tracks.deletePubEvent
  · rw [if_pos h.matchType]
    exact h.task
  · rw [howed, hafter, hacc]
    simp

/-- A match that is written was the one trigger under way, and still is. -/
theorem Inv.write (h : Inv e n k m l s) {metadata : String}
    (hs : step e s (.write metadata) = some s') : Inv e n k m l s' := by
  have hle := h.underWay_le
  rw [step] at hs
  split at hs
  case isFalse => cases hs
  rename_i hmem
  obtain rfl := Option.some.inj hs
  have hlen := List.length_erase_of_mem hmem
  have hpos := List.length_pos_of_mem hmem
  have hoff : s.psw.iftrigure = false := by
    by_contra hon
    rw [Bool.not_eq_false] at hon
    rw [underWay, hon, Bool.toNat_true] at hle
    omega
  refine h.keep ⟨rfl, rfl, rfl, rfl, rfl⟩ rfl ?_ ?_ fun _ => by simp only; omega
  · simp only [underWay, markTriggered, hoff, hlen]
    simp
    omega
  · simp only [owed, markTriggered, hoff, hlen]
    simp
    omega

/-- A task that finds the trigger takes it over. -/
theorem Inv.test (h : Inv e n k m l s) (hs : step e s .test = some s') : Inv e n k m l s' := by
  rw [step] at hs
  split at hs
  case isFalse => cases hs
  split at hs
  · rename_i hon
    obtain rfl := Option.some.inj hs
    refine h.keep ⟨rfl, rfl, rfl, rfl, rfl⟩ rfl ?_ ?_ fun hon' => by simp at hon'
    · simp only [underWay, hon]
      simp
      omega
    · simp only [owed, hon]
      simp
      omega
  · rename_i hoff
    obtain rfl := Option.some.inj hs
    exact h.keep (.refl _) rfl rfl rfl fun hon => absurd hon hoff

theorem Inv.push (h : Inv e n k m l s) (hs : step e s .push = some s') : Inv e n k m l s' := by
  rw [step] at hs
  split at hs
  case isFalse => cases hs
  obtain rfl := Option.some.inj hs
  refine h.keep (.refl _) rfl ?_ ?_ h.task
  · simp only [underWay]
    omega
  · simp only [owed, List.length_append, List.length_singleton]
    omega

/-- **Each step keeps the invariant**, and accounts for the publish it counts. -/
theorem Inv.step (h : Inv e n k m l s) (hn : n ≠ 0) {a : Action} (hs : step e s a = some s') :
    ∃ k', Inv e n k' (m + if isCount a then 1 else 0) (l + if s.losesAt a then 1 else 0) s' := by
  cases a with
  | count metadata =>
    refine ⟨k + 1, ?_⟩
    have hcount := h.count hn hs
    by_cases hsettled : s.underWay = 0 <;>
      simpa [isCount, losesAt, Settled, hsettled] using hcount
  | write metadata => exact ⟨k, h.write hs⟩
  | enqueue =>
    rw [InFlight.step] at hs
    split at hs
    case isFalse => cases hs
    rename_i hpos
    obtain rfl := Option.some.inj hs
    exact ⟨k, h.keep (.refl _) rfl rfl rfl fun _ => by simp only; omega⟩
  | enqueueOther =>
    obtain rfl := Option.some.inj hs
    exact ⟨k, h.keep (.refl _) rfl rfl rfl fun _ => by simp only; omega⟩
  | test => exact ⟨k, h.test hs⟩
  | push => exact ⟨k, h.push hs⟩
  | delete => exact ⟨0, h.delete hn hs⟩

/-- A run keeps the invariant. -/
theorem Inv.run (h : Inv e n k m l s) (hn : n ≠ 0) {acts : List Action}
    (hrun : run e s acts = some s') :
    ∃ k', Inv e n k' (m + publishes acts) (l + lost e s acts) s' := by
  induction acts generalizing s k m l with
  | nil =>
    obtain rfl := Option.some.inj hrun
    exact ⟨k, h⟩
  | cons a acts ih =>
    obtain ⟨s₁, hs₁, hrest⟩ := Option.bind_eq_some_iff.1 hrun
    obtain ⟨k₁, h₁⟩ := h.step hn hs₁
    obtain ⟨k', h'⟩ := ih h₁ hrest
    refine ⟨k', ?_⟩
    have hm : m + publishes (a :: acts) = m + (if isCount a then 1 else 0) + publishes acts := by
      rw [publishes, List.countP_cons, publishes]
      omega
    rw [hm, lost, hs₁, ← Nat.add_assoc]
    exact h'

end Inv

/-! ## Complete runs -/

section Complete

variable {ev e c addr md : String} {n : ℕ} {s₀ : Store} {psw : PubsubWrapper}
  {acts : List Action} {s : InFlight}

/-- A new subscription to one event starts with the invariant. -/
theorem inv_subscribed (hev : parseEvent ev = .ok (e, (n : Int))) (hn : 1 ≤ n)
    (hpsw : (pubsubSubscribe [ev] c addr "NAME" md s₀).state.wrapper? e c = some psw) :
    Inv e n 0 0 0 (idle psw) := by
  have hparse : Parses [ev] [(e, (n : Int))] := .cons hev .nil
  rw [pubsubSubscribe_ok hparse, Flow.state_next, wrapper?_subscribed, if_pos ⟨rfl, rfl⟩] at hpsw
  obtain rfl := Option.some.inj hpsw
  have hdistinct : ([(e, (n : Int))].map Prod.fst).Nodup := List.nodup_singleton e
  have htracks := tracks_newWrapper c addr "NAME" md hdistinct fun r hr => by
    rw [List.mem_singleton.1 hr]
    exact Int.ofNat_le.2 hn
  rw [show needOf [(e, (n : Int))] = .replicate n e by simp [needOf]] at htracks
  exact .idle (by omega) rfl rfl htracks

/-- **What becomes of the publishes of a complete run**: `n` for each notification, those lost, and
fewer than `n` in the counter. -/
theorem accounting (hev : parseEvent ev = .ok (e, (n : Int))) (hn : 1 ≤ n)
    (hpsw : (pubsubSubscribe [ev] c addr "NAME" md s₀).state.wrapper? e c = some psw)
    (hrun : run e (idle psw) acts = some s) (hfinished : s.Finished) :
    ∃ k < n, publishes acts = n * s.notifyQueue.length + lost e (idle psw) acts + k := by
  obtain ⟨k, h⟩ := (inv_subscribed hev hn hpsw).run (by omega) hrun
  obtain ⟨hwrite, hnotify, hqueued, hcleared, hpushed⟩ := hfinished
  have hoff : s.psw.iftrigure = false := by
    by_contra hon
    have := h.task (by simpa using hon)
    omega
  have hunder : s.underWay = 0 := by simp [underWay, hwrite, hoff, hcleared, hpushed]
  have howed : s.owed = s.notifyQueue.length := by simp [owed, hwrite, hoff, hcleared]
  have haccount := h.account
  rw [if_pos hunder, howed, Nat.zero_add, Nat.zero_add] at haccount
  exact ⟨k, h.below hunder, haccount⟩

theorem lost_eq_zero {s : InFlight}
    (hsettled : ∀ pre metadata post s', acts = pre ++ .count metadata :: post →
      run e s pre = some s' → s'.Settled) : lost e s acts = 0 := by
  induction acts generalizing s with
  | nil => rfl
  | cons a acts ih =>
    have hhead : s.losesAt a = false := by
      cases a with
      | count metadata => simpa [losesAt, isCount] using hsettled [] metadata acts s rfl rfl
      | _ => rfl
    rw [lost, hhead]
    cases hs : step e s a with
    | none => rfl
    | some s₁ =>
      have htail : lost e s₁ acts = 0 := ih fun pre metadata post s' hacts hrun =>
        hsettled (a :: pre) metadata post s' (by rw [hacts]; rfl) (by rw [run, hs]; exact hrun)
      simpa using htail

/-- **No publish is lost that counts in a settled state.** Take the wrapper of a subscription to
one event, `n` times, and any interleaving of publishes and tasks to its end. If every publish
counts while no trigger is under way, one notification has been pushed for every `n` publishes. -/
theorem notified_when_settled (hev : parseEvent ev = .ok (e, (n : Int))) (hn : 1 ≤ n)
    (hpsw : (pubsubSubscribe [ev] c addr "NAME" md s₀).state.wrapper? e c = some psw)
    (hrun : run e (idle psw) acts = some s) (hfinished : s.Finished)
    (hsettled : ∀ pre metadata post s', acts = pre ++ .count metadata :: post →
      run e (idle psw) pre = some s' → s'.Settled) :
    s.notifyQueue.length = publishes acts / n := by
  obtain ⟨k, hk, haccount⟩ := accounting hev hn hpsw hrun hfinished
  rw [lost_eq_zero hsettled] at haccount
  rw [haccount, Nat.add_zero, Nat.mul_add_div (by omega), Nat.div_eq_of_lt hk, Nat.add_zero]

end Complete

/-- The wrapper of a subscription to `a`. -/
def oneWrapper : PubsubWrapper := newWrapper "c" "addr" "NAME" "" (requiredOf [("a", 1)])

theorem wrapper?_oneWrapper :
    (pubsubSubscribe ["a"] "c" "addr" "NAME" "" .empty).state.wrapper? "a" "c" =
      some oneWrapper := by
  have hparse : Parses ["a"] [("a", 1)] := .cons (by decide +kernel) .nil
  rw [pubsubSubscribe_ok hparse, Flow.state_next, wrapper?_subscribed, if_pos ⟨rfl, rfl⟩]
  rfl

theorem notified_when_settled_once :
    ∃ s, run "a" (idle oneWrapper) [.count "m", .write "m", .enqueue, .test, .push, .delete] =
      some s ∧ s.notifyQueue.length = 1 := by
  have halone : alone "a" "m" oneWrapper =
      [.count "m", .write "m", .enqueue, .test, .push, .delete] := by decide +kernel
  have hidle : oneWrapper.iftrigure = false := rfl
  have hrun := run_alone "a" "m" hidle
  rw [halone] at hrun
  refine ⟨_, hrun, notified_when_settled (n := 1) (by decide +kernel) le_rfl wrapper?_oneWrapper
    hrun ⟨rfl, rfl, rfl, rfl, rfl⟩ fun pre metadata post s' hacts hpre => ?_⟩
  cases pre with
  | nil =>
    obtain rfl := Option.some.inj hpre
    decide
  | cons a pre =>
    -- only the first step counts a publish
    have hmem : Action.count metadata ∈
        [Action.write "m", .enqueue, .test, .push, .delete] := by
      rw [(List.cons.inj hacts).2]
      simp
    simp at hmem

/-- A publish that counts between the push and the deletion of the counters is lost. -/
theorem publish_lost :
    ¬ ∀ (ev e c addr md : String) (n : ℕ) (s₀ : Store) (psw : PubsubWrapper)
      (acts : List Action) (s : InFlight), parseEvent ev = .ok (e, (n : Int)) → 1 ≤ n →
      (pubsubSubscribe [ev] c addr "NAME" md s₀).state.wrapper? e c = some psw →
      run e (idle psw) acts = some s → s.Finished →
        s.notifyQueue.length = publishes acts / n := by
  intro h
  have hrun : (run "a" (idle oneWrapper)
      [.count "m", .write "m", .enqueue, .test, .push, .count "m'", .enqueue, .delete, .test]).map
        (fun s => (s.notifyQueue.length, s.toWrite, s.toNotify, s.queued, s.cleared, s.pushed)) =
      some (1, [], 0, 0, 0, 0) := by decide +kernel
  obtain ⟨s, hs, hend⟩ := Option.map_eq_some_iff.1 hrun
  simp only [Prod.mk.injEq] at hend
  have hlen := h "a" "a" "c" "addr" "" 1 .empty oneWrapper _ s (by decide +kernel) le_rfl
    wrapper?_oneWrapper hs hend.2
  rw [hend.1] at hlen
  exact absurd hlen (by decide)

end InFlight

end TPST
