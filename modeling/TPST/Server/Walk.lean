import TPST.Foundations.Schedules
import TPST.Server.Notify

/-!
# The walk of a publish, step by step

`pubsubPublish` holds no lock while it walks: it copies an index set, then the rows it leads to one
by one, tests the wrappers through the pointers it has copied, and marks a client that matched
through the live map, under the lock. `walkStep` is one atomic step of this, on what the threads of
a server share; between two steps the other threads take theirs. What a pointer is, is a parameter:
the other threads may allocate wrappers.

* `walkStep_moves`: what a step can do, from which the facts about one step follow.
* `walk_alone`: a walk that nothing comes between does what `pubsubPublish` does in one go.
-/

namespace TPST

open Std

/-- What the threads of a server share: the two maps, and the wrappers in memory. The pointers of
`subtoClient` may be null, and a wrapper may be deleted. -/
@[ext]
structure Shared (ρ : Type*) where
  getIndexMap : OMap String (OSet String)
  subtoClient : OMap String (OMap String (Option ρ))
  heap : ρ → Option PubsubWrapper

/-- The pointers to the wrappers of a store, one for each place. There may be others. -/
structure Pointers (ρ : Type*) where
  ptr : Place → ρ
  place? : ρ → Option Place
  place?_eq_some : ∀ q p, place? q = some p ↔ q = ptr p

/-- A wrapper is known by the place at which it was filed. -/
def Pointers.places : Pointers Place := ⟨id, some, fun _ _ => Option.some_inj⟩

namespace Shared

variable {ρ : Type*}

/-- The index events of `event`, in set order. -/
def indexEvents (m : Shared ρ) (event : String) : List String :=
  ((m.getIndexMap[event]?).map fun set => set.toList).getD []

/-- A store in memory. -/
def stored (ptrs : Pointers ρ) (s : Store) : Shared ρ where
  getIndexMap := s.getIndexMap
  subtoClient := s.subtoClient.map fun ix row => row.map fun c _ => some (ptrs.ptr (ix, c))
  heap q := (ptrs.place? q).bind fun p => s.wrapper? p.1 p.2

/-- A store in memory, with its wrappers known by their places. -/
abbrev ofStore (s : Store) : Shared Place := stored .places s

variable [DecidableEq ρ]

/-- Write to the wrapper behind a pointer. -/
def modify (m : Shared ρ) (p : ρ) (f : PubsubWrapper → PubsubWrapper) : Shared ρ :=
  { m with heap := Function.update m.heap p ((m.heap p).map f) }

theorem heap_modify (m : Shared ρ) (p q : ρ) (f : PubsubWrapper → PubsubWrapper) :
    (m.modify q f).heap p = if p = q then (m.heap p).map f else m.heap p := by
  dsimp only [modify]
  rw [Function.update_apply]
  split
  · rename_i hpq
    rw [hpq]
  · rfl

/-- A write deletes no wrapper, and allocates none. -/
theorem isSome_heap_modify (m : Shared ρ) (p q : ρ) (f : PubsubWrapper → PubsubWrapper) :
    ((m.modify q f).heap p).isSome = (m.heap p).isSome := by
  rw [heap_modify]
  split
  · rw [Option.isSome_map]
  · rfl

theorem modify_modify (m : Shared ρ) (p : ρ) (f g : PubsubWrapper → PubsubWrapper) :
    (m.modify p f).modify p g = m.modify p fun psw => g (f psw) := by
  simp only [modify, Function.update_self, Function.update_idem, Option.map_map]
  rfl

theorem modify_congr {m : Shared ρ} {p : ρ} {f g : PubsubWrapper → PubsubWrapper}
    (h : ∀ psw, m.heap p = some psw → f psw = g psw) : m.modify p f = m.modify p g := by
  unfold modify
  cases hpsw : m.heap p with
  | none => rfl
  | some psw => rw [Option.map_some, Option.map_some, h psw hpsw]

/-- Writing back what is there changes nothing. -/
theorem modify_eq_self {m : Shared ρ} {p : ρ} {psw : PubsubWrapper} (h : m.heap p = some psw) :
    (m.modify p fun _ => psw) = m := by
  rw [modify, h, Option.map_some, ← h, Function.update_eq_self]

end Shared

/-- Where `pubsubPublish` is, with the rest of each loop. -/
inductive Walk (ρ : Type*)
  /-- Looking up the next event of the list in `getIndexMap`. -/
  | events (eventList : List String)
  /-- Copying the index set. -/
  | registered (event : String) (eventList : List String)
  /-- Looking up the next index event in `subtoClient`. -/
  | indexEvents (event : String) (indexEventSet eventList : List String)
  /-- Copying the row. -/
  | row (event indexEvent : String) (indexEventSet eventList : List String)
  /-- Testing the next client of the row. -/
  | clients (event indexEvent : String) (innermap : List (String × Option ρ))
      (indexEventSet eventList : List String)
  /-- Marking a client that matched. -/
  | trigger (event indexEvent clientId : String) (innermap : List (String × Option ρ))
      (indexEventSet eventList : List String)
  | done
  /-- Left by an exception. -/
  | raised
  /-- A null pointer was followed. -/
  | crashed
  deriving DecidableEq, Repr

/-- The test of a wrapper: the wrapper as it leaves it, and `tempiftrigure`. -/
def testWrapper (matchType metadata event : String) (psw : PubsubWrapper) :
    Except Fault (PubsubWrapper × Bool) :=
  if matchType = "NAME" then
    let counted := countPublish event psw
    .ok (counted, checkIfTriggure counted)
  else if matchType = "META_GRID" then
    match checkIfTriggureMetaGrid psw metadata with
    | .ok tempiftrigure => .ok (psw, tempiftrigure)
    | .error e => .error e
  else .ok (psw, false)

/-- The next step of a walk. What the test of a deleted wrapper comes to is up to `stray`. The map
enters a null pointer for a client that is not there to be marked. -/
def walkStep {ρ : Type*} [DecidableEq ρ] (matchType metadata : String) (stray : Bool)
    (σ : Walk ρ × Shared ρ) : Walk ρ × Shared ρ :=
  let m := σ.2
  match σ.1 with
  | .events [] => (.done, m)
  | .events (event :: eventList) =>
    (if event ∈ m.getIndexMap then .registered event eventList else .events eventList, m)
  | .registered event eventList => (.indexEvents event (m.indexEvents event) eventList, m)
  | .indexEvents _ [] eventList => (.events eventList, m)
  | .indexEvents event (indexEvent :: indexEventSet) eventList =>
    (if indexEvent ∈ m.subtoClient then .row event indexEvent indexEventSet eventList else .done, m)
  | .row event indexEvent indexEventSet eventList =>
    (.clients event indexEvent (OMap.rowEntries m.subtoClient indexEvent) indexEventSet eventList,
      m)
  | .clients event _ [] indexEventSet eventList => (.indexEvents event indexEventSet eventList, m)
  | .clients event indexEvent ((clientId, clientWrapper) :: innermap) indexEventSet eventList =>
    let next (tempiftrigure : Bool) : Walk ρ :=
      if tempiftrigure then .trigger event indexEvent clientId innermap indexEventSet eventList
      else .clients event indexEvent innermap indexEventSet eventList
    match clientWrapper with
    | none => (.crashed, m)
    | some p =>
      match m.heap p with
      | none => (next stray, m)
      | some psw =>
        match testWrapper matchType metadata event psw with
        | .ok (psw', tempiftrigure) => (next tempiftrigure, m.modify p fun _ => psw')
        | .error _ => (.raised, m)
  | .trigger event indexEvent clientId innermap indexEventSet eventList =>
    match OMap.cell m.subtoClient indexEvent clientId with
    | some (some p) =>
      (.clients event indexEvent innermap indexEventSet eventList,
        m.modify p (markTriggered metadata))
    | _ =>
      (.crashed, { m with subtoClient := OMap.insertCell m.subtoClient indexEvent clientId none })
  | .done => (.done, m)
  | .raised => (.raised, m)
  | .crashed => (.crashed, m)

/-! ## One step -/

namespace Walk

variable {ρ : Type*}

/-- The pointers copied from the row, as far as they are still to come. -/
def innermap : Walk ρ → List (String × Option ρ)
  | .clients _ _ innermap _ _ => innermap
  | .trigger _ _ _ innermap _ _ => innermap
  | _ => []

/-- The place that the walk comes to mark, if it does so next. -/
def marks : Walk ρ → Option Place
  | .trigger _ indexEvent clientId _ _ _ => some (indexEvent, clientId)
  | _ => none

/-- What a step of the walk may make of the wrapper at `p`: it marks the one it comes to mark. -/
def Touches (walk : Walk ρ) (p : Place) (psw psw' : PubsubWrapper) : Prop :=
  psw.SameTerms psw' ∧
    (psw'.iftrigure = psw.iftrigure ∨ walk.marks = some p ∧ psw'.iftrigure = true)

/-- No pointer copied is null. -/
def NonNull (walk : Walk ρ) : Prop := ∀ entry ∈ walk.innermap, entry.2 ≠ none

/-- What a step of a walk can do. -/
inductive Moves [DecidableEq ρ] (mt md : String) (walk : Walk ρ) (m : Shared ρ) :
    Walk ρ × Shared ρ → Prop
  /-- It goes on, with the pointers that are still to come. -/
  | goes {next : Walk ρ} (hmarks : walk.marks = none) (hnext : next ≠ .crashed)
      (hinner : next.innermap <:+ walk.innermap) : Moves mt md walk m (next, m)
  /-- It copies the pointers of a row. -/
  | copies {next : Walk ρ} {ix : String} (hmarks : walk.marks = none) (hnext : next ≠ .crashed)
      (hinner : next.innermap = OMap.rowEntries m.subtoClient ix) : Moves mt md walk m (next, m)
  /-- It tests a wrapper. -/
  | tests {next : Walk ρ} {event : String} {p : ρ} {psw psw' : PubsubWrapper} {b : Bool}
      (hmarks : walk.marks = none) (hnext : next ≠ .crashed)
      (hinner : next.innermap <:+ walk.innermap) (hpsw : m.heap p = some psw)
      (htest : testWrapper mt md event psw = .ok (psw', b)) :
      Moves mt md walk m (next, m.modify p fun _ => psw')
  /-- It marks a client that matched. -/
  | marks {next : Walk ρ} {p : Place} {q : ρ} (hmarks : walk.marks = some p)
      (hnext : next ≠ .crashed)
      (hinner : next.innermap <:+ walk.innermap)
      (hcell : OMap.cell m.subtoClient p.1 p.2 = some (some q)) :
      Moves mt md walk m (next, m.modify q (markTriggered md))
  /-- It follows a null pointer that it has copied. -/
  | null {c : String} (hmarks : walk.marks = none) (hinner : (c, none) ∈ walk.innermap) :
      Moves mt md walk m (.crashed, m)
  /-- It follows the null pointer of a client that it comes to mark. -/
  | missing {p : Place} (hmarks : walk.marks = some p)
      (hcell : ∀ q, OMap.cell m.subtoClient p.1 p.2 ≠ some (some q)) :
      Moves mt md walk m
        (.crashed, { m with subtoClient := OMap.insertCell m.subtoClient p.1 p.2 none })
  | stays (hwalk : walk = .crashed) : Moves mt md walk m (.crashed, m)

end Walk

section Step

variable {ρ : Type*} [DecidableEq ρ] {mt md : String} {stray : Bool} {walk : Walk ρ} {m : Shared ρ}
  {p : Place}

/-- **One step of a walk.** -/
theorem walkStep_moves (mt md : String) (stray : Bool) (walk : Walk ρ) (m : Shared ρ) :
    walk.Moves mt md m (walkStep mt md stray (walk, m)) := by
  cases walk with
  | events eventList =>
    cases eventList with
    | nil => exact .goes rfl (by simp) List.suffix_rfl
    | cons event eventList =>
      dsimp only [walkStep]
      split <;> exact .goes rfl (by simp) List.suffix_rfl
  | registered => exact .goes rfl (by simp) List.suffix_rfl
  | indexEvents event ixs eventList =>
    cases ixs with
    | nil => exact .goes rfl (by simp) List.suffix_rfl
    | cons ix ixs =>
      dsimp only [walkStep]
      split <;> exact .goes rfl (by simp) List.suffix_rfl
  | row event ix ixs eventList => exact .copies rfl (by simp) rfl
  | clients event ix innermap ixs eventList =>
    cases innermap with
    | nil => exact .goes rfl (by simp) List.suffix_rfl
    | cons entry innermap =>
      obtain ⟨c, psw⟩ := entry
      have hnext : ∀ b : Bool, (if b then Walk.trigger event ix c innermap ixs eventList
          else .clients event ix innermap ixs eventList) ≠ .crashed := by
        intro b
        cases b <;> simp
      have hinner : ∀ b : Bool, (if b then Walk.trigger event ix c innermap ixs eventList
          else .clients event ix innermap ixs eventList).innermap <:+ (c, psw) :: innermap := by
        intro b
        cases b <;> exact List.suffix_cons _ _
      cases psw with
      | none => exact .null rfl List.mem_cons_self
      | some p =>
        dsimp only [walkStep]
        split
        · exact .goes rfl (hnext stray) (hinner stray)
        · rename_i hpsw
          split
          · rename_i htest
            exact .tests rfl (hnext _) (hinner _) hpsw htest
          · exact .goes rfl (by simp) (List.nil_suffix)
  | trigger event ix c innermap ixs eventList =>
    dsimp only [walkStep]
    split
    · rename_i hcell
      exact .marks (p := (ix, c)) rfl (by simp) List.suffix_rfl hcell
    · rename_i hcell
      exact .missing (p := (ix, c)) rfl hcell
  | done => exact .goes rfl (by simp) List.suffix_rfl
  | raised => exact .goes rfl (by simp) List.suffix_rfl
  | crashed => exact .stays rfl

/-- A walk copies no null pointer when the map has none. -/
theorem nonNull_walkStep (h : walk.NonNull)
    (hmap : ∀ ix c, OMap.cell m.subtoClient ix c ≠ some none) :
    (walkStep mt md stray (walk, m)).1.NonNull := by
  have hrest : ∀ {next : Walk ρ}, next.innermap <:+ walk.innermap → next.NonNull :=
    fun hinner entry hentry => h entry (hinner.subset hentry)
  have hmoves := walkStep_moves mt md stray walk m
  generalize walkStep mt md stray (walk, m) = σ at hmoves ⊢
  cases hmoves with
  | goes _ _ hinner => exact hrest hinner
  | copies _ _ hinner =>
    rintro ⟨c, psw⟩ hentry rfl
    exact hmap _ c (OMap.mem_rowEntries.1 (hinner ▸ hentry))
  | tests _ _ hinner => exact hrest hinner
  | marks _ _ hinner => exact hrest hinner
  | null => exact hrest List.nil_suffix
  | missing => exact hrest List.nil_suffix
  | stays => exact hrest List.nil_suffix

/-- A walk follows no null pointer, and leaves the maps alone, when the client that it comes to mark
is there. -/
theorem walkStep_ne_crashed (h : walk.NonNull) (hwalk : walk ≠ .crashed)
    (hmarks : ∀ p, walk.marks = some p → ∃ q, OMap.cell m.subtoClient p.1 p.2 = some (some q)) :
    (walkStep mt md stray (walk, m)).1 ≠ .crashed ∧
      (walkStep mt md stray (walk, m)).2.subtoClient = m.subtoClient := by
  have hmoves := walkStep_moves mt md stray walk m
  generalize walkStep mt md stray (walk, m) = σ at hmoves ⊢
  cases hmoves with
  | goes _ hnext => exact ⟨hnext, rfl⟩
  | copies _ hnext => exact ⟨hnext, rfl⟩
  | tests _ hnext => exact ⟨hnext, rfl⟩
  | marks _ hnext => exact ⟨hnext, rfl⟩
  | null _ hinner => exact absurd rfl (h _ hinner)
  | missing hplace hcell =>
    obtain ⟨q, hq⟩ := hmarks _ hplace
    exact absurd hq (hcell q)
  | stays hcrashed => exact absurd hcrashed hwalk

/-- A walk that comes to mark a client that is not there enters a null pointer and follows it. -/
theorem walkStep_crashed (hmarks : walk.marks = some p)
    (hcell : OMap.cell m.subtoClient p.1 p.2 = none) :
    (walkStep mt md stray (walk, m)).1 = .crashed := by
  have hmoves := walkStep_moves mt md stray walk m
  generalize walkStep mt md stray (walk, m) = σ at hmoves ⊢
  cases hmoves with
  | goes hnone => cases hnone.symm.trans hmarks
  | copies hnone => cases hnone.symm.trans hmarks
  | tests hnone => cases hnone.symm.trans hmarks
  | marks hplace _ _ hsome =>
    obtain rfl := Option.some.inj (hplace.symm.trans hmarks)
    cases hcell.symm.trans hsome
  | null => rfl
  | missing => rfl
  | stays => rfl

/-- A step enters no pointer but a null pointer. -/
theorem cell_of_walkStep {ix c : String} {q : ρ}
    (h : OMap.cell (walkStep mt md stray (walk, m)).2.subtoClient ix c = some (some q)) :
    OMap.cell m.subtoClient ix c = some (some q) := by
  have hmoves := walkStep_moves mt md stray walk m
  generalize walkStep mt md stray (walk, m) = σ at hmoves h
  cases hmoves with
  | missing =>
    rw [OMap.cell_insertCell] at h
    split at h
    · cases h
    · exact h
  | _ => exact h

theorem getIndexMap_walkStep :
    (walkStep mt md stray (walk, m)).2.getIndexMap = m.getIndexMap := by
  have hmoves := walkStep_moves mt md stray walk m
  generalize walkStep mt md stray (walk, m) = σ at hmoves ⊢
  cases hmoves <;> rfl

/-- A wrapper that is in memory stays there. -/
theorem isSome_heap_walkStep (q : ρ) :
    ((walkStep mt md stray (walk, m)).2.heap q).isSome = (m.heap q).isSome := by
  have hmoves := walkStep_moves mt md stray walk m
  generalize walkStep mt md stray (walk, m) = σ at hmoves ⊢
  cases hmoves with
  | tests => exact Shared.isSome_heap_modify _ _ _ _
  | marks => exact Shared.isSome_heap_modify _ _ _ _
  | _ => rfl

/-- A publish by name counts for the client that it comes to. -/
theorem walkStep_client_NAME (md : String) (m : Shared ρ) (event ix c : String) (q : ρ)
    (innermap : List (String × Option ρ)) (ixs L : List String) :
    ∃ b : Bool, walkStep "NAME" md false (.clients event ix ((c, some q) :: innermap) ixs L, m) =
      (if b then .trigger event ix c innermap ixs L else .clients event ix innermap ixs L,
        m.modify q (countPublish event)) := by
  cases hpsw : m.heap q with
  | none =>
    refine ⟨false, ?_⟩
    have hsame : m.modify q (countPublish event) = m := by
      rw [Shared.modify, hpsw, Option.map_none, ← hpsw, Function.update_eq_self]
    simp only [walkStep, hpsw, hsame]
  | some psw =>
    refine ⟨checkIfTriggure (countPublish event psw), ?_⟩
    have hsame : m.modify q (countPublish event) = m.modify q fun _ => countPublish event psw :=
      Shared.modify_congr fun psw' hpsw' => by
        rw [Option.some.inj (hpsw'.symm.trans hpsw)]
    simp only [walkStep, hpsw, testWrapper, ↓reduceIte, hsame]

end Step

/-! ## The wrappers by their places -/

section Places

variable {mt md : String} {stray : Bool} {walk : Walk Place} {m : Shared Place} {p : Place}

/-- A test leaves the terms of the wrapper, and its mark. -/
theorem testWrapper_touches {event : String} {psw psw' : PubsubWrapper} {b : Bool}
    (h : testWrapper mt md event psw = .ok (psw', b)) : walk.Touches p psw psw' := by
  unfold testWrapper at h
  split at h
  · obtain ⟨rfl, -⟩ := Prod.mk.inj (Except.ok.inj h)
    exact ⟨.refl _, .inl rfl⟩
  · split at h
    · split at h
      · obtain ⟨rfl, -⟩ := Prod.mk.inj (Except.ok.inj h)
        exact ⟨.refl _, .inl rfl⟩
      · cases h
    · obtain ⟨rfl, -⟩ := Prod.mk.inj (Except.ok.inj h)
      exact ⟨.refl _, .inl rfl⟩

theorem touches_refl (o : Option PubsubWrapper) : Option.Rel (walk.Touches p) o o := by
  cases o with
  | none => exact .none
  | some psw => exact .some ⟨.refl psw, .inl rfl⟩

theorem touches_modify {q : Place} {f : PubsubWrapper → PubsubWrapper}
    (h : ∀ psw, m.heap q = some psw → walk.Touches q psw (f psw)) :
    Option.Rel (walk.Touches p) (m.heap p) ((m.modify q f).heap p) := by
  rw [Shared.heap_modify]
  split
  · rename_i hp
    subst hp
    cases hpsw : m.heap p with
    | none => exact .none
    | some psw => exact .some (h psw hpsw)
  · exact touches_refl _

/-- What a step makes of a wrapper, when the pointers of the map lead where they are filed. -/
theorem walkStep_touches
    (hfiled : ∀ ix c q, OMap.cell m.subtoClient ix c = some (some q) → q = (ix, c)) :
    Option.Rel (walk.Touches p) (m.heap p) ((walkStep mt md stray (walk, m)).2.heap p) := by
  have hmoves := walkStep_moves mt md stray walk m
  generalize walkStep mt md stray (walk, m) = σ at hmoves ⊢
  cases hmoves with
  | tests _ _ _ hpsw htest =>
    refine touches_modify fun psw₁ hpsw₁ => ?_
    obtain rfl := Option.some.inj (hpsw.symm.trans hpsw₁)
    exact testWrapper_touches htest
  | marks hplace _ _ hcell =>
    obtain rfl := hfiled _ _ _ hcell
    exact touches_modify fun psw _ => ⟨.refl psw, .inr ⟨hplace, rfl⟩⟩
  | _ => exact touches_refl _

end Places

/-! ## A walk alone -/

/-- A visit is a test, and a mark if it matches. -/
theorem visitWrapper_eq (mt md e : String) (w : PubsubWrapper) :
    visitWrapper mt md e w =
      (testWrapper mt md e w).map fun r => if r.2 then markTriggered md r.1 else r.1 := by
  unfold visitWrapper testWrapper
  split
  · rfl
  · split
    · cases checkIfTriggureMetaGrid w md <;> rfl
    · rfl

section Stored

variable {ρ : Type*} (ptrs : Pointers ρ) (s : Store) (ix c : String)

theorem cell_stored :
    OMap.cell (Shared.stored ptrs s).subtoClient ix c =
      (s.wrapper? ix c).map fun _ => some (ptrs.ptr (ix, c)) :=
  OMap.cell_map s.subtoClient (fun ix c _ => some (ptrs.ptr (ix, c))) ix c

theorem rowEntries_stored :
    OMap.rowEntries (Shared.stored ptrs s).subtoClient ix =
      (s.clients ix).map fun c => (c, some (ptrs.ptr (ix, c))) :=
  OMap.rowEntries_map s.subtoClient (fun ix c => some (ptrs.ptr (ix, c))) ix

theorem heap_stored (p : Place) :
    (Shared.stored ptrs s).heap (ptrs.ptr p) = s.wrapper? p.1 p.2 := by
  change (ptrs.place? (ptrs.ptr p)).bind _ = _
  rw [(ptrs.place?_eq_some _ p).2 rfl, Option.bind_some]

/-- A write through a pointer leaves the maps alone. -/
theorem stored_modifyWrapper [DecidableEq ρ] (w' : PubsubWrapper) :
    Shared.stored ptrs (s.modifyWrapper ix c fun _ => w') =
      (Shared.stored ptrs s).modify (ptrs.ptr (ix, c)) fun _ => w' := by
  ext1
  · rfl
  · refine OMap.ext_cell (fun ix' => ?_) fun ix' c' => ?_
    · exact ExtTreeMap.mem_map.trans (OMap.mem_modifyCell.trans ExtTreeMap.mem_map.symm)
    · change OMap.cell (Shared.stored ptrs (s.modifyWrapper ix c fun _ => w')).subtoClient ix' c' =
        OMap.cell (Shared.stored ptrs s).subtoClient ix' c'
      rw [cell_stored, cell_stored, Store.wrapper?_modifyWrapper]
      split
      · rw [Option.map_map]
        rfl
      · rfl
  · funext q
    rw [Shared.heap_modify]
    cases hplace : ptrs.place? q with
    | none =>
      -- no place has this pointer
      have hne : q ≠ ptrs.ptr (ix, c) := fun heq => by
        rw [(ptrs.place?_eq_some q (ix, c)).2 heq] at hplace
        cases hplace
      rw [if_neg hne]
      simp only [Shared.stored, hplace, Option.bind_none]
    | some p =>
      obtain rfl := (ptrs.place?_eq_some q p).1 hplace
      have hptr : ptrs.ptr p = ptrs.ptr (ix, c) ↔ ix = p.1 ∧ c = p.2 := by
        rw [← ptrs.place?_eq_some, hplace, Option.some_inj, Prod.ext_iff]
        exact and_congr eq_comm eq_comm
      rw [heap_stored, heap_stored, Store.wrapper?_modifyWrapper]
      exact if_congr hptr.symm rfl rfl

theorem cell_ofStore :
    OMap.cell (Shared.ofStore s).subtoClient ix c = (s.wrapper? ix c).map fun _ => some (ix, c) :=
  cell_stored .places s ix c

theorem rowEntries_ofStore :
    OMap.rowEntries (Shared.ofStore s).subtoClient ix =
      (s.clients ix).map fun c => (c, some (ix, c)) :=
  rowEntries_stored .places s ix

theorem ofStore_modifyWrapper (w' : PubsubWrapper) :
    Shared.ofStore (s.modifyWrapper ix c fun _ => w') =
      (Shared.ofStore s).modify (ix, c) fun _ => w' :=
  stored_modifyWrapper .places s ix c w'

end Stored

section Alone

variable {ρ : Type*} [DecidableEq ρ] {mt md : String} {ptrs : Pointers ρ} {s s' : Store}

/-- The walk takes some steps. -/
def Walks (mt md : String) (σ σ' : Walk ρ × Shared ρ) : Prop :=
  ∃ n, Schedule.run (walkStep mt md) (List.replicate n false) σ = σ'

theorem Walks.refl (σ : Walk ρ × Shared ρ) : Walks mt md σ σ := Schedule.Alone.refl _ σ

theorem Walks.head {σ σ' : Walk ρ × Shared ρ} (h : Walks mt md (walkStep mt md false σ) σ') :
    Walks mt md σ σ' :=
  Schedule.Alone.head rfl h

theorem Walks.trans {σ₁ σ₂ σ₃ : Walk ρ × Shared ρ} (h : Walks mt md σ₁ σ₂)
    (h' : Walks mt md σ₂ σ₃) : Walks mt md σ₁ σ₃ :=
  Schedule.Alone.trans h h'

/-- The walk comes to where a piece of `pubsubPublish` ends: at `next`, when it goes on. -/
def WalksTo (ptrs : Pointers ρ) (mt md : String) (σ : Walk ρ × Shared ρ) (next : Walk ρ) :
    Flow Fault Store → Prop
  | .next s => Walks mt md σ (next, .stored ptrs s)
  | .ret s => Walks mt md σ (.done, .stored ptrs s)
  | .fault _ s => Walks mt md σ (.raised, .stored ptrs s)

theorem WalksTo.head {σ : Walk ρ × Shared ρ} {next : Walk ρ} {r : Flow Fault Store}
    (h : WalksTo ptrs mt md (walkStep mt md false σ) next r) : WalksTo ptrs mt md σ next r := by
  cases r <;> exact Walks.head h

/-- One piece after the other. -/
theorem WalksTo.andThen {σ : Walk ρ × Shared ρ} {next last : Walk ρ} {r : Flow Fault Store}
    {k : Store → Flow Fault Store} (h : WalksTo ptrs mt md σ next r)
    (hk : ∀ s, r = .next s → WalksTo ptrs mt md (next, .stored ptrs s) last (k s)) :
    WalksTo ptrs mt md σ last (r.andThen k) := by
  cases r with
  | next s =>
    have hrest := hk s rfl
    rw [Flow.next_andThen]
    cases hs : k s with
    | next s' => rw [hs] at hrest; exact Walks.trans h hrest
    | ret s' => rw [hs] at hrest; exact Walks.trans h hrest
    | fault x s' => rw [hs] at hrest; exact Walks.trans h hrest
  | ret s => exact h
  | fault x s => exact h

/-- The innermost loop. -/
theorem walks_clients (event ix : String) {cs : List String} (hcs : ∀ c ∈ cs, c ∈ s.clients ix)
    (ixs L : List String) :
    WalksTo ptrs mt md
      (.clients event ix (cs.map fun c => (c, some (ptrs.ptr (ix, c)))) ixs L, .stored ptrs s)
      (.indexEvents event ixs L) (Flow.forEach (publishClient mt md event ix) cs s) := by
  induction cs generalizing s with
  | nil => exact Walks.head (.refl _)
  | cons c cs ih =>
    rw [List.forall_mem_cons] at hcs
    obtain ⟨w, hw⟩ := Store.mem_clients.1 hcs.1
    have hrest : ∀ w', WalksTo ptrs mt md
        (.clients event ix (cs.map fun c => (c, some (ptrs.ptr (ix, c)))) ixs L,
          (Shared.stored ptrs s).modify (ptrs.ptr (ix, c)) fun _ => w')
        (.indexEvents event ixs L)
        (Flow.forEach (publishClient mt md event ix) cs (s.modifyWrapper ix c fun _ => w')) := by
      intro w'
      rw [← stored_modifyWrapper]
      refine ih fun c' hc' => ?_
      rw [(Store.SameShape.modifyWrapper s ix c _).clients_eq]
      exact hcs.2 c' hc'
    have hheap : (Shared.stored ptrs s).heap (ptrs.ptr (ix, c)) = some w :=
      (heap_stored ptrs s (ix, c)).trans hw
    rw [Flow.forEach_cons, publishClient, hw]
    dsimp only
    rw [visitWrapper_eq]
    apply WalksTo.head
    cases htest : testWrapper mt md event w with
    | error x =>
      simp only [walkStep, List.map_cons, hheap, htest]
      exact Walks.refl _
    | ok r =>
      obtain ⟨w', tempiftrigure⟩ := r
      simp only [walkStep, List.map_cons, hheap, htest]
      cases tempiftrigure with
      | false => exact hrest w'
      | true =>
        -- the client is marked through the map, which has its pointer
        have hcell : OMap.cell
            ((Shared.stored ptrs s).modify (ptrs.ptr (ix, c)) fun _ => w').subtoClient ix c =
            some (some (ptrs.ptr (ix, c))) := by
          change OMap.cell (Shared.stored ptrs s).subtoClient ix c = _
          rw [cell_stored, hw, Option.map_some]
        apply WalksTo.head
        simp only [walkStep, ↓reduceIte, hcell, Shared.modify_modify]
        exact hrest (markTriggered md w')

/-- The loop over the index events, which returns when a row is not there. -/
theorem walks_indexEvents (event : String) (ixs L : List String) :
    WalksTo ptrs mt md (.indexEvents event ixs L, .stored ptrs s) (.events L)
      (Flow.forEach (publishIndex mt md event) ixs s) := by
  induction ixs generalizing s with
  | nil => exact Walks.head (.refl _)
  | cons ix ixs ih =>
    rw [Flow.forEach_cons, publishIndex]
    apply WalksTo.head
    by_cases hix : ix ∈ s.subtoClient
    · have hmem : ix ∈ (Shared.stored ptrs s).subtoClient := ExtTreeMap.mem_map.2 hix
      rw [if_pos hix]
      simp only [walkStep, hmem, ↓reduceIte]
      apply WalksTo.head
      simp only [walkStep, rowEntries_stored]
      exact (walks_clients event ix (fun _ hc => hc) ixs L).andThen fun s' _ => ih
    · have hmem : ix ∉ (Shared.stored ptrs s).subtoClient := fun h => hix (ExtTreeMap.mem_map.1 h)
      rw [if_neg hix]
      simp only [walkStep, hmem, ↓reduceIte]
      exact Walks.refl _

/-- **A walk that runs alone** does what `pubsubPublish` does. -/
theorem walk_alone (ptrs : Pointers ρ) (mt md : String) (L : List String) (s : Store) :
    WalksTo ptrs mt md (.events L, .stored ptrs s) .done (pubsubPublish L mt md s) := by
  induction L generalizing s with
  | nil => exact Walks.head (.refl _)
  | cons event L ih =>
    have hcons : pubsubPublish (event :: L) mt md s =
        (publishEvent mt md event s).andThen (pubsubPublish L mt md) := rfl
    rw [hcons, publishEvent]
    apply WalksTo.head
    by_cases hevent : event ∈ (Shared.stored ptrs s).getIndexMap
    · simp only [walkStep, hevent, ↓reduceIte]
      apply WalksTo.head
      exact (walks_indexEvents event (s.indexEvents event) L).andThen fun s' _ => ih s'
    · -- an event that is not registered has no index events
      have hnone : s.indexEvents event = [] := by
        simp [Store.indexEvents, show s.getIndexMap[event]? = none from
          ExtTreeMap.getElem?_eq_none hevent]
      simp only [walkStep, hevent, ↓reduceIte, hnone, Flow.forEach_nil, Flow.next_andThen]
      exact ih s

end Alone

end TPST
