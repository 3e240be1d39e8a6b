import TPST.Foundations.Maps
import TPST.Foundations.Schedules

/-!
# The metadata space

`metaSpace` keeps one value for every key. `Putmetaspace` is to store a value for a new key only; it
looks the key up before it takes `metaSpaceMutex`, and so does `Getmetaspace`. This is a model of
any number of handlers under any interleaving of the lookups and the locked sections.

`writeOnce_iff`: the space is write-once exactly if no locked section finds another value stored for
its key than the one it writes.
-/

namespace TPST

open Std

/-- `metaSpace`. -/
abbrev MetaSpace := OMap String String

/-- A request for the metadata space. -/
inductive SpaceRequest
  | put (key value : String)
  | get (key : String)
  deriving DecidableEq, Repr

/-- Where a handler is: a `Putmetaspace` before its lookup or about to write, a `Getmetaspace`
before its lookup or about to read. -/
inductive SpaceHandler
  | put (key value : String)
  | putWrite (key value : String)
  | get (key : String)
  | getRead (key : String)
  | replied
  deriving DecidableEq, Repr

/-- The space, the handlers, and what `Getmetaspace` replied, by key; a reply without value is
`NULL`. -/
structure SpaceServer (ι : Type*) where
  metaSpace : MetaSpace
  handlers : ι → SpaceHandler
  replies : List (String × Option String)

/-- `Putmetaspace`. -/
def putmetaspace (key value : String) (metaSpace : MetaSpace) : MetaSpace :=
  if key ∈ metaSpace then metaSpace else metaSpace.insert key value

/-- What `Getmetaspace` finds. -/
def getmetaspace (key : String) (metaSpace : MetaSpace) : Option String :=
  if key ∈ metaSpace then some (metaSpace.getD key "") else none

namespace SpaceServer

variable {ι : Type*}

/-- The next step of a handler. The locked `metaSpace[key]` of `Getmetaspace` finds the key that its
lookup found. -/
def step [DecidableEq ι] (i : ι) (σ : SpaceServer ι) : SpaceServer ι :=
  let goto : SpaceHandler → ι → SpaceHandler := Function.update σ.handlers i
  match σ.handlers i with
  | .put key value =>
    { σ with handlers := goto (if key ∈ σ.metaSpace then .replied else .putWrite key value) }
  | .putWrite key value =>
    { σ with metaSpace := σ.metaSpace.insert key value, handlers := goto .replied }
  | .get key =>
    if key ∈ σ.metaSpace then { σ with handlers := goto (.getRead key) }
    else { σ with handlers := goto .replied, replies := σ.replies ++ [(key, none)] }
  | .getRead key =>
    { σ with
      handlers := goto .replied
      replies := σ.replies ++ [(key, some (σ.metaSpace.getD key ""))] }
  | .replied => σ

/-- A handler at its beginning. -/
def handle : SpaceRequest → SpaceHandler
  | .put key value => .put key value
  | .get key => .get key

/-- All requests have come in, and none is served yet. -/
def start (requests : ι → SpaceRequest) : SpaceServer ι where
  metaSpace := ∅
  handlers i := handle (requests i)
  replies := []

/-- A value that is stored stays stored, and once a request has been answered with a value, every
later request for its key is answered with the same. -/
structure WriteOnce [DecidableEq ι] (requests : ι → SpaceRequest) (ts : List ι) : Prop where
  stored : ∀ pre mid post, ts = pre ++ mid ++ post → ∀ key value : String,
    (Schedule.run step pre (start requests)).metaSpace[key]? = some value →
      (Schedule.run step (pre ++ mid) (start requests)).metaSpace[key]? = some value
  answered : (Schedule.run step ts (start requests)).replies.Pairwise fun reply later =>
    reply.1 = later.1 → ∀ value, reply.2 = some value → later.2 = some value

/-- A locked section that writes finds no other value stored. -/
def Unchanging (i : ι) (σ : SpaceServer ι) : Prop :=
  match σ.handlers i with
  | .putWrite key value => σ.metaSpace.getD key value = value
  | _ => True

instance (i : ι) (σ : SpaceServer ι) : Decidable (Unchanging i σ) := by
  unfold Unchanging
  split <;> infer_instance

/-! ## One handler alone -/

section Alone

variable [DecidableEq ι] {σ : SpaceServer ι} {i : ι} {key value : String}

theorem putmetaspace_alone (hi : σ.handlers i = .put key value) :
    Schedule.run step [i, i] σ =
      { σ with
        metaSpace := putmetaspace key value σ.metaSpace
        handlers := Function.update σ.handlers i .replied } := by
  rw [Schedule.run_cons, Schedule.run_cons, Schedule.run_nil]
  by_cases hkey : key ∈ σ.metaSpace
  · simp [step, hi, hkey, putmetaspace]
  · simp [step, hi, hkey, putmetaspace, Function.update_idem]

theorem getmetaspace_alone (hi : σ.handlers i = .get key) :
    Schedule.run step [i, i] σ =
      { σ with
        handlers := Function.update σ.handlers i .replied
        replies := σ.replies ++ [(key, getmetaspace key σ.metaSpace)] } := by
  rw [Schedule.run_cons, Schedule.run_cons, Schedule.run_nil]
  by_cases hkey : key ∈ σ.metaSpace
  · simp [step, hi, hkey, getmetaspace, Function.update_idem]
  · simp [step, hi, hkey, getmetaspace]

end Alone

/-! ## Write once -/

/-- A handler about to read has found its key, a value that was answered is stored, and later
answers are the same. -/
structure Inv (σ : SpaceServer ι) : Prop where
  found : ∀ {i key}, σ.handlers i = .getRead key → key ∈ σ.metaSpace
  stored : ∀ {key value}, (key, some value) ∈ σ.replies → σ.metaSpace[key]? = some value
  answered : σ.replies.Pairwise fun reply later =>
    reply.1 = later.1 → ∀ value, reply.2 = some value → later.2 = some value

section Inv

variable {σ : SpaceServer ι} {i : ι} {key value : String}

/-- A locked section that finds no other value stored keeps what is stored. -/
theorem getElem?_insert_of_getD {m : MetaSpace} {key' value' : String}
    (hsame : m.getD key value = value) (h : m[key']? = some value') :
    (m.insert key value)[key']? = some value' := by
  rw [ExtTreeMap.getElem?_insert]
  by_cases hkey : key = key'
  · subst hkey
    rw [ExtTreeMap.getD_eq_getD_getElem?, h, Option.getD_some] at hsame
    simp [hsame]
  · simp [hkey, h]

/-- An answer that agrees with what is stored agrees with the answers before it. -/
theorem Inv.answer (h : Inv σ) {reply : Option String} (hreply : reply = σ.metaSpace[key]?) :
    (σ.replies ++ [(key, reply)]).Pairwise fun reply later =>
      reply.1 = later.1 → ∀ value, reply.2 = some value → later.2 = some value := by
  refine List.pairwise_append.2 ⟨h.answered, List.pairwise_singleton _ _, ?_⟩
  rintro ⟨key', reply'⟩ hold later hlater rfl value rfl
  rw [List.mem_singleton] at hlater
  subst hlater
  rw [hreply]
  exact h.stored hold

/-- The handlers about to read have found their key still, when one of them moves elsewhere. -/
theorem Inv.found_update [DecidableEq ι] (h : Inv σ) {m : MetaSpace} {pc : SpaceHandler}
    (hkeeps : ∀ key, key ∈ σ.metaSpace → key ∈ m) (hpc : ∀ key, pc = .getRead key → key ∈ m)
    {j : ι} (hj : Function.update σ.handlers i pc j = .getRead key) : key ∈ m := by
  rw [Function.update_apply] at hj
  split at hj
  · exact hpc key hj
  · exact hkeeps key (h.found hj)

variable [DecidableEq ι]

/-- **A step that finds no other value stored keeps what is stored.** -/
theorem stored_step (hi : Unchanging i σ) (h : σ.metaSpace[key]? = some value) :
    (step i σ).metaSpace[key]? = some value := by
  unfold Unchanging at hi
  unfold step
  split
  · exact h
  · rename_i hpc
    rw [hpc] at hi
    exact getElem?_insert_of_getD hi h
  · split <;> exact h
  · exact h
  · exact h

/-- Such a step keeps the invariant. -/
theorem Inv.step (h : Inv σ) (hi : Unchanging i σ) : Inv (step i σ) := by
  have hstored : ∀ {key value : String}, (key, some value) ∈ σ.replies →
      (SpaceServer.step i σ).metaSpace[key]? = some value := fun hmem =>
    stored_step hi (h.stored hmem)
  unfold SpaceServer.step at hstored ⊢
  cases hpc : σ.handlers i with
  | put key value =>
    simp only [hpc] at hstored ⊢
    refine ⟨fun hj => h.found_update (fun _ hkey => hkey) (fun key' hread => ?_) hj, hstored,
      h.answered⟩
    split at hread <;> cases hread
  | putWrite key value =>
    simp only [hpc] at hstored ⊢
    exact ⟨fun hj => h.found_update (fun _ hkey => ExtTreeMap.mem_insert.2 (.inr hkey))
      (fun _ hread => by cases hread) hj, hstored, h.answered⟩
  | get key =>
    simp only [hpc] at hstored ⊢
    split
    · rename_i hkey
      exact ⟨fun hj => h.found_update (fun _ hkey' => hkey')
        (fun _ hread => SpaceHandler.getRead.inj hread ▸ hkey) hj, h.stored, h.answered⟩
    · rename_i hkey
      refine ⟨fun hj => h.found_update (fun _ hkey' => hkey') (fun _ hread => by cases hread) hj,
        fun {key' value'} hmem => ?_, h.answer (ExtTreeMap.getElem?_eq_none hkey).symm⟩
      rcases List.mem_append.1 hmem with hold | hnew
      · exact h.stored hold
      · simp at hnew
  | getRead key =>
    simp only [hpc] at hstored ⊢
    -- the key was found, so what is read is what is stored
    obtain ⟨value, hvalue⟩ := ExtTreeMap.mem_iff_isSome_getElem?.1 (h.found hpc)
      |> Option.isSome_iff_exists.1
    have hread : σ.metaSpace.getD key "" = value := by
      rw [ExtTreeMap.getD_eq_getD_getElem?, hvalue, Option.getD_some]
    rw [hread]
    refine ⟨fun hj => h.found_update (fun _ hkey => hkey) (fun _ hread => by cases hread) hj,
      fun {key' value'} hmem => ?_, h.answer hvalue.symm⟩
    rcases List.mem_append.1 hmem with hold | hnew
    · exact h.stored hold
    · obtain ⟨rfl, hvalue'⟩ := Prod.mk.inj (List.mem_singleton.1 hnew)
      rw [hvalue, hvalue']
  | replied => exact h

end Inv

theorem inv_start (requests : ι → SpaceRequest) : Inv (start requests) where
  found {i key} hread := by
    rw [start] at hread
    cases hrequest : requests i <;> simp [hrequest, handle] at hread
  stored hmem := by simp [start] at hmem
  answered := .nil

/-- **When the metadata space is write-once**: exactly if no locked section that writes finds
another value stored for its key. -/
theorem writeOnce_iff [DecidableEq ι] (requests : ι → SpaceRequest) (ts : List ι) :
    WriteOnce requests ts ↔ Schedule.Along step Unchanging ts (start requests) := by
  constructor
  · intro hwrite
    rw [Schedule.along_iff]
    intro pre i post hts
    unfold Unchanging
    split
    · rename_i key value hpc
      rw [ExtTreeMap.getD_eq_getD_getElem?]
      cases hvalue : (Schedule.run step pre (start requests)).metaSpace[key]? with
      | none => rfl
      | some value' =>
        have hafter := hwrite.stored pre [i] post (by simpa using hts) key value' hvalue
        rw [Schedule.run_append, Schedule.run_cons, Schedule.run_nil] at hafter
        simpa [step, hpc] using hafter.symm
    · trivial
  · intro halong
    refine ⟨fun pre mid post hts key value hvalue => ?_, ?_⟩
    · rw [hts, Schedule.along_append, Schedule.along_append] at halong
      have hkeep : ∀ i (σ : SpaceServer ι), σ.metaSpace[key]? = some value → Unchanging i σ →
          (step i σ).metaSpace[key]? = some value := fun _ _ h hi => stored_step hi h
      rw [Schedule.run_append]
      exact Schedule.run_induction_along hkeep hvalue halong.1.2
    · exact (Schedule.run_induction_along (fun _ _ h hi => h.step hi) (inv_start requests)
        halong).answered

/-- Two handlers put a new key: neither finds it, and the second overwrites what the first one
stored. -/
theorem writeOnce_fails :
    ¬ ∀ (requests : Bool → SpaceRequest) (ts : List Bool), WriteOnce requests ts := by
  intro h
  have hstored := (h (fun i => .put "k" (if i then "a" else "b"))
    [true, false, true, false]).stored [true, false, true] [false] [] rfl "k" "a"
    (by decide +kernel)
  revert hstored
  decide +kernel

end SpaceServer

end TPST
