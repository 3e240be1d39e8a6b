import Mathlib.Algebra.BigOperators.Fin
import Mathlib.Algebra.Order.BigOperators.Group.Finset
import TPST.Foundations.Threads
import TPST.Utils.FileLock

/-!
# Sections under the file lock

Each process runs sections one after the other: `getLock`, then `releaseLock`, for one directory at
a time, as `updateWorkerAddrMap` and `createFile` do. In `getLock` it may find the file there again
and again.

A file that is there was made by a process that will remove it, or it was there at the start and
stays for ever (`Tidy`). So under every schedule in which each process moves again all sections come
to their end exactly if no lock file was left behind (`sections_finish`).
-/

namespace TPST

open Schedule

/-- The files and the processes, and the sections that each process has not left: the directory, and
the identity that it gives. -/
structure SectionState (ι φ : Type*) where
  lock : LockState ι φ
  todo : ι → List (String × String)

namespace SectionState

variable {ι φ : Type*} [DecidableEq ι] [DecidableEq φ] (resolve : String → φ)

/-- The next step of a process. Between its calls it calls `getLock`, or `releaseLock` when it holds
the directory of its section. -/
def step (i : ι) (σ : SectionState ι φ) : SectionState ι φ :=
  match (σ.lock.processes i).pc, σ.todo i with
  | .idle, [] => σ
  | .idle, (dir, identity) :: rest =>
    if (σ.lock.processes i).held dir = none then
      { σ with lock := σ.lock.step resolve (.getLock i dir identity) }
    else
      { lock := σ.lock.step resolve (.releaseLock i dir)
        todo := Function.update σ.todo i rest }
  | _, _ => { σ with lock := σ.lock.step resolve (.proceed i) }

/-- No process has come to its first section. -/
def start (files : φ → Option String) (todo : ι → List (String × String)) : SectionState ι φ :=
  ⟨.start files, todo⟩

/-- The process has left all its sections. -/
def Finished (i : ι) (σ : SectionState ι φ) : Prop :=
  (σ.lock.processes i).pc = .idle ∧ σ.todo i = []

end SectionState

/-! ## One process -/

/-- What a process holds is what its next section is about. -/
def Process.Follows (p : Process) (todo : List (String × String)) : Prop :=
  match p.pc with
  | .idle => ∀ dir, p.held dir ≠ none → ∃ identity rest, todo = (dir, identity) :: rest
  | .create dir identity => (∀ dir', p.held dir' = none) ∧ ∃ rest, todo = (dir, identity) :: rest
  | .openFile dir identity => (∀ dir', p.held dir' = none) ∧ ∃ rest, todo = (dir, identity) :: rest
  | .write dir identity => (∀ dir', p.held dir' = none) ∧ ∃ rest, todo = (dir, identity) :: rest
  | .read _ => ∀ dir', p.held dir' = none
  | .remove _ => ∀ dir', p.held dir' = none

/-- The steps ahead of a process that never finds the file there. -/
def Process.ahead (p : Process) (todo : List (String × String)) : ℕ :=
  match p.pc, todo with
  | .idle, [] => 0
  | .idle, (dir, _) :: rest => 7 * rest.length + if p.held dir = none then 7 else 3
  | .create _ _, todo => 7 * todo.length - 1
  | .openFile _ _, todo => 7 * todo.length - 2
  | .write _ _, todo => 7 * todo.length - 3
  | .read _, todo => 7 * todo.length + 2
  | .remove _, todo => 7 * todo.length + 1

namespace SectionState

section Tidy

variable {ι φ : Type*} {resolve : String → φ} {files₀ : φ → Option String}
  {todo₀ : ι → List (String × String)}

/-- The lock file of a directory was left behind. -/
def Stale (resolve : String → φ) (files₀ : φ → Option String) (dir : String) : Prop :=
  files₀ (resolve (lockFilePath dir)) ≠ none

/-- The files that are there are claimed, or they were left behind; those are never claimed, and
their sections never left. -/
structure Tidy (resolve : String → φ) (files₀ : φ → Option String)
    (todo₀ : ι → List (String × String)) (σ : SectionState ι φ) : Prop where
  inv : LockState.Inv resolve σ.lock
  follows : ∀ i, (σ.lock.processes i).Follows (σ.todo i)
  files_iff : ∀ file, σ.lock.files file ≠ none ↔ files₀ file ≠ none ∨
    ∃ i dir, (σ.lock.processes i).Claims dir ∧ resolve (lockFilePath dir) = file
  fresh : ∀ i dir, (σ.lock.processes i).Claims dir → ¬ Stale resolve files₀ dir
  subset : ∀ i, σ.todo i ⊆ todo₀ i
  stuck : ∀ i, ∀ s ∈ todo₀ i, Stale resolve files₀ s.1 → s ∈ σ.todo i

theorem tidy_start (resolve : String → φ) (files : φ → Option String)
    (todo : ι → List (String × String)) : Tidy resolve files todo (start files todo) where
  inv := LockState.inv_start files
  follows _ _ hheld := absurd rfl hheld
  files_iff file := by
    refine (or_iff_left ?_).symm
    rintro ⟨i, dir, hwithin | hheld, -⟩
    · exact hwithin
    · exact hheld rfl
  fresh i dir hclaims := by
    rcases hclaims with hwithin | hheld
    · exact hwithin.elim
    · exact absurd rfl hheld
  subset _ := List.Subset.refl _
  stuck _ _ hs _ := hs

variable [DecidableEq ι] {σ : SectionState ι φ} {i : ι} {p : Process}
  {todo : List (String × String)} {dir : String}

/-- A process that claims what it claimed, and touches no file. -/
theorem Tidy.move (h : Tidy resolve files₀ todo₀ σ)
    (hinv : LockState.Inv resolve { σ.lock with processes := Function.update σ.lock.processes i p })
    (hfollows : p.Follows todo) (hclaims : ∀ dir, p.Claims dir ↔ (σ.lock.processes i).Claims dir)
    (hsubset : todo ⊆ σ.todo i)
    (hleft : ∀ s ∈ σ.todo i, s ∈ todo ∨ (σ.lock.processes i).Claims s.1) :
    Tidy resolve files₀ todo₀
      { lock := { σ.lock with processes := Function.update σ.lock.processes i p }
        todo := Function.update σ.todo i todo } := by
  have hsame : ∀ j dir, (Function.update σ.lock.processes i p j).Claims dir ↔
      (σ.lock.processes j).Claims dir := by
    intro j dir
    rcases eq_or_ne j i with rfl | hne
    · rw [Function.update_self]
      exact hclaims dir
    · rw [Function.update_of_ne hne]
  refine ⟨hinv, fun j => ?_, fun file => ?_, fun j dir hj => h.fresh j dir ((hsame j dir).1 hj),
    fun j => ?_, fun j s hs hstale => ?_⟩
  · rcases eq_or_ne j i with rfl | hne
    · simpa only [Function.update_self] using hfollows
    · simpa only [Function.update_of_ne hne] using h.follows j
  · simp only [hsame]
    exact h.files_iff file
  · rcases eq_or_ne j i with rfl | hne
    · simp only [Function.update_self]
      exact fun s hs => h.subset j (hsubset hs)
    · simpa only [Function.update_of_ne hne] using h.subset j
  · have hs' := h.stuck j s hs hstale
    rcases eq_or_ne j i with rfl | hne
    · simp only [Function.update_self]
      exact (hleft s hs').resolve_right fun hclaim => h.fresh j s.1 hclaim hstale
    · simpa only [Function.update_of_ne hne] using hs'

variable [DecidableEq φ]

/-- A process that touches the file of its section. -/
theorem Tidy.touch (h : Tidy resolve files₀ todo₀ σ) {content : Option String}
    (hmine : (σ.lock.processes i).Claims dir ∨
      σ.lock.files (resolve (lockFilePath dir)) = none)
    (hold : ∀ dir', (σ.lock.processes i).Claims dir' → dir' = dir)
    (hinv : LockState.Inv resolve
      { files := Function.update σ.lock.files (resolve (lockFilePath dir)) content
        processes := Function.update σ.lock.processes i p })
    (hfollows : p.Follows (σ.todo i))
    (hclaims : ∀ dir', p.Claims dir' ↔ dir' = dir ∧ content ≠ none) :
    Tidy resolve files₀ todo₀
      { σ with
        lock :=
          { files := Function.update σ.lock.files (resolve (lockFilePath dir)) content
            processes := Function.update σ.lock.processes i p } } := by
  -- the file was not left behind, and nobody else claims it
  have hfresh : ¬ Stale resolve files₀ dir := by
    rcases hmine with hmine | hnone
    · exact h.fresh i dir hmine
    · exact fun hstale => (h.files_iff _).2 (.inl hstale) hnone
  have hothers : ∀ {j dir'}, (σ.lock.processes j).Claims dir' →
      resolve (lockFilePath dir') = resolve (lockFilePath dir) → j = i := by
    intro j dir' hj hfile
    rcases hmine with hmine | hnone
    · exact (h.inv.exclusive hj hmine hfile).1
    · exact absurd (hfile ▸ hnone) (h.inv.present hj)
  refine ⟨hinv, fun j => ?_, fun file => ?_, fun j dir' hj => ?_, h.subset, h.stuck⟩
  · rcases eq_or_ne j i with rfl | hne
    · simpa only [Function.update_self] using hfollows
    · simpa only [Function.update_of_ne hne] using h.follows j
  · rcases eq_or_ne file (resolve (lockFilePath dir)) with rfl | hfile
    · simp only [Function.update_self]
      constructor
      · intro hcontent
        refine .inr ⟨i, dir, ?_, rfl⟩
        rw [Function.update_self]
        exact (hclaims dir).2 ⟨rfl, hcontent⟩
      · rintro (hstale | ⟨j, dir', hj, hsame⟩)
        · exact absurd hstale hfresh
        · rcases eq_or_ne j i with rfl | hne
          · rw [Function.update_self] at hj
            exact ((hclaims dir').1 hj).2
          · rw [Function.update_of_ne hne] at hj
            exact absurd (hothers hj hsame) hne
    · simp only [Function.update_of_ne hfile]
      rw [h.files_iff file]
      refine or_congr_right (exists_congr fun j => exists_congr fun dir' => ?_)
      rcases eq_or_ne j i with rfl | hne
      · rw [Function.update_self]
        -- neither before nor after does it claim another file
        constructor
        · rintro ⟨hj, rfl⟩
          exact absurd (by rw [hold dir' hj]) hfile
        · rintro ⟨hj, rfl⟩
          exact absurd (by rw [((hclaims dir').1 hj).1]) hfile
      · rw [Function.update_of_ne hne]
  · rcases eq_or_ne j i with rfl | hne
    · simp only [Function.update_self] at hj
      rw [((hclaims dir').1 hj).1]
      exact hfresh
    · simp only [Function.update_of_ne hne] at hj
      exact h.fresh j dir' hj

/-- What a process does that is not stopped. -/
structure Goes (resolve : String → φ) (files₀ : φ → Option String)
    (todo₀ : ι → List (String × String)) (i : ι) (σ σ' : SectionState ι φ) : Prop where
  tidy : Tidy resolve files₀ todo₀ σ'
  ahead : (σ'.lock.processes i).ahead (σ'.todo i) < (σ.lock.processes i).ahead (σ.todo i)
  others : ∀ j, j ≠ i →
    σ'.lock.processes j = σ.lock.processes j ∧ σ'.todo j = σ.todo j

/-- The process finds the file there. -/
def Waits (resolve : String → φ) (i : ι) (σ : SectionState ι φ) : Prop :=
  ∃ dir identity, (σ.lock.processes i).pc = .create dir identity ∧
    σ.lock.files (resolve (lockFilePath dir)) ≠ none

/-- Moving one process leaves the others. -/
theorem others_update {procs procs' : ι → Process} {todos todos' : ι → List (String × String)}
    (hprocs : procs' = Function.update procs i p) (htodos : todos' = Function.update todos i todo)
    (j : ι) (hj : j ≠ i) : procs' j = procs j ∧ todos' j = todos j := by
  rw [hprocs, htodos, Function.update_of_ne hj, Function.update_of_ne hj]
  exact ⟨rfl, rfl⟩

/-- A process that touches no file goes on. -/
theorem Tidy.goes_move (h : Tidy resolve files₀ todo₀ σ) {event : LockEvent ι}
    (hlock : σ.lock.step resolve event =
      { σ.lock with processes := Function.update σ.lock.processes i p })
    (hfollows : p.Follows todo) (hclaims : ∀ dir, p.Claims dir ↔ (σ.lock.processes i).Claims dir)
    (hsubset : todo ⊆ σ.todo i)
    (hleft : ∀ s ∈ σ.todo i, s ∈ todo ∨ (σ.lock.processes i).Claims s.1)
    (hahead : p.ahead todo < (σ.lock.processes i).ahead (σ.todo i)) :
    Goes resolve files₀ todo₀ i σ
      { lock := σ.lock.step resolve event, todo := Function.update σ.todo i todo } where
  tidy := by
    have hinv := h.inv.step event
    rw [hlock] at hinv ⊢
    exact h.move hinv hfollows hclaims hsubset hleft
  ahead := by
    simpa only [hlock, Function.update_self] using hahead
  others := others_update (congrArg LockState.processes hlock) rfl

/-- A process that touches the file of its section goes on. -/
theorem Tidy.goes_touch (h : Tidy resolve files₀ todo₀ σ) {event : LockEvent ι} (dir : String)
    (content : Option String)
    (hlock : σ.lock.step resolve event =
      { files := Function.update σ.lock.files (resolve (lockFilePath dir)) content
        processes := Function.update σ.lock.processes i p })
    (hmine : (σ.lock.processes i).Claims dir ∨ σ.lock.files (resolve (lockFilePath dir)) = none)
    (hold : ∀ dir', (σ.lock.processes i).Claims dir' → dir' = dir)
    (hfollows : p.Follows (σ.todo i))
    (hclaims : ∀ dir', p.Claims dir' ↔ dir' = dir ∧ content ≠ none)
    (hahead : p.ahead (σ.todo i) < (σ.lock.processes i).ahead (σ.todo i)) :
    Goes resolve files₀ todo₀ i σ { σ with lock := σ.lock.step resolve event } where
  tidy := by
    have hinv := h.inv.step event
    rw [hlock] at hinv ⊢
    exact h.touch hmine hold hinv hfollows hclaims
  ahead := by
    simpa only [hlock, Function.update_self] using hahead
  others := others_update (congrArg LockState.processes hlock) (Function.update_eq_self i _).symm

/-- **A process goes on** unless it has finished, or finds the file there. -/
theorem Tidy.goes (h : Tidy resolve files₀ todo₀ σ) (i : ι) :
    (step resolve i σ = σ ∧ (Finished i σ ∨ Waits resolve i σ)) ∨
      Goes resolve files₀ todo₀ i σ (step resolve i σ) := by
  have hfollows := h.follows i
  cases hpc : (σ.lock.processes i).pc with
  | idle =>
    cases htodo : σ.todo i with
    | nil => exact .inl ⟨by rw [step, hpc, htodo], .inl ⟨hpc, htodo⟩⟩
    | cons s rest =>
      obtain ⟨dir, identity⟩ := s
      simp only [Process.Follows, hpc] at hfollows
      have honly : ∀ d, (σ.lock.processes i).held d ≠ none → d = dir := by
        intro d hd
        obtain ⟨identity', rest', heq⟩ := hfollows d hd
        rw [htodo] at heq
        exact (Prod.mk.inj (List.cons.inj heq).1).1.symm
      right
      by_cases hheld : (σ.lock.processes i).held dir = none
      · have hnone : ∀ d, (σ.lock.processes i).held d = none := by
          intro d
          by_contra hd
          exact hd (honly d hd ▸ hheld)
        have hstep : step resolve i σ =
            { lock := σ.lock.step resolve (.getLock i dir identity)
              todo := Function.update σ.todo i (σ.todo i) } := by
          simp only [step, hpc, htodo, if_pos hheld]
          rw [← htodo, Function.update_eq_self]
        rw [hstep]
        refine h.goes_move (p := { σ.lock.processes i with pc := .create dir identity })
          (by simp [LockState.step, hpc]) ⟨hnone, rest, htodo⟩ (fun d => ?_) (List.Subset.refl _)
          (fun s hs => .inl hs) ?_
        · exact or_congr_left (by simp [hpc, LockPc.Within])
        · simp only [Process.ahead, hpc, htodo, if_pos hheld, List.length_cons]
          omega
      · have hstep : step resolve i σ =
            { lock := σ.lock.step resolve (.releaseLock i dir)
              todo := Function.update σ.todo i rest } := by
          simp only [step, hpc, htodo, if_neg hheld]
        rw [hstep]
        have hgone : ∀ d, Function.update (σ.lock.processes i).held dir none d = none := by
          intro d
          rcases eq_or_ne d dir with rfl | hne
          · exact Function.update_self ..
          · rw [Function.update_of_ne hne]
            by_contra hd
            exact hne (honly d hd)
        refine h.goes_move
          (p := { pc := .read dir, held := Function.update (σ.lock.processes i).held dir none })
          (by simp [LockState.step, hpc, hheld]) hgone (fun d => ?_) ?_ (fun s hs => ?_) ?_
        · constructor
          · rintro (hdir | hd)
            · obtain rfl : dir = d := hdir
              exact .inr hheld
            · exact absurd (hgone d) hd
          · rintro (hidle | hd)
            · simp [hpc, LockPc.Within] at hidle
            · exact .inl (honly d hd).symm
        · rw [htodo]
          exact List.subset_cons_self _ _
        · rw [htodo] at hs
          rcases List.mem_cons.1 hs with rfl | hs
          · exact .inr (.inr hheld)
          · exact .inl hs
        · simp only [Process.ahead, hpc, htodo, if_neg hheld]
          omega
  | create dir identity =>
    have hstep : step resolve i σ = { σ with lock := σ.lock.step resolve (.proceed i) } := by
      simp only [step, hpc]
    rw [Process.Follows, hpc] at hfollows
    obtain ⟨hnone, rest, htodo⟩ := hfollows
    by_cases hfile : σ.lock.files (resolve (lockFilePath dir)) = none
    · right
      rw [hstep]
      refine h.goes_touch dir (some "")
        (p := { σ.lock.processes i with pc := .openFile dir identity })
        (by simp [LockState.step, LockState.proceed, hpc, hfile]) (.inr hfile) (fun d hd => ?_)
        ⟨hnone, rest, htodo⟩ (fun d => ?_) ?_
      · exact (hd.elim (by simp [hpc, LockPc.Within]) fun hheld => absurd (hnone d) hheld)
      · simp [Process.Claims, LockPc.Within, hnone, eq_comm]
      · simp only [Process.ahead, hpc, htodo, List.length_cons]
        omega
    · left
      refine ⟨?_, .inr ⟨dir, identity, hpc, hfile⟩⟩
      rw [hstep]
      simp [LockState.step, LockState.proceed, hpc, hfile]
  | openFile dir identity =>
    have hstep : step resolve i σ = { σ with lock := σ.lock.step resolve (.proceed i) } := by
      simp only [step, hpc]
    rw [Process.Follows, hpc] at hfollows
    obtain ⟨hnone, rest, htodo⟩ := hfollows
    right
    rw [hstep]
    refine h.goes_touch dir (some "")
      (p := { σ.lock.processes i with pc := .write dir identity })
      (by simp [LockState.step, LockState.proceed, hpc]) (.inl (.inl (by rw [hpc]; rfl)))
      (fun d hd => ?_) ⟨hnone, rest, htodo⟩ (fun d => ?_) ?_
    · refine hd.elim (fun hwithin => ?_) fun hheld => absurd (hnone d) hheld
      rw [hpc] at hwithin
      exact hwithin.symm
    · simp [Process.Claims, LockPc.Within, hnone, eq_comm]
    · simp only [Process.ahead, hpc, htodo, List.length_cons]
      omega
  | write dir identity =>
    have hstep : step resolve i σ = { σ with lock := σ.lock.step resolve (.proceed i) } := by
      simp only [step, hpc]
    rw [Process.Follows, hpc] at hfollows
    obtain ⟨hnone, rest, htodo⟩ := hfollows
    have honly : ∀ d, Function.update (σ.lock.processes i).held dir (some identity) d ≠ none ↔
        d = dir := by
      intro d
      rcases eq_or_ne d dir with rfl | hne
      · simp
      · simp [hne, hnone]
    right
    rw [hstep]
    refine h.goes_touch dir (some identity)
      (p := { pc := .idle
              held := Function.update (σ.lock.processes i).held dir (some identity) })
      (by simp [LockState.step, LockState.proceed, hpc]) (.inl (.inl (by rw [hpc]; rfl)))
      (fun d hd => ?_) (fun d hd => ?_) (fun d => ?_) ?_
    · refine hd.elim (fun hwithin => ?_) fun hheld => absurd (hnone d) hheld
      rw [hpc] at hwithin
      exact hwithin.symm
    · obtain rfl := (honly d).1 hd
      exact ⟨identity, rest, htodo⟩
    · simp only [Process.Claims, LockPc.Within, false_or, honly]
      simp
    · simp only [Process.ahead, hpc, htodo, List.length_cons, Function.update_self]
      simp only [reduceCtorEq, if_false]
      omega
  | read dir =>
    have hstep : step resolve i σ =
        { lock := σ.lock.step resolve (.proceed i)
          todo := Function.update σ.todo i (σ.todo i) } := by
      simp only [step, hpc, Function.update_eq_self]
    rw [Process.Follows, hpc] at hfollows
    right
    rw [hstep]
    refine h.goes_move (p := { σ.lock.processes i with pc := .remove dir })
      (by simp [LockState.step, LockState.proceed, hpc]) hfollows (fun d => ?_)
      (List.Subset.refl _) (fun s hs => .inl hs) ?_
    · exact or_congr_left (by rw [hpc]; exact Iff.rfl)
    · simp only [Process.ahead, hpc]
      omega
  | remove dir =>
    have hstep : step resolve i σ = { σ with lock := σ.lock.step resolve (.proceed i) } := by
      simp only [step, hpc]
    rw [Process.Follows, hpc] at hfollows
    right
    rw [hstep]
    refine h.goes_touch dir none
      (p := { σ.lock.processes i with pc := .idle })
      (by simp [LockState.step, LockState.proceed, hpc]) (.inl (.inl (by rw [hpc]; rfl)))
      (fun d hd => ?_) (fun d hd => absurd (hfollows d) hd) (fun d => ?_) ?_
    · refine hd.elim (fun hwithin => ?_) fun hheld => absurd (hfollows d) hheld
      rw [hpc] at hwithin
      exact hwithin.symm
    · simp [Process.Claims, LockPc.Within, hfollows]
    · cases htodo : σ.todo i with
      | nil => simp [Process.ahead, hpc]
      | cons s rest =>
        simp only [Process.ahead, hpc, hfollows s.1, if_true, List.length_cons]
        omega

/-! ## Every run -/

theorem tidy_step (i : ι) (σ : SectionState ι φ) (h : Tidy resolve files₀ todo₀ σ) :
    Tidy resolve files₀ todo₀ (step resolve i σ) := by
  rcases h.goes i with ⟨hstep, -⟩ | hgoes
  · rwa [hstep]
  · exact hgoes.tidy

/-- The steps ahead of all processes. -/
def aheadAll [Fintype ι] (σ : SectionState ι φ) : ℕ :=
  ∑ i, (σ.lock.processes i).ahead (σ.todo i)

theorem aheadAll_step [Fintype ι] (i : ι) (σ : SectionState ι φ)
    (h : Tidy resolve files₀ todo₀ σ) :
    step resolve i σ = σ ∨ aheadAll (step resolve i σ) < aheadAll σ := by
  rcases h.goes i with ⟨hstep, -⟩ | hgoes
  · exact .inl hstep
  · right
    refine Finset.sum_lt_sum (fun j _ => ?_) ⟨i, Finset.mem_univ i, hgoes.ahead⟩
    rcases eq_or_ne j i with rfl | hne
    · exact hgoes.ahead.le
    · obtain ⟨hprocess, htodo⟩ := hgoes.others j hne
      rw [hprocess, htodo]

/-- **A state at rest is the end** if no lock file was left behind: who has the file for which a
process waits could go on. -/
theorem Tidy.finished (h : Tidy resolve files₀ todo₀ σ)
    (hclean : ∀ i, ∀ s ∈ todo₀ i, ¬ Stale resolve files₀ s.1)
    (hrest : ∀ i, step resolve i σ = σ) (i : ι) : Finished i σ := by
  have hstuck : ∀ j, Finished j σ ∨ Waits resolve j σ := by
    intro j
    rcases h.goes j with ⟨-, hends⟩ | hgoes
    · exact hends
    · have hahead := hgoes.ahead
      rw [hrest j] at hahead
      exact absurd hahead (Nat.lt_irrefl _)
  rcases hstuck i with hfinished | ⟨dir, identity, hpc, hfile⟩
  · exact hfinished
  rcases (h.files_iff _).1 hfile with hstale | ⟨j, dir', hclaims, -⟩
  · have hfollows := h.follows i
    rw [Process.Follows, hpc] at hfollows
    obtain ⟨-, rest, htodo⟩ := hfollows
    have hmem : (dir, identity) ∈ todo₀ i := h.subset i (htodo ▸ List.mem_cons_self)
    exact absurd hstale (hclean i _ hmem)
  · have hfollows := h.follows j
    rcases hstuck j with ⟨hidle, htodo⟩ | ⟨dir'', identity', hcreate, -⟩
    · rw [Process.Follows, hidle] at hfollows
      rcases hclaims with hwithin | hheld
      · simp [hidle, LockPc.Within] at hwithin
      · obtain ⟨_, _, heq⟩ := hfollows dir' hheld
        simp [htodo] at heq
    · rw [Process.Follows, hcreate] at hfollows
      rcases hclaims with hwithin | hheld
      · simp [hcreate, LockPc.Within] at hwithin
      · exact absurd (hfollows.1 dir') hheld

/-- **All sections come to their end exactly if no lock file was left behind**, under every schedule
in which each process moves again. -/
theorem sections_finish [Fintype ι] (resolve : String → φ) (files : φ → Option String)
    (todo : ι → List (String × String)) {f : ℕ → ι} (hfair : ∀ i n, ∃ m, n ≤ m ∧ f m = i) :
    (∃ N, ∀ n, N ≤ n → ∀ i, Finished i (states (step resolve) f (start files todo) n)) ↔
      ∀ i, ∀ s ∈ todo i, files (resolve (lockFilePath s.1)) = none := by
  have htidy := states_induction (f := f) tidy_step (tidy_start resolve files todo)
  constructor
  · rintro ⟨N, hN⟩ i s hs
    by_contra hstale
    have hmem := (htidy N).stuck i s hs hstale
    rw [(hN N le_rfl i).2] at hmem
    exact List.not_mem_nil hmem
  · intro hclean
    have hlower (i : ι) (σ : SectionState ι φ) (h : Tidy resolve files todo σ) (_ : True) :
        step resolve i σ = σ ∨ aheadAll (step resolve i σ) < aheadAll σ := aheadAll_step i σ h
    have hmoves : Fair (step resolve) (fun (_ : ι) _ => True) (fun i e => e = i) f
        (start files todo) := fun i n _ => hfair i n
    obtain ⟨N, hrest, hstill⟩ := eventually_atRest tidy_step hlower
      (tidy_start resolve files todo) ⟨0, fun _ _ => trivial⟩ hmoves
    refine ⟨N, fun n hn i => ?_⟩
    rw [hstill n hn]
    refine (htidy N).finished (fun j s hs hstale => hstale (hclean j s hs)) (fun j => ?_) i
    obtain ⟨e, rfl, he⟩ := hrest j trivial
    exact he

end Tidy

/-- Two processes in turn, each with a section for the same directory. -/
theorem sections_finish_two :
    ∃ N, ∀ n, N ≤ n → ∀ i : Fin 2, Finished i (states (step id) (fun n => Fin.ofNat 2 n)
      (start (fun _ => none) fun _ => [("./multinodeip/cluster0", "n0")]) n) := by
  have hfair : ∀ (i : Fin 2) (n : ℕ), ∃ m, n ≤ m ∧ Fin.ofNat 2 m = i := by
    intro i n
    refine ⟨2 * n + i, by omega, ?_⟩
    ext
    simp only [Fin.ofNat]
    omega
  exact (sections_finish id _ _ hfair).2 fun _ _ _ => rfl

end SectionState

end TPST
