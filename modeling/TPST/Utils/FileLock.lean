import Mathlib.Logic.Function.Basic
import TPST.Foundations.Schedules

/-!
# The file lock

`dlm.cc` locks a directory by a file in it. `getLock` tries to create the file until it succeeds,
then opens it again and writes the identity of the caller; `releaseLock` reads the file and removes
it, without looking at whose it is.

This is a model of any number of processes under any interleaving of their file operations. A file
is named by what its path resolves to, so that two paths may lead to one file. The exclusive create
succeeds exactly if the file is not there.

From its exclusive create to its remove a process claims the directory (`Process.Claims`), and no
two claims are to one file (`Inv`); hence `mutual_exclusion`.
-/

namespace TPST

/-- `lockFileName`. -/
def lockFileName : String := "fileLock"

/-- The path of the lock file of a directory. -/
def lockFilePath (dir : String) : String := dir ++ "/" ++ lockFileName

/-- The file operation that a process comes to next. -/
inductive LockPc
  /-- Outside of `getLock` and `releaseLock`. -/
  | idle
  /-- `atomicCreate`, in the loop of `getLock`. -/
  | create (dir identity : String)
  /-- Opening the file, which truncates it or creates it. -/
  | openFile (dir identity : String)
  /-- Writing the identity. -/
  | write (dir identity : String)
  /-- Reading the file, in `releaseLock`. -/
  | read (dir : String)
  | remove (dir : String)
  deriving DecidableEq, Repr

/-- A process: where it is, and for the directories between the return of its `getLock` and its call
of `releaseLock`, the identity it has given. -/
structure Process where
  pc : LockPc
  held : String → Option String

/-- What happens next: a process calls `getLock` or `releaseLock`, or comes to its next file
operation. -/
inductive LockEvent (ι : Type*)
  | getLock (i : ι) (dir identity : String)
  | releaseLock (i : ι) (dir : String)
  | proceed (i : ι)

/-- The files, by what they contain, and the processes. -/
structure LockState (ι φ : Type*) where
  files : φ → Option String
  processes : ι → Process

namespace LockState

variable {ι φ : Type*} [DecidableEq ι] [DecidableEq φ] (resolve : String → φ)

/-- The next file operation of a process. -/
def proceed (i : ι) (σ : LockState ι φ) : LockState ι φ :=
  let p := σ.processes i
  let goto (pc : LockPc) : ι → Process := Function.update σ.processes i { p with pc := pc }
  match p.pc with
  | .idle => σ
  | .create dir identity =>
    let file := resolve (lockFilePath dir)
    if σ.files file = none then
      { files := Function.update σ.files file (some "")
        processes := goto (.openFile dir identity) }
    else σ
  | .openFile dir identity =>
    { files := Function.update σ.files (resolve (lockFilePath dir)) (some "")
      processes := goto (.write dir identity) }
  | .write dir identity =>
    { files := Function.update σ.files (resolve (lockFilePath dir)) (some identity)
      processes := Function.update σ.processes i
        { pc := .idle, held := Function.update p.held dir (some identity) } }
  | .read dir => { σ with processes := goto (.remove dir) }
  | .remove dir =>
    { files := Function.update σ.files (resolve (lockFilePath dir)) none
      processes := goto .idle }

/-- One step. A process calls `getLock` when it is in neither of the two, and `releaseLock` when it
also holds the directory. -/
def step (event : LockEvent ι) (σ : LockState ι φ) : LockState ι φ :=
  match event with
  | .getLock i dir identity =>
    let p := σ.processes i
    if p.pc = .idle then
      { σ with processes := Function.update σ.processes i { p with pc := .create dir identity } }
    else σ
  | .releaseLock i dir =>
    let p := σ.processes i
    if p.pc = .idle ∧ p.held dir ≠ none then
      { σ with
        processes := Function.update σ.processes i
          { pc := .read dir, held := Function.update p.held dir none } }
    else σ
  | .proceed i => proceed resolve i σ

/-- No process has come to the lock yet; some files may be there. -/
def start (files : φ → Option String) : LockState ι φ where
  files := files
  processes _ := ⟨.idle, fun _ => none⟩

end LockState

/-! ## Who has the file -/

/-- The file operation is one between the exclusive create in `dir` and the remove. -/
def LockPc.Within (dir : String) : LockPc → Prop
  | .openFile dir' _ => dir' = dir
  | .write dir' _ => dir' = dir
  | .read dir' => dir' = dir
  | .remove dir' => dir' = dir
  | _ => False

/-- The process has created the lock file of `dir` and has not removed it. -/
def Process.Claims (p : Process) (dir : String) : Prop := p.pc.Within dir ∨ p.held dir ≠ none

namespace LockState

variable {ι φ : Type*} {resolve : String → φ}

/-- A file is claimed once at most, and while it is, it is there; when the lock is held, it contains
the identity given. -/
structure Inv (resolve : String → φ) (σ : LockState ι φ) : Prop where
  exclusive : ∀ {i j dir dir'}, (σ.processes i).Claims dir → (σ.processes j).Claims dir' →
    resolve (lockFilePath dir) = resolve (lockFilePath dir') → i = j ∧ dir = dir'
  within : ∀ {i dir}, (σ.processes i).pc.Within dir → (σ.processes i).held dir = none
  present : ∀ {i dir}, (σ.processes i).Claims dir → σ.files (resolve (lockFilePath dir)) ≠ none
  content : ∀ {i dir identity}, (σ.processes i).held dir = some identity →
    σ.files (resolve (lockFilePath dir)) = some identity

section Inv

variable [DecidableEq ι] {σ : LockState ι φ} {i : ι} {p : Process} {dir : String}

theorem Inv.within_update (h : Inv resolve σ) (hp : ∀ dir, p.pc.Within dir → p.held dir = none)
    {j : ι} (hj : (Function.update σ.processes i p j).pc.Within dir) :
    (Function.update σ.processes i p j).held dir = none := by
  simp only [Function.update_apply] at hj ⊢
  split at hj
  · rename_i hji
    rw [if_pos hji]
    exact hp dir hj
  · rename_i hji
    rw [if_neg hji]
    exact h.within hj

/-- A process that moves without touching a file keeps the invariant if it claims nothing new. -/
theorem Inv.move (h : Inv resolve σ)
    (hclaims : ∀ dir, p.Claims dir → (σ.processes i).Claims dir)
    (hwithin : ∀ dir, p.pc.Within dir → p.held dir = none)
    (hheld : ∀ dir identity, p.held dir = some identity →
      (σ.processes i).held dir = some identity) :
    Inv resolve { σ with processes := Function.update σ.processes i p } := by
  have hold : ∀ {j dir}, (Function.update σ.processes i p j).Claims dir →
      (σ.processes j).Claims dir := by
    intro j dir hj
    rw [Function.update_apply] at hj
    split at hj
    · rename_i hji
      rw [hji]
      exact hclaims dir hj
    · exact hj
  refine ⟨fun hi hj => h.exclusive (hold hi) (hold hj), h.within_update hwithin,
    fun hj => h.present (hold hj), fun {j dir identity} hj => ?_⟩
  simp only [Function.update_apply] at hj
  split at hj
  · exact h.content (hheld dir identity hj)
  · exact h.content hj

variable [DecidableEq φ]

/-- A process that writes to a file it has claimed, or that is not there, keeps the invariant if it
claims nothing else that is new. -/
theorem Inv.touch (h : Inv resolve σ) {content : Option String}
    (hmine : (σ.processes i).Claims dir ∨ σ.files (resolve (lockFilePath dir)) = none)
    (hclaims : ∀ dir', p.Claims dir' → dir' = dir ∨ (σ.processes i).Claims dir')
    (hwithin : ∀ dir', p.pc.Within dir' → p.held dir' = none)
    (hpresent : p.Claims dir → content ≠ none)
    (hheld : ∀ dir' identity, p.held dir' = some identity →
      if dir' = dir then content = some identity
      else (σ.processes i).held dir' = some identity) :
    Inv resolve
      { files := Function.update σ.files (resolve (lockFilePath dir)) content
        processes := Function.update σ.processes i p } := by
  -- a claim to the file is this one
  have hfree : ∀ {j dir'}, (σ.processes j).Claims dir' →
      resolve (lockFilePath dir') = resolve (lockFilePath dir) → j = i ∧ dir' = dir := by
    intro j dir' hj hfile
    rcases hmine with hmine | hnone
    · exact h.exclusive hj hmine hfile
    · rw [← hfile] at hnone
      exact absurd hnone (h.present hj)
  have hold : ∀ {j dir'}, (Function.update σ.processes i p j).Claims dir' →
      (j = i ∧ dir' = dir) ∨ (σ.processes j).Claims dir' := by
    intro j dir' hj
    rw [Function.update_apply] at hj
    split at hj
    · rename_i hji
      rw [hji]
      exact (hclaims dir' hj).imp (⟨rfl, ·⟩) id
    · exact .inr hj
  refine ⟨fun {j k d d'} hj hk hfile => ?_, h.within_update hwithin, fun {j d} hj => ?_,
    fun {j d identity} hj => ?_⟩
  · rcases hold hj with ⟨rfl, rfl⟩ | hj'
    · rcases hold hk with ⟨rfl, rfl⟩ | hk'
      · exact ⟨rfl, rfl⟩
      · obtain ⟨rfl, rfl⟩ := hfree hk' hfile.symm
        exact ⟨rfl, rfl⟩
    · rcases hold hk with ⟨rfl, rfl⟩ | hk'
      · exact hfree hj' hfile
      · exact h.exclusive hj' hk' hfile
  · change Function.update σ.files _ content _ ≠ none
    rw [Function.update_apply]
    split
    · rename_i hfile
      obtain ⟨rfl, rfl⟩ : j = i ∧ d = dir := (hold hj).elim id fun hj' => hfree hj' hfile
      simp only [Function.update_self] at hj
      exact hpresent hj
    · rename_i hfile
      exact (hold hj).elim (fun hji => absurd (by rw [hji.2]) hfile) fun hj' => h.present hj'
  · change Function.update σ.files _ content _ = some identity
    have hclaim : (Function.update σ.processes i p j).Claims d := .inr (by rw [hj]; simp)
    simp only [Function.update_apply] at hj
    rw [Function.update_apply]
    split at hj
    · rename_i hji
      have hthis := hheld d identity hj
      split at hthis
      · rename_i hd
        rw [if_pos (by rw [hd]), hthis]
      · rename_i hd
        have hclaim' : (σ.processes i).Claims d := .inr (by rw [hthis]; simp)
        rw [if_neg fun hfile => hd (hfree hclaim' hfile).2]
        exact h.content hthis
    · rename_i hji
      have hclaim' : (σ.processes j).Claims d := .inr (by rw [hj]; simp)
      rw [if_neg fun hfile => hji (hfree hclaim' hfile).1]
      exact h.content hj

/-- What a process holds that does not hold `dir`. -/
theorem held_of_ne {content : Option String} (hdir : p.held dir = none) (dir' identity : String)
    (hheld : p.held dir' = some identity) :
    if dir' = dir then content = some identity else p.held dir' = some identity := by
  split
  · rename_i heq
    rw [heq, hdir] at hheld
    cases hheld
  · exact hheld

/-- **A file operation keeps the invariant.** -/
theorem Inv.proceed (h : Inv resolve σ) (i : ι) : Inv resolve (proceed resolve i σ) := by
  have hfree : ∀ {dir}, (σ.processes i).pc.Within dir → (σ.processes i).held dir = none := h.within
  unfold LockState.proceed
  dsimp only
  cases hpc : (σ.processes i).pc with
  | idle => exact h
  | create dir identity =>
    dsimp only
    split
    · rename_i hnone
      -- the file is not there, so nobody claims it
      have hheld : (σ.processes i).held dir = none := by
        by_contra hheld
        exact h.present (.inr hheld) hnone
      refine h.touch (.inr hnone) (fun dir' hclaims => hclaims.imp Eq.symm .inr)
        (fun dir' hdir' => ?_) (fun _ => by simp) (held_of_ne hheld)
      obtain rfl : dir = dir' := hdir'
      exact hheld
    · exact h
  | openFile dir identity =>
    have hheld : (σ.processes i).held dir = none := hfree (by rw [hpc]; rfl)
    refine h.touch (.inl (.inl (by rw [hpc]; rfl)))
      (fun dir' hclaims => hclaims.imp Eq.symm .inr) (fun dir' hdir' => ?_) (fun _ => by simp)
      (held_of_ne hheld)
    obtain rfl : dir = dir' := hdir'
    exact hheld
  | write dir identity =>
    refine h.touch (.inl (.inl (by rw [hpc]; rfl))) (fun dir' hclaims => ?_)
      (fun dir' hdir' => False.elim hdir') (fun _ => by simp) (fun dir' identity' hheld' => ?_)
    · by_cases hdir' : dir' = dir
      · exact .inl hdir'
      · rcases hclaims with hwithin | hheld
        · exact False.elim hwithin
        · simp only [Function.update_of_ne hdir'] at hheld
          exact .inr (.inr hheld)
    · by_cases hdir' : dir' = dir
      · simp only [hdir', Function.update_self] at hheld'
        rw [if_pos hdir', hheld']
      · simp only [Function.update_of_ne hdir'] at hheld'
        rw [if_neg hdir', hheld']
  | read dir =>
    refine h.move (fun dir' hclaims => hclaims.imp (fun hdir' => ?_) id) (fun dir' hdir' => ?_)
      fun _ _ hheld => hheld
    · rw [hpc]
      exact hdir'
    · exact hfree (by rw [hpc]; exact hdir')
  | remove dir =>
    have hheld : (σ.processes i).held dir = none := hfree (by rw [hpc]; rfl)
    refine h.touch (.inl (.inl (by rw [hpc]; rfl)))
      (fun dir' hclaims => .inr (hclaims.imp False.elim id)) (fun dir' hdir' => False.elim hdir')
      (fun hclaims => ?_) (held_of_ne hheld)
    exact absurd hheld (hclaims.resolve_left id)

/-- **One step.** -/
theorem Inv.step (h : Inv resolve σ) (event : LockEvent ι) :
    Inv resolve (step resolve event σ) := by
  cases event with
  | proceed i => exact h.proceed i
  | getLock i dir identity =>
    unfold LockState.step
    dsimp only
    split
    · exact h.move (fun dir' hclaims => .inr (hclaims.resolve_left id))
        (fun _ hdir' => False.elim hdir') fun _ _ hheld => hheld
    · exact h
  | releaseLock i dir =>
    unfold LockState.step
    dsimp only
    split
    · rename_i hholds
      refine h.move (fun dir' hclaims => ?_) (fun dir' hdir' => ?_) fun dir' identity hheld => ?_
      · rcases hclaims with hwithin | hheld
        · obtain rfl : dir = dir' := hwithin
          exact .inr hholds.2
        · by_cases hdir' : dir' = dir
          · simp [hdir'] at hheld
          · simp only [Function.update_of_ne hdir'] at hheld
            exact .inr hheld
      · obtain rfl : dir = dir' := hdir'
        exact Function.update_self _ _ _
      · by_cases hdir' : dir' = dir
        · simp [hdir'] at hheld
        · simpa only [Function.update_of_ne hdir'] using hheld
    · exact h

end Inv

theorem inv_start (files : φ → Option String) : Inv resolve (start files : LockState ι φ) where
  exclusive hi _ _ := by simp [start, Process.Claims, LockPc.Within] at hi
  within _ := rfl
  present hi := by simp [start, Process.Claims, LockPc.Within] at hi
  content hheld := by simp [start] at hheld

/-- **The file lock gives mutual exclusion.** In every state of every run, no two processes are
between the return of `getLock` and the call of `releaseLock` for one directory, and while a process
is, the lock file is there and contains the identity that it has given. -/
theorem mutual_exclusion [DecidableEq ι] [DecidableEq φ] (resolve : String → φ)
    (files : φ → Option String) (events : List (LockEvent ι)) :
    Schedule.Always (step resolve)
      (fun σ => (∀ i j dir, (σ.processes i).held dir ≠ none → (σ.processes j).held dir ≠ none →
          i = j) ∧
        ∀ i dir identity, (σ.processes i).held dir = some identity →
          σ.files (resolve (lockFilePath dir)) = some identity)
      events (start files) := by
  apply Schedule.always_of_invariant (fun event σ (h : Inv resolve σ) => h.step event)
    (fun σ h => ?_) (inv_start files)
  exact ⟨fun i j dir hi hj => (h.exclusive (.inr hi) (.inr hj) rfl).1,
    fun i dir identity hheld => h.content hheld⟩

end LockState

end TPST
