import Mathlib.Data.List.Perm.Subperm
import TPST.Server.Delivering

/-!
# At most one task for each match

In every run of the handlers, the `checkNotify` tasks and the consumer, no client has more tasks
started than elements pushed, nor more elements pushed than times a publish found it triggered; and
the tasks are started in the order of the pushes (`startsOnce`).

The invariant is an account of each wrapper: what was pushed for it, and what is owed to it, is at
most what publishes found. Owed are the marks to be written, the mark in the wrapper, and the
marks that tasks have cleared and not pushed. That a task which comes to clear a mark is the only
one to do so, and the mark is still there, is due to `pswmtx`.
-/

namespace TPST

open Std

namespace Delivering

/-- No client has more tasks started than elements pushed, nor more elements pushed than times a
publish found it triggered; and what was started, in its order, followed by elements that are still
queued, is what was pushed. -/
structure StartsOnce (σ : State) : Prop where
  started_le : ∀ c, σ.started.countP (·.clientid = c) ≤
    (σ.pushed.map Prod.snd).countP (·.clientid = c)
  pushed_le : ∀ c, (σ.pushed.map Prod.snd).countP (·.clientid = c) ≤ σ.found.countP (·.2 = c)
  order : ∃ waiting, σ.pushed.map Prod.snd = σ.started ++ waiting ∧ waiting <:+ σ.notifyQueue

/-! ## The invariant -/

namespace Task

/-- The task holds the `pswmtx` of the wrapper at `p`. -/
def holds (p : Place) : Task → Bool
  | .test l | .clear l | .unlock l _ => l.psw = p
  | _ => false

/-- The task comes to clear the mark of the wrapper at `p`. -/
def clears (p : Place) : Task → Bool
  | .clear l => l.psw = p
  | _ => false

/-- The task has cleared the mark of the wrapper at `p`, and has not pushed. -/
def owes (p : Place) : Task → Bool
  | .unlock l true | .inform l | .push l _ => l.psw = p
  | _ => false

/-- The client id that the task has read is the one its wrapper is filed under. -/
def Named : Task → Prop
  | .lock l | .test l | .clear l | .unlock l _ | .inform l => l.clientidstr = l.psw.2
  | .push l ninfo => ninfo.clientid = l.psw.2
  | _ => True

theorem holds_of_clears {p : Place} {task : Task} (h : task.clears p = true) :
    task.holds p = true := by
  cases task with
  | clear l => exact h
  | _ => cases h

end Task

/-- The handler comes to mark the wrapper at `p`. -/
def Handler.marks (p : Place) : Handler → Bool
  | .walk w => w.marks = some p
  | _ => false

/-- The mark of the wrapper at `p`. -/
def mark (m : Shared Place) (p : Place) : Bool := (m.heap p).any (·.iftrigure)

namespace State

/-- The pushes to come for the wrapper at `p`. -/
def owed (σ : State) (p : Place) : ℕ :=
  σ.handlers.countP (·.2.marks p) + (mark σ.shared p).toNat + σ.tasks.countP (·.owes p)

/-- What was started, and what the queue holds behind it, is what was pushed. -/
def InOrder (σ : State) : Prop :=
  match σ.consumer with
  | .poll | .round _ => σ.pushed.map Prod.snd = σ.started ++ σ.notifyQueue
  | .front _ => σ.pushed.map Prod.snd = σ.started ++ σ.notifyQueue ∧ σ.notifyQueue ≠ []
  | .start ninfo _ =>
    σ.pushed.map Prod.snd = σ.started ++ σ.notifyQueue ∧ σ.notifyQueue.head? = some ninfo
  | .pop _ => σ.pushed.map Prod.snd = σ.started ++ σ.notifyQueue.tail ∧ σ.notifyQueue ≠ []
  | .crashed => False

end State

/-- An element pushed goes behind the others, wherever the consumer is. -/
theorem State.InOrder.push {σ σ' : State} {push : Place × NotifyInfo} (h : σ.InOrder)
    (hpushed : σ'.pushed = σ.pushed ++ [push])
    (hqueue : σ'.notifyQueue = σ.notifyQueue ++ [push.2]) (hconsumer : σ'.consumer = σ.consumer)
    (hstarted : σ'.started = σ.started) : σ'.InOrder := by
  unfold State.InOrder at h ⊢
  rw [hpushed, hqueue, hconsumer, hstarted, List.map_append, List.map_singleton]
  revert h
  cases σ.consumer with
  | poll => exact fun h => by rw [h, List.append_assoc]
  | round rounds => exact fun h => by rw [h, List.append_assoc]
  | front rounds =>
    rintro ⟨h, hne⟩
    exact ⟨by rw [h, List.append_assoc], by simp⟩
  | start ninfo rounds =>
    rintro ⟨h, hhead⟩
    exact ⟨by rw [h, List.append_assoc], by simp [hhead]⟩
  | pop rounds =>
    rintro ⟨h, hne⟩
    exact ⟨by rw [h, List.append_assoc, List.tail_append_of_ne_nil hne], by simp⟩
  | crashed => exact False.elim

structure Inv (σ : State) : Prop where
  filed : ∀ ix c q, OMap.cell σ.shared.subtoClient ix c = some (some q) → q = (ix, c)
  clientID : ∀ p psw, σ.shared.heap p = some psw → psw.clientID = p.2
  named : ∀ task ∈ σ.tasks, task.Named
  pushed : ∀ push ∈ σ.pushed, push.2.clientid = push.1.2
  mutex : ∀ p, σ.tasks.countP (·.holds p) ≤ (σ.pswmtx p).toNat
  clearing : ∀ p, σ.tasks.countP (·.clears p) ≤ (mark σ.shared p).toNat
  account : ∀ p, (σ.pushed.map Prod.fst).count p + σ.owed p ≤ σ.found.count p
  order : σ.InOrder

/-! ## A task moves -/

section Tasks

variable {σ : State} {k : ℕ} {task task' : Task} {p : Place}

theorem countP_set_add {α : Type*} {l : List α} {a b : α} (P : α → Bool) (hk : l[k]? = some a) :
    (l.set k b).countP P + (P a).toNat = l.countP P + (P b).toNat := by
  obtain ⟨hlt, rfl⟩ := List.getElem?_eq_some_iff.1 hk
  have hle : (P l[k]).toNat ≤ l.countP P := by
    cases hP : P l[k] with
    | false => exact Nat.zero_le _
    | true => exact List.countP_pos_iff.2 ⟨_, List.getElem_mem hlt, hP⟩
  have hite : ∀ x : Bool, (if x = true then 1 else 0) = x.toNat := by
    intro x
    cases x <;> rfl
  rw [List.countP_set hlt, hite, hite]
  omega

theorem Inv.named_set (h : Inv σ) (hnamed : task'.Named) :
    ∀ t ∈ σ.tasks.set k task', t.Named := by
  intro t ht
  rcases List.mem_or_eq_of_mem_set ht with hmem | rfl
  · exact h.named t hmem
  · exact hnamed

/-- A task that moves, and what it changes of its wrapper and its lock. -/
theorem Inv.move (h : Inv σ) (hk : σ.tasks[k]? = some task) {m' : Shared Place}
    {pswmtx' : Place → Bool}
    (hmap : m'.subtoClient = σ.shared.subtoClient)
    (hid : ∀ p psw, m'.heap p = some psw → psw.clientID = p.2) (hnamed : task'.Named)
    (hmutex : ∀ p, (σ.pswmtx p).toNat + (task'.holds p).toNat ≤
      (pswmtx' p).toNat + (task.holds p).toNat)
    (hclears : ∀ p, (task'.clears p).toNat ≤ (mark m' p).toNat)
    (hmark : ∀ p, (mark σ.shared p).toNat ≤ (mark m' p).toNat + (task.clears p).toNat)
    (howes : ∀ p, (mark m' p).toNat + (task'.owes p).toNat ≤
      (mark σ.shared p).toNat + (task.owes p).toNat) :
    Inv { σ with shared := m', tasks := σ.tasks.set k task', pswmtx := pswmtx' } where
  filed ix c q hq := h.filed ix c q (by rwa [← hmap])
  clientID := hid
  named := h.named_set hnamed
  pushed := h.pushed
  mutex p := by
    have hset := countP_set_add (b := task') (·.holds p) hk
    have := h.mutex p
    have := hmutex p
    dsimp only at hset ⊢
    omega
  clearing p := by
    have hset := countP_set_add (b := task') (·.clears p) hk
    have hholds := countP_set_add (b := task') (·.holds p) hk
    have hle : (σ.tasks.set k task').countP (·.clears p) ≤
        (σ.tasks.set k task').countP (·.holds p) :=
      List.countP_mono_left fun t _ ht => Task.holds_of_clears ht
    have hone := (pswmtx' p).toNat_le
    have := h.mutex p
    have := h.clearing p
    have := hmutex p
    have := hclears p
    have := hmark p
    dsimp only at hset hholds ⊢
    omega
  account p := by
    have hset := countP_set_add (b := task') (·.owes p) hk
    have hacc := h.account p
    have := howes p
    simp only [State.owed] at hset hacc ⊢
    omega
  order := h.order

/-- A task that moves and leaves its wrapper alone. -/
theorem Inv.goto (h : Inv σ) (hk : σ.tasks[k]? = some task) {pswmtx' : Place → Bool}
    (hnamed : task'.Named)
    (hmutex : ∀ p, (σ.pswmtx p).toNat + (task'.holds p).toNat ≤
      (pswmtx' p).toNat + (task.holds p).toNat)
    (hclears : ∀ p, task'.clears p = true → mark σ.shared p = true)
    (howes : ∀ p, task'.owes p = true → task.owes p = true) :
    Inv { σ with tasks := σ.tasks.set k task', pswmtx := pswmtx' } := by
  refine h.move hk rfl h.clientID hnamed hmutex (fun p => ?_) (fun p => Nat.le_add_right _ _)
    (fun p => Nat.add_le_add_left ?_ _)
  · cases hp : task'.clears p with
    | false => exact Nat.zero_le _
    | true => rw [hclears p hp]
  · cases hp : task'.owes p with
    | false => exact Nat.zero_le _
    | true => rw [howes p hp]

theorem Inv.crash (h : Inv σ) (hk : σ.tasks[k]? = some task) :
    Inv { σ with tasks := σ.tasks.set k .crashed } :=
  h.goto hk trivial (fun _ => Nat.add_le_add_left (Nat.zero_le _) _) (fun p hp => by cases hp)
    fun p hp => by cases hp

theorem mark_modify (m : Shared Place) (p q : Place) (f : PubsubWrapper → PubsubWrapper) :
    mark (m.modify q f) p =
      if p = q then (m.heap p).any fun psw => (f psw).iftrigure else mark m p := by
  unfold mark
  rw [Shared.heap_modify]
  split
  · exact Option.any_map
  · rfl

theorem clientID_modify (h : Inv σ) {q : Place} {f : PubsubWrapper → PubsubWrapper}
    (hf : ∀ psw, (f psw).clientID = psw.clientID) (p : Place) (psw : PubsubWrapper)
    (hpsw : (σ.shared.modify q f).heap p = some psw) : psw.clientID = p.2 := by
  rw [Shared.heap_modify] at hpsw
  split at hpsw
  · obtain ⟨psw₀, hpsw₀, rfl⟩ := Option.map_eq_some_iff.1 hpsw
    rw [hf, h.clientID p psw₀ hpsw₀]
  · exact h.clientID p psw hpsw

/-- The task that clears a mark finds it there, and takes it over. -/
theorem Inv.clear (h : Inv σ) {l : Locals} (hk : σ.tasks[k]? = some (.clear l)) :
    Inv { σ with
      shared := σ.shared.modify l.psw fun psw => { psw with iftrigure := false }
      tasks := σ.tasks.set k (.unlock l true) } := by
  have hon : mark σ.shared l.psw = true := by
    have hpos : 0 < σ.tasks.countP (·.clears l.psw) :=
      List.countP_pos_iff.2 ⟨_, List.mem_of_getElem? hk, decide_eq_true rfl⟩
    cases hmark : mark σ.shared l.psw with
    | true => rfl
    | false =>
      have hle := h.clearing l.psw
      rw [hmark] at hle
      exact absurd hpos (Nat.not_lt.2 hle)
  have hoff : mark (σ.shared.modify l.psw fun psw => { psw with iftrigure := false }) l.psw =
      false := by
    rw [mark_modify, if_pos rfl]
    simp
  have hother : ∀ p, p ≠ l.psw →
      mark (σ.shared.modify l.psw fun psw => { psw with iftrigure := false }) p =
        mark σ.shared p := fun p hp => by rw [mark_modify, if_neg hp]
  have hnamed : (Task.clear l).Named := h.named _ (List.mem_of_getElem? hk)
  refine h.move hk rfl (clientID_modify h fun _ => rfl) hnamed (fun _ => le_rfl)
    (fun _ => Nat.zero_le _) (fun p => ?_) fun p => ?_
  · by_cases hp : p = l.psw
    · subst hp
      simp [Task.clears, hon]
    · rw [hother p hp]
      exact Nat.le_add_right _ _
  · by_cases hp : p = l.psw
    · subst hp
      simp [Task.owes, hon, hoff]
    · simp [Task.owes, hother p hp, Ne.symm hp]

/-- A push is made for a mark that the task has taken over. -/
theorem Inv.push (h : Inv σ) {l : Locals} {ninfo : NotifyInfo}
    (hk : σ.tasks[k]? = some (.push l ninfo)) :
    Inv { σ with
      tasks := σ.tasks.set k (.delete l)
      notifyQueue := σ.notifyQueue ++ [ninfo]
      pushed := σ.pushed ++ [(l.psw, ninfo)] } where
  filed := h.filed
  clientID := h.clientID
  named := h.named_set trivial
  pushed := by
    have hnamed : (Task.push l ninfo).Named := h.named _ (List.mem_of_getElem? hk)
    intro push hpush
    rcases List.mem_append.1 hpush with hmem | hnew
    · exact h.pushed push hmem
    · obtain rfl := List.mem_singleton.1 hnew
      exact hnamed
  mutex p := by
    have hset : (σ.tasks.set k (.delete l)).countP (·.holds p) = σ.tasks.countP (·.holds p) :=
      countP_set_add (fun task : Task => task.holds p) hk
    exact hset.trans_le (h.mutex p)
  clearing p := by
    have hset : (σ.tasks.set k (.delete l)).countP (·.clears p) = σ.tasks.countP (·.clears p) :=
      countP_set_add (fun task : Task => task.clears p) hk
    exact hset.trans_le (h.clearing p)
  account p := by
    have hset := countP_set_add (b := Task.delete l) (·.owes p) hk
    have hacc := h.account p
    have hcount : ([l.psw].count p) = ((Task.push l ninfo).owes p).toNat := by
      by_cases hp : l.psw = p <;> simp [Task.owes, hp]
    have hpaid : ((Task.delete l).owes p).toNat = 0 := rfl
    simp only [State.owed, List.map_append, List.map_cons, List.map_nil, List.count_append]
      at hset hacc ⊢
    omega
  order := h.order.push rfl rfl rfl rfl

theorem Inv.delete (h : Inv σ) {l : Locals} (hk : σ.tasks[k]? = some (.delete l)) :
    Inv { σ with
      shared := σ.shared.modify l.psw fun psw =>
        if psw.matchType = "NAME" then deletePubEvent psw else psw
      tasks := σ.tasks.set k .done } := by
  have hmark : ∀ p, mark (σ.shared.modify l.psw fun psw =>
      if psw.matchType = "NAME" then deletePubEvent psw else psw) p = mark σ.shared p := by
    intro p
    rw [mark_modify, mark]
    split
    · congr 1
      funext psw
      split <;> rfl
    · rfl
  refine h.move hk rfl (clientID_modify h fun psw => ?_) trivial (fun _ => le_rfl)
    (fun _ => Nat.zero_le _) (fun p => ?_) fun p => ?_
  · split <;> rfl
  · rw [hmark]
    exact Nat.le_add_right _ _
  · rw [hmark]
    exact le_rfl

/-- **A step of a task keeps the invariant.** -/
theorem Inv.checkNotify (h : Inv σ) (hk : σ.tasks[k]? = some task) :
    Inv (checkNotifyStep k task σ) := by
  have hnamed := h.named task (List.mem_of_getElem? hk)
  cases task with
  | queued psw =>
    cases psw with
    | none => exact h.crash hk
    | some q =>
      dsimp only [checkNotifyStep]
      split
      · exact h.crash hk
      · rename_i psw hpsw
        exact h.goto hk (h.clientID q psw hpsw) (fun _ => le_rfl) (fun _ hp => by cases hp)
          fun _ hp => by cases hp
  | lock l =>
    dsimp only [checkNotifyStep]
    split
    · exact h
    · rename_i hfree
      refine h.goto hk hnamed (fun p => ?_) (fun _ hp => by cases hp) fun _ hp => by cases hp
      by_cases hp : l.psw = p
      · subst hp
        simp [Task.holds, hfree]
      · simp [Task.holds, hp, Function.update_of_ne (Ne.symm hp)]
  | test l =>
    dsimp only [checkNotifyStep]
    split
    · exact h.crash hk
    · rename_i psw hpsw
      rcases Bool.eq_false_or_eq_true psw.iftrigure with hon | hoff
      · rw [if_pos hon]
        refine h.goto hk hnamed (fun _ => le_rfl) (fun p hp => ?_) fun _ hp => by cases hp
        obtain rfl := of_decide_eq_true hp
        rw [mark, hpsw, Option.any_some, hon]
      · rw [if_neg (Bool.eq_false_iff.1 hoff)]
        exact h.goto hk hnamed (fun _ => le_rfl) (fun _ hp => by cases hp) fun _ hp => by cases hp
  | clear l => exact h.clear hk
  | unlock l triggered =>
    have hmutex : ∀ p, (σ.pswmtx p).toNat ≤ (Function.update σ.pswmtx l.psw false p).toNat +
        ((Task.unlock l triggered).holds p).toNat := by
      intro p
      by_cases hp : l.psw = p
      · simpa [Task.holds, hp] using (σ.pswmtx p).toNat_le
      · simp [Function.update_of_ne (Ne.symm hp)]
    cases triggered with
    | false =>
      exact h.goto hk trivial hmutex (fun _ hp => by cases hp) fun _ hp => by cases hp
    | true => exact h.goto hk hnamed hmutex (fun _ hp => by cases hp) fun _ hp => hp
  | inform l =>
    dsimp only [checkNotifyStep]
    split
    · exact h.crash hk
    · exact h.goto hk hnamed (fun _ => le_rfl) (fun _ hp => by cases hp) fun _ hp => hp
  | push l ninfo => exact h.push hk
  | delete l => exact h.delete hk
  | done => exact h
  | crashed => exact h

end Tasks

/-! ## A handler moves -/

section Handlers

variable {σ : State} {i : ℕ} {call : PublishCall} {handler handler' : Handler}

/-- A handler that moves, and what it changes of the maps and the wrappers. -/
theorem Inv.handle (h : Inv σ) (hi : σ.handlers[i]? = some (call, handler)) {m' : Shared Place}
    {found' : List Place}
    (hfiled : ∀ ix c q, OMap.cell m'.subtoClient ix c = some (some q) → q = (ix, c))
    (hid : ∀ p psw, m'.heap p = some psw → psw.clientID = p.2)
    (hmark : ∀ p, (mark σ.shared p).toNat ≤ (mark m' p).toNat)
    (hfound : ∀ p, (handler'.marks p).toNat + (mark m' p).toNat + σ.found.count p ≤
      (handler.marks p).toNat + (mark σ.shared p).toNat + found'.count p) :
    Inv { σ with
      shared := m', handlers := σ.handlers.set i (call, handler'), found := found' } where
  filed := hfiled
  clientID := hid
  named := h.named
  pushed := h.pushed
  mutex := h.mutex
  clearing p := (h.clearing p).trans (hmark p)
  account p := by
    have hset := countP_set_add (b := (call, handler')) (·.2.marks p) hi
    have hacc := h.account p
    have := hfound p
    simp only [State.owed] at hset hacc ⊢
    omega
  order := h.order

/-- A handler that moves and is not in `pubsubPublish` any more leaves the wrappers alone. -/
theorem Inv.handleMap (h : Inv σ) (hi : σ.handlers[i]? = some (call, handler))
    {subtoClient' : OMap String (OMap String (Option Place))}
    (hmap : ∀ ix c, OMap.cell subtoClient' ix c = OMap.cell σ.shared.subtoClient ix c)
    (hmarks : ∀ p, handler'.marks p = false) :
    Inv { σ with
      shared := { σ.shared with subtoClient := subtoClient' }
      handlers := σ.handlers.set i (call, handler') } := by
  refine h.handle hi (fun ix c q hq => h.filed ix c q (by rwa [← hmap])) h.clientID
    (fun _ => le_rfl) fun p => ?_
  have hsame : mark { σ.shared with subtoClient := subtoClient' } p = mark σ.shared p := rfl
  rw [hmarks p, hsame, Bool.toNat_false]
  omega

theorem Inv.walk (h : Inv σ) {walk : Walk Place} (hi : σ.handlers[i]? = some (call, .walk walk))
    (mt md : String) :
    let next := walkStep mt md false (walk, σ.shared)
    Inv { σ with
      shared := next.2
      handlers := σ.handlers.set i (call, .walk next.1)
      found := σ.found ++ next.1.marks.toList } := by
  intro next
  have htouches : ∀ p, Option.Rel (walk.Touches p) (σ.shared.heap p) (next.2.heap p) := fun p =>
    walkStep_touches h.filed
  have hmark : ∀ p, mark next.2 p = mark σ.shared p ∨
      walk.marks = some p ∧ mark next.2 p = true := by
    intro p
    have hrel := htouches p
    unfold mark
    generalize σ.shared.heap p = psw, next.2.heap p = psw' at hrel ⊢
    cases hrel with
    | none => exact .inl rfl
    | some htouch => exact htouch.2
  have hcount : ∀ p, next.1.marks.toList.count p = ((Handler.walk next.1).marks p).toNat := by
    intro p
    dsimp only [Handler.marks]
    cases next.1.marks with
    | none => rfl
    | some q => by_cases hq : q = p <;> simp [hq]
  refine h.handle hi (fun ix c q hq => h.filed ix c q (cell_of_walkStep hq)) (fun p psw hpsw => ?_)
    (fun p => ?_) fun p => ?_
  · have hrel := htouches p
    rw [hpsw] at hrel
    generalize hold : σ.shared.heap p = old at hrel
    cases hrel with
    | some htouch =>
      rw [htouch.1.2.1]
      exact h.clientID p _ hold
  · rcases hmark p with hsame | ⟨-, hon⟩
    · rw [hsame]
    · rw [hon]
      exact Bool.toNat_le _
  · rw [List.count_append, hcount]
    rcases hmark p with hsame | ⟨hmarks, hon⟩
    · rw [hsame]
      omega
    · have hwrites : (Handler.walk walk).marks p = true := decide_eq_true hmarks
      rw [hon, hwrites]
      omega

/-- A new task has done nothing. -/
theorem Inv.enqueue (h : Inv σ) (psw : Option Place) :
    Inv { σ with tasks := σ.tasks ++ [.queued psw] } where
  filed := h.filed
  clientID := h.clientID
  named task htask := by
    rcases List.mem_append.1 htask with hmem | hnew
    · exact h.named task hmem
    · obtain rfl := List.mem_singleton.1 hnew
      trivial
  pushed := h.pushed
  mutex p := by
    rw [List.countP_append]
    exact h.mutex p
  clearing p := by
    rw [List.countP_append]
    exact h.clearing p
  account p := by
    rw [State.owed, List.countP_append]
    exact h.account p
  order := h.order

/-- **A step of a handler keeps the invariant.** -/
theorem Inv.publish (h : Inv σ) (hi : σ.handlers[i]? = some (call, handler)) :
    Inv (publishStep i call handler σ) := by
  cases handler with
  | walk walk =>
    by_cases hwalk : walk = .done
    · subst hwalk
      exact h.handleMap hi (fun _ _ => rfl) fun _ => rfl
    · rw [publishStep_walk hwalk]
      exact h.walk hi _ _
  | lookup =>
    dsimp only [publishStep]
    split
    · exact h.handleMap hi (fun _ _ => rfl) fun _ => rfl
    · refine h.handleMap hi (fun _ _ => rfl) fun _ => ?_
      split <;> rfl
  | registered eventStr => exact h.handleMap hi (fun _ _ => rfl) fun _ => rfl
  | startNotify ixs =>
    cases ixs with
    | nil => exact h.handleMap hi (fun _ _ => rfl) fun _ => rfl
    | cons ix ixs =>
      exact h.handleMap hi (fun ix' c => OMap.cell_openRow _ ix ix' c) fun _ => rfl
  | enqueue subscribedMap ixs =>
    cases subscribedMap with
    | nil => exact h.handleMap hi (fun _ _ => rfl) fun _ => rfl
    | cons entry subscribedMap =>
      exact (h.enqueue entry.2).handleMap hi (fun _ _ => rfl) fun _ => rfl
  | done => exact h

end Handlers

/-! ## The consumer moves -/

/-- The consumer leaves the maps, the wrappers and the other threads alone. -/
theorem consumeStep_frame (σ : State) :
    (consumeStep σ).shared = σ.shared ∧ (consumeStep σ).handlers = σ.handlers ∧
      (consumeStep σ).tasks = σ.tasks ∧ (consumeStep σ).found = σ.found ∧
      (consumeStep σ).pushed = σ.pushed := by
  unfold consumeStep
  split <;> try exact ⟨rfl, rfl, rfl, rfl, rfl⟩
  split <;> exact ⟨rfl, rfl, rfl, rfl, rfl⟩

/-- **A step of the consumer keeps the invariant**: it starts the first element once, and then takes
that element from the queue, behind which others may have come. -/
theorem Inv.consume {σ : State} (h : Inv σ) : Inv (consumeStep σ) := by
  have horder := h.order
  unfold State.InOrder at horder
  unfold consumeStep
  split
  · rename_i hpoll
    rw [hpoll] at horder
    dsimp only
    split <;> exact { h with order := horder }
  · rename_i hround
    rw [hround] at horder
    exact { h with order := horder }
  · rename_i rounds hround
    rw [hround] at horder
    split
    · exact { h with order := horder }
    · rename_i hne
      exact { h with order := ⟨horder, hne⟩ }
  · rename_i rounds hfront
    rw [hfront] at horder
    split
    · rename_i hempty
      exact absurd hempty horder.2
    · rename_i ninfo queue hqueue
      exact { h with order := ⟨horder.1, by rw [hqueue]; rfl⟩ }
  · rename_i ninfo rounds hstart
    rw [hstart] at horder
    obtain ⟨heq, hhead⟩ := horder
    obtain ⟨queue, hqueue⟩ := List.head?_eq_some_iff.1 hhead
    refine { h with order := ⟨?_, ?_⟩ }
    · rw [heq, hqueue, List.tail_cons, List.append_assoc]
      rfl
    · rw [hqueue]
      exact List.cons_ne_nil _ _
  · rename_i rounds hpop
    rw [hpop] at horder
    exact { h with order := horder.1 }
  · exact h

/-- **Every step keeps the invariant.** -/
theorem Inv.step {σ : State} (h : Inv σ) (event : Event) : Inv (step event σ) := by
  cases event with
  | publish i =>
    dsimp only [Delivering.step]
    split
    · exact h
    · rename_i hi
      exact h.publish hi
  | checkNotify k =>
    dsimp only [Delivering.step]
    split
    · exact h
    · rename_i hk
      exact h.checkNotify hk
  | consume => exact h.consume

/-! ## Every run -/

theorem inv_start (calls : List PublishCall) {s : Store} (hs : s.Filed) (hquiet : s.Untriggered) :
    Inv (start calls s) where
  filed ix c q hq := by
    rw [start, cell_ofStore] at hq
    obtain ⟨w, -, heq⟩ := Option.map_eq_some_iff.1 hq
    exact (Option.some.inj heq).symm
  clientID p psw hpsw := hs.clientID hpsw
  named task htask := by cases htask
  pushed push hpush := by cases hpush
  mutex p := le_rfl
  clearing p := Nat.zero_le _
  account p := by
    have hmark : mark (start calls s).shared p = false := by
      change (s.wrapper? p.1 p.2).any (·.iftrigure) = false
      cases hw : s.wrapper? p.1 p.2 with
      | none => rfl
      | some w => exact hquiet p.1 p.2 w hw
    have hnone : (start calls s).handlers.countP (·.2.marks p) = 0 := by
      rw [List.countP_eq_zero]
      intro handler hmem
      obtain ⟨call, -, rfl⟩ := List.mem_map.1 hmem
      exact Bool.false_ne_true
    rw [State.owed, hmark, hnone]
    exact le_rfl
  order := rfl

/-- Subscriptions leave no client triggered. -/
theorem filed_untriggered_handleAll (subscriptions : List SubscribeCall) {s : Store}
    (h : s.Filed ∧ s.Untriggered) :
    (handleAll subscriptions s).Filed ∧ (handleAll subscriptions s).Untriggered := by
  induction subscriptions generalizing s with
  | nil => exact h
  | cons sub subscriptions ih =>
    refine ih ?_
    unfold SubscribeCall.handle subscribe
    split
    · exact h
    · exact ⟨h.1.addNewClient _ _ _ _ _, h.2.addNewClient _ _ _ _ _⟩

theorem Inv.counts {σ : State} (h : Inv σ) : StartsOnce σ := by
  have horder : ∃ waiting, σ.pushed.map Prod.snd = σ.started ++ waiting ∧
      waiting <:+ σ.notifyQueue := by
    have horder := h.order
    unfold State.InOrder at horder
    split at horder
    · exact ⟨_, horder, List.suffix_refl _⟩
    · exact ⟨_, horder, List.suffix_refl _⟩
    · exact ⟨_, horder.1, List.suffix_refl _⟩
    · exact ⟨_, horder.1, List.suffix_refl _⟩
    · exact ⟨_, horder.1, List.tail_suffix _⟩
    · exact horder.elim
  refine ⟨fun c => ?_, fun c => ?_, horder⟩
  · obtain ⟨waiting, heq, -⟩ := horder
    rw [heq, List.countP_append]
    exact Nat.le_add_right _ _
  · -- an element is pushed for the client of its wrapper
    have hclient : (σ.pushed.map Prod.snd).countP (·.clientid = c) =
        (σ.pushed.map Prod.fst).countP (·.2 = c) := by
      rw [List.countP_map, List.countP_map]
      refine List.countP_congr fun push hpush => ?_
      simp [h.pushed push hpush]
    rw [hclient]
    exact List.Subperm.countP_le _ (List.subperm_ext_iff.2 fun p _ =>
      (Nat.le_add_right _ _).trans (h.account p))

/-- **At every moment of every run**, after any subscriptions, no client has more tasks started than
elements pushed, nor more elements pushed than times a publish found it triggered, and the tasks are
started in the order of the pushes, each element once. -/
theorem startsOnce (subscriptions : List SubscribeCall) (calls : List PublishCall)
    (events : List Event) :
    Schedule.Always step StartsOnce events (start calls (handleAll subscriptions .empty)) := by
  have hempty : Reachable .empty := .empty
  obtain ⟨hfiled, hquiet⟩ :=
    filed_untriggered_handleAll subscriptions ⟨hempty.filed, untriggered_empty⟩
  exact Schedule.always_of_invariant (fun event _ h => h.step event) (fun _ h => h.counts)
    (inv_start calls hfiled hquiet) events

/-- A publish, the task it enqueues, and the consumer. -/
example :
    (Schedule.run step
      (.replicate 14 (.publish 0) ++ .replicate 8 (.checkNotify 0) ++ .replicate 4 .consume)
      (start [⟨["a"], "", "m"⟩]
        (handleAll [⟨"server", ["a"], "c", "addr", "CLIENT", "NAME", "md"⟩] .empty))).started =
      [⟨"addr", "m", "c"⟩] := by
  decide +kernel

end Delivering

end TPST
