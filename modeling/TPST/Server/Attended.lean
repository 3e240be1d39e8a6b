import TPST.Server.Settling

/-!
# No mark is left behind

Whether the handlers and their tasks notify every match is a matter of the notify phase. When it
comes to all index events that the walk has come to, every wrapper that is marked has a task that
will test it, or a handler that will enqueue one, at any moment of any run (`Attended`). So when all
of them have finished nobody is left marked, and whoever was found triggered was notified
(`found_notified`).
-/

namespace TPST

open Std Schedule

namespace Delivering


section Attended

variable {s : Store} {total i k : ℕ} {σ : State} {call : PublishCall} {handler : Handler}
  {task : Task} {p : Place}

/-- The index event is one that the handler of the call notifies. -/
def Notified (s : Store) (call : PublishCall) (ix : String) : Prop :=
  ix ∈ notifiedIndexEvents call.eventList s

/-- The handler will enqueue a task for the wrapper at `p`. -/
def Handler.Attends (s : Store) (call : PublishCall) (p : Place) : Handler → Prop
  | .walk w => w ≠ .raised ∧ Notified s call p.1
  | .lookup => Notified s call p.1
  | .registered eventStr => p.1 ∈ s.indexEvents eventStr
  | .startNotify indexEventSet => p.1 ∈ indexEventSet
  | .enqueue subscribedMap indexEventSet =>
    (p.2, some p) ∈ subscribedMap ∨ p.1 ∈ indexEventSet
  | .done => False

/-- The task will test the wrapper at `p`, or clear its mark. -/
def Task.Attends (p : Place) : Task → Prop
  | .queued psw => psw = some p
  | .lock l | .test l | .clear l => l.psw = p
  | _ => False

/-- Every mark has a task that will test it, or a handler that will enqueue one; and whoever was
found triggered is marked or will be, or was notified or will be. -/
structure Attended (s : Store) (σ : State) : Prop where
  byName : ∀ h ∈ σ.handlers, requestMatchType h.1.matchType = "NAME" ∧ h.2 ≠ .walk .raised
  marked : ∀ p, mark σ.shared p = true →
    (∃ h ∈ σ.handlers, h.2.Attends s h.1 p) ∨ ∃ task ∈ σ.tasks, task.Attends p
  found : ∀ p ∈ σ.found, (∃ h ∈ σ.handlers, h.2.marks p = true) ∨ mark σ.shared p = true ∨
    (∃ task ∈ σ.tasks, task.owes p = true) ∨ p ∈ σ.pushed.map Prod.fst

theorem filed_of_mark {m : Shared Place} (hm : m.Leads s) (hp : mark m p = true) :
    p.2 ∈ s.clients p.1 := by
  obtain ⟨psw, hpsw, -⟩ := (Option.any_eq_true _ _).1 hp
  exact (hm.heap p).1 (Option.isSome_iff_exists.2 ⟨psw, hpsw⟩)

/-- A task goes on. -/
theorem Attended.task_move (h : Attended s σ) (hk : σ.tasks[k]? = some task) (task' : Task)
    {m' : Shared Place} {pswmtx' : Place → Bool} {notifyQueue' : List NotifyInfo}
    {pushed' : List (Place × NotifyInfo)}
    (hmark : ∀ p, mark m' p = true → mark σ.shared p = true ∧ (task.Attends p → task'.Attends p))
    (hmarked : ∀ p, mark σ.shared p = true → mark m' p = true ∨ task'.owes p = true)
    (howes : ∀ p, task.owes p = true → task'.owes p = true ∨ p ∈ pushed'.map Prod.fst)
    (hpushed : σ.pushed ⊆ pushed') :
    Attended s { σ with
      shared := m'
      tasks := σ.tasks.set k task'
      pswmtx := pswmtx'
      notifyQueue := notifyQueue'
      pushed := pushed' } where
  byName := h.byName
  marked p hp :=
    (h.marked p (hmark p hp).1).imp_right fun hattends =>
      exists_mem_set hk (hmark p hp).2 hattends
  found p hp := by
    have hlt := (List.getElem?_eq_some_iff.1 hk).1
    have hnew : task'.owes p = true → ∃ task ∈ σ.tasks.set k task', task.owes p = true :=
      fun howe => ⟨task', List.mem_set hlt task', howe⟩
    rcases h.found p hp with hhandler | hon | ⟨t, ht, howe⟩ | hpush
    · exact .inl hhandler
    · exact .inr ((hmarked p hon).imp_right fun howe => .inl (hnew howe))
    · rcases eq_or_mem_set hk ht task' with rfl | hmem
      · exact .inr (.inr ((howes p howe).imp_left hnew))
      · exact .inr (.inr (.inl ⟨t, hmem, howe⟩))
    · exact .inr (.inr (.inr (List.map_subset _ hpushed hpush)))

theorem mark_modify_of_eq {f : PubsubWrapper → PubsubWrapper}
    (hf : ∀ psw, (f psw).iftrigure = psw.iftrigure) (m : Shared Place) (p q : Place) :
    mark (m.modify q f) p = mark m p := by
  rw [mark_modify, mark]
  split
  · simp only [hf]
  · rfl

/-- **A step of a task leaves every mark attended.** -/
theorem Attended.checkNotify (h : Attended s σ) (hm : σ.shared.Leads s)
    (hk : σ.tasks[k]? = some task) (hreads : task.Reads s) :
    Attended s (checkNotifyStep k task σ) := by
  have hheap {p : Place} (hp : p.2 ∈ s.clients p.1) : ∃ psw, σ.shared.heap p = some psw :=
    Option.isSome_iff_exists.1 ((hm.heap p).2 hp)
  have hgoto (task' : Task) {m' : Shared Place} {pswmtx' : Place → Bool}
      (hsame : ∀ p, mark m' p = mark σ.shared p)
      (hattends : ∀ p, mark σ.shared p = true → task.Attends p → task'.Attends p)
      (howes : ∀ p, task.owes p = true → task'.owes p = true) :
      Attended s { σ with shared := m', tasks := σ.tasks.set k task', pswmtx := pswmtx' } :=
    h.task_move hk task' (fun p hp => by rw [hsame] at hp; exact ⟨hp, hattends p hp⟩)
      (fun p hp => .inl ((hsame p).trans hp)) (fun p hp => .inl (howes p hp)) (List.Subset.refl _)
  have hnone {P : Place → Prop} (p : Place) : false = true → P p := Bool.noConfusion
  cases task with
  | queued psw =>
    obtain ⟨p, rfl, hp⟩ := hreads
    obtain ⟨psw, hpsw⟩ := hheap hp
    simp only [checkNotifyStep, hpsw]
    exact hgoto (.lock _) (fun _ => rfl) (fun _ _ hattends => Option.some.inj hattends) hnone
  | lock l =>
    simp only [checkNotifyStep]
    split
    · exact h
    · exact hgoto (.test l) (fun _ => rfl) (fun _ _ hattends => hattends) hnone
  | test l =>
    obtain ⟨psw, hpsw⟩ := hheap hreads
    simp only [checkNotifyStep, hpsw]
    split
    · exact hgoto (.clear l) (fun _ => rfl) (fun _ _ hattends => hattends) hnone
    · rename_i hoff
      refine hgoto (.unlock l false) (fun _ => rfl) (fun p hp hattends => ?_) hnone
      obtain rfl : l.psw = p := hattends
      rw [mark, hpsw] at hp
      exact absurd hp hoff
  | clear l =>
    refine h.task_move hk (.unlock l true) (fun p hp => ?_) (fun p hp => ?_) hnone
      (List.Subset.refl _)
    · by_cases heq : p = l.psw
      · rw [mark_modify, if_pos heq] at hp
        simp at hp
      · rw [mark_modify, if_neg heq] at hp
        exact ⟨hp, fun hattends => absurd hattends (Ne.symm heq)⟩
    · by_cases heq : p = l.psw
      · exact .inr (decide_eq_true heq.symm)
      · exact .inl (by rw [mark_modify, if_neg heq, hp])
  | unlock l triggered =>
    cases triggered with
    | false => exact hgoto .done (fun _ => rfl) (fun _ _ hattends => hattends) hnone
    | true =>
      exact hgoto (.inform l) (fun _ => rfl) (fun _ _ hattends => hattends) fun _ howe => howe
  | inform l =>
    obtain ⟨psw, hpsw⟩ := hheap hreads
    simp only [checkNotifyStep, hpsw]
    exact hgoto (.push l _) (fun _ => rfl) (fun _ _ hattends => hattends) fun _ howe => howe
  | push l ninfo =>
    refine h.task_move hk (.delete l) (fun p hp => ⟨hp, fun hattends => hattends⟩)
      (fun p hp => .inl hp) (fun p howe => .inr ?_) (List.subset_append_left _ _)
    rw [← of_decide_eq_true howe, List.map_append]
    exact List.mem_append_right _ (.head _)
  | delete l =>
    refine hgoto .done (mark_modify_of_eq (fun psw => ?_) _ · _) (fun _ _ hattends => hattends)
      hnone
    split <;> rfl
  | done => exact h
  | crashed => exact h

/-- A handler goes on. -/
theorem Attended.handler_move (h : Attended s σ) (hi : σ.handlers[i]? = some (call, handler))
    (handler' : Handler) {m' : Shared Place} (new : List Task) {found' : List Place}
    (hraised : handler' ≠ .walk .raised)
    (hmark : ∀ p, mark m' p = true → mark σ.shared p = true ∨ handler'.Attends s call p)
    (hattends : ∀ p, mark m' p = true → handler.Attends s call p →
      handler'.Attends s call p ∨ ∃ task ∈ new, task.Attends p)
    (hkeeps : ∀ p, mark σ.shared p = true → mark m' p = true)
    (hmarks : ∀ p, handler.marks p = true → mark m' p = true)
    (hfound : ∀ p ∈ found', p ∈ σ.found ∨ handler'.marks p = true) :
    Attended s { σ with
      shared := m'
      handlers := σ.handlers.set i (call, handler')
      tasks := σ.tasks ++ new
      found := found' } where
  byName := by
    have hcall := (h.byName _ (List.mem_of_getElem? hi)).1
    exact forall_mem_set h.byName ⟨hcall, hraised⟩
  marked p hp := by
    have hlt := (List.getElem?_eq_some_iff.1 hi).1
    have hnew : handler'.Attends s call p →
        ∃ h ∈ σ.handlers.set i (call, handler'), h.2.Attends s h.1 p :=
      fun hself => ⟨_, List.mem_set hlt _, hself⟩
    rcases hmark p hp with hbefore | hself
    · rcases h.marked p hbefore with ⟨h₀, hmem, hother⟩ | ⟨task, hmem, htask⟩
      · rcases eq_or_mem_set hi hmem (call, handler') with rfl | hmem
        · refine (hattends p hp hother).imp hnew ?_
          rintro ⟨task, htask, hself⟩
          exact ⟨task, List.mem_append_right _ htask, hself⟩
        · exact .inl ⟨h₀, hmem, hother⟩
      · exact .inr ⟨task, List.mem_append_left _ hmem, htask⟩
    · exact .inl (hnew hself)
  found p hp := by
    have hlt := (List.getElem?_eq_some_iff.1 hi).1
    rcases hfound p hp with hbefore | hself
    · rcases h.found p hbefore with ⟨h₀, hmem, hother⟩ | hon | ⟨task, hmem, howe⟩ | hpush
      · rcases eq_or_mem_set hi hmem (call, handler') with rfl | hmem
        · exact .inr (.inl (hmarks p hother))
        · exact .inl ⟨h₀, hmem, hother⟩
      · exact .inr (.inl (hkeeps p hon))
      · exact .inr (.inr (.inl ⟨task, List.mem_append_left _ hmem, howe⟩))
      · exact .inr (.inr (.inr hpush))
    · exact .inl ⟨_, List.mem_set hlt _, hself⟩

section WalkMarks

variable {walk : Walk Place} {m : Shared Place} {P : String → Prop}

/-- The wrapper that a walk comes to mark is one of the store, under an index event that the walk
comes to. -/
theorem marks_reads (hreads : Reads s P walk) (hmarks : walk.marks = some p) :
    P p.1 ∧ p.2 ∈ s.clients p.1 := by
  cases walk with
  | trigger event indexEvent clientId innermap indexEventSet eventList =>
    obtain rfl := Option.some.inj hmarks
    exact ⟨hreads.2.1 _ (.head _), (hreads.1 _ (.head _)).1⟩
  | _ => cases hmarks

/-- A step of a walk marks the wrapper that it comes to mark, and no other. -/
theorem mark_walkStep (hm : m.Leads s) (hreads : Reads s P walk) (mt md : String) :
    mark (walkStep mt md false (walk, m)).2 p = true ↔ mark m p = true ∨ walk.marks = some p := by
  by_cases hmarks : walk.marks = some p
  · rw [iff_true_right (.inr hmarks)]
    obtain ⟨psw, hpsw⟩ := Option.isSome_iff_exists.1 ((hm.heap p).2 (marks_reads hreads hmarks).2)
    have hcell := hm.cell.2 ⟨(marks_reads hreads hmarks).2, rfl⟩
    cases walk with
    | trigger event indexEvent clientId innermap indexEventSet eventList =>
      obtain rfl := Option.some.inj hmarks
      simp only [walkStep, hcell]
      rw [mark_modify, if_pos rfl, hpsw]
      rfl
    | _ => cases hmarks
  · have htouches : Option.Rel (walk.Touches p) (m.heap p)
        ((walkStep mt md false (walk, m)).2.heap p) :=
      walkStep_touches fun ix c q hq => Option.some.inj (hm.cell.1 hq).2
    have hsame : mark (walkStep mt md false (walk, m)).2 p = mark m p := by
      rw [mark, mark]
      generalize (walkStep mt md false (walk, m)).2.heap p = after at htouches
      generalize m.heap p = before at htouches
      cases htouches with
      | none => rfl
      | some htouch => exact htouch.2.resolve_right fun hboth => hmarks hboth.1
    rw [hsame, or_iff_left hmarks]

end WalkMarks

/-- **A step of a handler leaves every mark attended**, when its notify phase comes to the index
events that its walk comes to. -/
theorem Attended.publish (h : Attended s σ) (hm : σ.shared.Leads s)
    (hi : σ.handlers[i]? = some (call, handler)) (hreads : handler.Reads s (Notified s call)) :
    Attended s (publishStep i call handler σ) := by
  obtain ⟨hname, hraised⟩ := h.byName _ (List.mem_of_getElem? hi)
  have hgoto (handler' : Handler) {m' : Shared Place} (hnext : handler' ≠ .walk .raised)
      (hsame : ∀ p, mark m' p = mark σ.shared p)
      (hattends : ∀ p, mark σ.shared p = true → handler.Attends s call p →
        handler'.Attends s call p)
      (hmarks : ∀ p, handler.marks p = false) :
      Attended s { σ with shared := m', handlers := σ.handlers.set i (call, handler') } := by
    rw [← List.append_nil σ.tasks]
    exact h.handler_move hi handler' [] hnext (fun p hp => .inl ((hsame p).symm.trans hp))
      (fun p hp hself => .inl (hattends p ((hsame p).symm.trans hp) hself))
      (fun p hp => (hsame p).trans hp) (fun p hp => by simp [hmarks p] at hp)
      (fun p hp => .inl hp)
  cases handler with
  | walk walk =>
    by_cases hdone : walk = .done
    · subst hdone
      exact hgoto .lookup Handler.noConfusion (fun _ => rfl) (fun p _ hattends => hattends.2)
        fun _ => rfl
    · have hgoes := walkStep_goes hreads hm hdone (fun heq => hraised (congrArg _ heq))
        (requestMatchType call.matchType) call.metadata
      have hmark (p : Place) := mark_walkStep (p := p) hm hreads
        (requestMatchType call.matchType) call.metadata
      have hnext := hgoes.raised hname
      rw [publishStep_walk hdone, ← List.append_nil σ.tasks]
      refine h.handler_move hi (.walk _) [] (fun heq => hnext (Handler.walk.inj heq))
        (fun p hp => ?_) (fun p hp hattends => .inl ⟨hnext, hattends.2⟩)
        (fun p hp => (hmark p).2 (.inl hp))
        (fun p hp => (hmark p).2 (.inr (of_decide_eq_true hp))) (fun p hp => ?_)
      · exact ((hmark p).1 hp).imp_right fun hself => ⟨hnext, (marks_reads hreads hself).1⟩
      · refine (List.mem_append.1 hp).imp_right fun hself => ?_
        exact decide_eq_true (Option.mem_toList.1 hself)
  | lookup =>
    simp only [publishStep]
    cases hlast : call.eventList.getLast? with
    | none =>
      refine hgoto .done Handler.noConfusion (fun _ => rfl) (fun p _ hattends => ?_) fun _ => rfl
      simp [Handler.Attends, Notified, notifiedIndexEvents, hlast] at hattends
    | some eventStr =>
      have hnotified : notifiedIndexEvents call.eventList s = s.indexEvents eventStr := by
        rw [notifiedIndexEvents, hlast]
      dsimp only
      split
      · refine hgoto (.registered eventStr) Handler.noConfusion (fun _ => rfl)
          (fun p _ hattends => ?_) fun _ => rfl
        rwa [Handler.Attends, Notified, hnotified] at hattends
      · rename_i hunknown
        refine hgoto .done Handler.noConfusion (fun _ => rfl) (fun p _ hattends => ?_) fun _ => rfl
        rw [Handler.Attends, Notified, hnotified, Store.indexEvents, ← hm.index,
          ExtTreeMap.getElem?_eq_none hunknown] at hattends
        exact absurd hattends List.not_mem_nil
  | registered eventStr =>
    refine hgoto (.startNotify _) Handler.noConfusion (fun _ => rfl) (fun p _ hattends => ?_)
      fun _ => rfl
    rw [hm.indexEvents]
    exact hattends
  | startNotify indexEventSet =>
    cases indexEventSet with
    | nil =>
      exact hgoto .done Handler.noConfusion (fun _ => rfl)
        (fun p _ hattends => absurd hattends List.not_mem_nil) fun _ => rfl
    | cons indexEvent indexEventSet =>
      refine hgoto (.enqueue _ indexEventSet) Handler.noConfusion (fun _ => rfl)
        (fun p hp hattends => ?_) fun _ => rfl
      refine (List.mem_cons.1 hattends).imp_left fun hix => ?_
      rw [hm.rows]
      exact List.mem_map.2 ⟨p.2, hix ▸ filed_of_mark hm hp, by rw [← hix]⟩
  | enqueue subscribedMap indexEventSet =>
    cases subscribedMap with
    | nil =>
      exact hgoto (.startNotify indexEventSet) Handler.noConfusion (fun _ => rfl)
        (fun p _ hattends => hattends.resolve_left List.not_mem_nil) fun _ => rfl
    | cons entry subscribedMap =>
      obtain ⟨c, psw⟩ := entry
      refine h.handler_move hi (.enqueue subscribedMap indexEventSet) [.queued psw]
        Handler.noConfusion (fun p hp => .inl hp) (fun p hp hattends => ?_) (fun p hp => hp)
        (fun p hp => Bool.noConfusion hp) (fun p hp => .inl hp)
      rcases hattends with hrow | hix
      · rcases List.mem_cons.1 hrow with heq | hrow
        · exact .inr ⟨_, .head _, (congrArg Prod.snd heq).symm⟩
        · exact .inl (.inl hrow)
      · exact .inl (.inr hix)
  | done => exact h

/-- The handler comes to all index events that its walk comes to, and matches by name. -/
def Covers (s : Store) (call : PublishCall) : Prop :=
  requestMatchType call.matchType = "NAME" ∧ EventsOf s (Notified s call) call.eventList

/-- A request that carries one event, to be matched by name, is of this kind. -/
theorem covers_singleton (s : Store) (event md : String) {mt : String}
    (hname : requestMatchType mt = "NAME") : Covers s ⟨[event], mt, md⟩ := by
  refine ⟨hname, fun event' hevent ix hix => ?_⟩
  rw [List.mem_singleton.1 hevent] at hix
  exact hix

theorem attended_start {calls : List PublishCall} (hcalls : ∀ call ∈ calls, Covers s call)
    (hquiet : s.Untriggered) : Attended s (start calls s) where
  byName := by
    intro h hh
    obtain ⟨call, hcall, rfl⟩ := List.mem_map.1 hh
    exact ⟨(hcalls call hcall).1, nofun⟩
  marked p hp := by
    obtain ⟨psw, hpsw, hon⟩ := (Option.any_eq_true _ _).1 hp
    have hoff := hquiet p.1 p.2 psw hpsw
    rw [hoff] at hon
    exact Bool.noConfusion hon
  found _ hp := absurd hp List.not_mem_nil

/-- **Every step leaves every mark attended.** -/
theorem attended_step (event : Event) (σ : State)
    (h : Sound s (Notified s) total σ ∧ Attended s σ) :
    Sound s (Notified s) total (step event σ) ∧ Attended s (step event σ) := by
  obtain ⟨hsound, hattended⟩ := h
  refine ⟨sound_step event σ hsound, ?_⟩
  cases event with
  | publish i =>
    cases hi : σ.handlers[i]? with
    | none => simpa only [step, hi] using hattended
    | some handler =>
      simp only [step, hi]
      exact hattended.publish hsound.leads hi (hsound.handlers _ (List.mem_of_getElem? hi))
  | checkNotify k =>
    cases hk : σ.tasks[k]? with
    | none => simpa only [step, hk] using hattended
    | some task =>
      simp only [step, hk]
      exact hattended.checkNotify hsound.leads hk (hsound.tasks _ (List.mem_of_getElem? hk))
  | consume =>
    obtain ⟨hshared, hhandlers, htasks, hfound, hpushed⟩ := consumeStep_frame σ
    change Attended s (consumeStep σ)
    exact ⟨hhandlers ▸ hattended.byName, hshared ▸ hhandlers ▸ htasks ▸ hattended.marked,
      hshared ▸ hhandlers ▸ htasks ▸ hfound ▸ hpushed ▸ hattended.found⟩

/-- **Nobody is left triggered, and whoever was found triggered was notified**, however the handlers
and the tasks have interleaved, once all of them have finished: when the handlers' notify phases
come to the index events that their walks come to, as those of requests with one event do. -/
theorem found_notified (subscriptions : List SubscribeCall) (calls : List PublishCall)
    (hcalls : ∀ call ∈ calls, Covers (handleAll subscriptions .empty) call)
    (events : List Event) :
    let σ := run step events (start calls (handleAll subscriptions .empty))
    (∀ h ∈ σ.handlers, h.2 = .done) → (∀ task ∈ σ.tasks, task = .done) →
      (∀ p, mark σ.shared p = false) ∧ ∀ p ∈ σ.found, p ∈ σ.pushed.map Prod.fst := by
  intro σ hhandlers htasks
  set s := handleAll subscriptions .empty
  have hempty : Reachable .empty := .empty
  obtain ⟨-, hquiet⟩ :=
    filed_untriggered_handleAll subscriptions ⟨hempty.filed, untriggered_empty⟩
  have hsound : Sound s (Notified s) _ (start calls s) :=
    sound_start fun call hcall => (hcalls call hcall).2
  have hrun : Always step (Attended s) events (start calls s) :=
    always_of_invariant attended_step (fun _ h => h.2)
      ⟨hsound, attended_start hcalls hquiet⟩ events
  have h : Attended s σ := hrun.run
  have hoff : ∀ p, mark σ.shared p = false := by
    intro p
    rw [← Bool.not_eq_true]
    intro hon
    rcases h.marked p hon with ⟨h₀, hmem, hattends⟩ | ⟨task, hmem, hattends⟩
    · rw [hhandlers h₀ hmem] at hattends
      exact hattends
    · rw [htasks task hmem] at hattends
      exact hattends
  refine ⟨hoff, fun p hp => ?_⟩
  rcases h.found p hp with ⟨h₀, hmem, hmarks⟩ | hon | ⟨task, hmem, howe⟩ | hpush
  · rw [hhandlers h₀ hmem] at hmarks
    exact Bool.noConfusion hmarks
  · rw [hoff p] at hon
    exact Bool.noConfusion hon
  · rw [htasks task hmem] at howe
    exact Bool.noConfusion howe
  · exact hpush

/-- Two publishes, the second of which is under way while the task of the first runs. -/
def overlapping : State :=
  run step (.replicate 16 (.publish 0) ++ .replicate 4 (.publish 1) ++
      .replicate 8 (.checkNotify 0) ++ .replicate 12 (.publish 1) ++ .replicate 8 (.checkNotify 1))
    (start [⟨["a"], "", "m"⟩, ⟨["a"], "NAME", "m'"⟩]
      (handleAll [⟨"server", ["a"], "c", "addr", "CLIENT", "NAME", "md"⟩] .empty))

theorem found_notified_two :
    overlapping.found = [("a", "c"), ("a", "c")] ∧ (∀ p, mark overlapping.shared p = false) ∧
      ∀ p ∈ overlapping.found, p ∈ overlapping.pushed.map Prod.fst := by
  have hcovers : ∀ call ∈ [PublishCall.mk ["a"] "" "m", ⟨["a"], "NAME", "m'"⟩],
      Covers (handleAll [⟨"server", ["a"], "c", "addr", "CLIENT", "NAME", "md"⟩] .empty) call := by
    intro call hcall
    rcases List.mem_cons.1 hcall with rfl | hcall
    · exact covers_singleton _ _ _ rfl
    · obtain rfl := List.mem_singleton.1 hcall
      exact covers_singleton _ _ _ rfl
  have hhandlers : overlapping.handlers.map Prod.snd = [.done, .done] := by decide +kernel
  have htasks : overlapping.tasks = [.done, .done] := by decide +kernel
  refine ⟨by decide +kernel, found_notified _ _ hcovers _ (fun h hh => ?_) fun task htask => ?_⟩
  · have hmem : h.2 ∈ overlapping.handlers.map Prod.snd := List.mem_map_of_mem hh
    rw [hhandlers] at hmem
    simpa using hmem
  · change task ∈ overlapping.tasks at htask
    rw [htasks] at htask
    simpa using htask

end Attended

end Delivering

end TPST
