import SnitchOs.Kernel.Placement

/-!
# Killing a task

`kill_task` as a whole, and what it leaves behind. It takes the target out of the runqueues, the
endpoints and the reply mailbox; it never looks at the notifications, at the waits the target itself
registered in the reaping table, or at the timeout queues.
-/

namespace SnitchOs.Kernel

open Cap Ipc Notify Sched Function List Option ReapTable State Scheduler

variable {n : Nat} {s : Sec n} {c me p : TaskId} {r : ReapTable} {now : Nat} {k k' : State n}
  {h : Fin n}

namespace State

variable (k : State n) (h : Fin n) (now : Nat) (target : TaskId)

def cancelWait : State n :=
  { k with
    ipc := { k.ipc with
      endpoints := fun ep => (k.ipc.endpoints ep).cancelWait target
      replies := update k.ipc.replies target none } }

/-- `note_exit`, and the wake of the parent it names. -/
def noteExit (status : Int) : State n :=
  let r := k.reap.onExit target status
  { k with
    reap := r.2
    sched := match r.1 with
      | some parent => k.sched.wake h now parent
      | none => k.sched }

def killTask : KillOutcome × State n :=
  let r := k.sched.kill target (k.sched.current h == target) (k.sched.runningRemote h target)
  let k := { k with sched := r.2 }
  (r.1, if r.1 = .killed then (k.cancelWait target).noteExit h now target killedStatus else k)

/-- The state in which `t` never waited for anything. -/
def forget (t : TaskId) : State n :=
  { k.cancelWait t with
    notify := { k.notify with
      notifications := fun id => (k.notify.notifications id).map (·.cancelWait t) }
    reap := k.reap.forget t
    timeouts := fun h => (k.timeouts h).remove t }

/-- `t` occurs in none of the structures a task can wait in. -/
structure Absent (t : TaskId) : Prop where
  runqueue : ∀ h, t ∉ Runqueue.ids (k.sched.runqueues h)
  senders : ∀ ep, t ∉ (k.ipc.endpoints ep).state.senders
  receivers : ∀ ep, t ∉ (k.ipc.endpoints ep).state.receivers
  pending : ∀ ep, (k.ipc.endpoints ep).pending t = none
  reply : k.ipc.replies t = none
  notification : ∀ id x, k.notify.notifications id = some x → x.waiter ≠ some t
  waiterOn : k.reap.waiters t = none
  waiter : ∀ c, k.reap.waiters c ≠ some t
  anyWaiter : k.reap.anyWaiters t = false
  timeout : ∀ h d, (d, t) ∉ (k.timeouts h).entries

/-- `t` is not registered where `kill_task` does not look. A wait of `t` on itself is only seen
through its parent: it takes the place of the any-wait `note_exit` would find. -/
structure Unregistered (t : TaskId) : Prop where
  notification : ∀ id x, k.notify.notifications id = some x → x.waiter ≠ some t
  waiter : ∀ c, c ≠ t → k.reap.waiters c ≠ some t
  anyWaiter : k.reap.anyWaiters t = false
  timeout : ∀ h d, (d, t) ∉ (k.timeouts h).entries
  onSelf : k.reap.waiters t = some t → ∀ p, k.reap.parents t = some p → k.reap.anyWaiters p = false

end State

/-! ### No task is its own parent -/

structure Parentage (k : State n) : Prop where
  parent : ∀ c p, k.reap.parents c = some p → p ≠ c
  /-- A spawn that is still to be recorded is not of the spawner itself. -/
  noted : ∀ t c, .reap (.noteSpawn c) ∈ k.todo t → c ≠ t

theorem Emits.eq_spawn (he : Emits s new) (hc : .reap (.noteSpawn c) ∈ new) : ∃ hart handed, s = .sched (.spawn hart handed) := by
  cases he with
  | spawn hart handed child => exact ⟨hart, handed, rfl⟩
  | kill handle target isSelf remote o => cases o <;> simp [afterKill] at hc
  | _ => simp at hc

theorem parents_execReap {s : ReapSec} (h : (execReap (n := n) r me s).1.parents c = some p) :
    r.parents c = some p ∨ s = .noteSpawn c ∧ p = me := by
  cases s with
  | waitFor child =>
    have hwait : (r.onWait me child).2.parents c = some p := by
      simp only [execReap] at h
      split at h <;> next heq => rw [heq]; exact h
    exact .inl (parents_onWait hwait)
  | waitForAny deadline =>
    have hwait : (r.onWaitAny me).2.parents c = some p := by
      simp only [execReap] at h
      split at h <;> next heq => rw [heq]; exact h
    exact .inl (parents_onWaitAny hwait)
  | cancelWaitAny => exact .inl h
  | noteSpawn child =>
    by_cases hc : c = child
    · subst hc
      simp only [execReap, onSpawn, update_self, some.injEq] at h
      exact .inr ⟨rfl, h.symm⟩
    · left
      simpa [execReap, onSpawn, hc] using h
  | noteExit child status =>
    left
    rw [← r.parents_onExit child status]
    simp only [execReap] at h
    split at h <;> next heq => rw [heq]; exact h

theorem parents_recheckAny (h : (recheckAny (n := n) r me now deadline).1.parents c = some p) : r.parents c = some p := by
  have hwait : (r.onWaitAny me).2.parents c = some p := by
    simp only [recheckAny] at h
    split at h
    · next heq => rw [heq]; exact h
    next heq =>
    rw [heq]
    split at h <;> exact h
  exact parents_onWaitAny hwait

theorem parents_exec (hs : k.exec h now rest s = some k') (hp : k'.reap.parents c = some p) :
    k.reap.parents c = some p ∨ s = .reap (.noteSpawn c) ∧ p = k.sched.current h := by
  rw [(executed hs).reap] at hp
  unfold reapAfter at hp
  split at hp
  · exact (parents_execReap hp).imp_right fun ⟨hs, hme⟩ => ⟨congrArg Sec.reap hs, hme⟩
  · exact .inl ((parents_execReap hp).resolve_right fun ⟨hs, _⟩ => by cases hs)
  · exact .inl (parents_recheckAny hp)
  · exact .inl hp

theorem Syscall.no_noteSpawn {sys : Syscall n} : .reap (.noteSpawn c) ∉ sys.entry h me := by
  cases sys with
  | replyRecv ep prev msg =>
    simp only [Syscall.entry]
    split <;> simp
  | _ => simp [Syscall.entry]

theorem State.entry_no_noteSpawn (k : State n) (l : Label n) (c : TaskId) : .reap (.noteSpawn c) ∉ k.entry l := by
  cases l with
  | syscall h sys => exact Syscall.no_noteSpawn
  | timer h now preempt =>
    simp only [State.entry]
    split <;> simp
  | _ => simp [State.entry]

theorem Parentage.step (hk : Parentage k) (hp : Placement k.sched) (hs : k.step l = some k') : Parentage k' := by
  refine ⟨fun c p hcp => ?_, fun t c hc => ?_⟩
  · rcases step_cases hs with ⟨h, now, s, rest, -, ht, hs⟩ | ⟨-, -, rfl⟩
    · rcases parents_exec hs hcp with hold | ⟨rfl, rfl⟩
      · exact hk.parent c p hold
      · exact (hk.noted _ c (ht ▸ mem_cons_self)).symm
    · exact hk.parent c p hcp
  cases origin hs hc with
  | other _ hc => exact hk.noted t c hc
  | rest _ ht hme hc => exact hk.noted t c (hme ▸ ht ▸ mem_cons_of_mem _ hc)
  | @emitted h _ _ _ _ _ hme he hc =>
    -- the child's id is new, so it is not the spawner's
    obtain ⟨hart, handed, rfl⟩ := he.eq_spawn hc
    have hchild : c = k.sched.nextTaskId := by simpa [emitted] using hc
    rw [hme, hchild]
    exact (hp.current_lt h).ne'
  | entered _ hc => exact absurd hc (k.entry_no_noteSpawn l c)
  | born _ _ _ hc => cases hc

theorem parentage_of_reaches {b : Boot n} {C : State n → Label n → Prop}
    (hrun : Runs.Reaches step C b.state k) : Parentage k := by
  refine (hrun.invariant (I := fun k => Placement k.sched ∧ Parentage k) ⟨b.placement, ?_, ?_⟩
    fun k l k' hk _ hs => ⟨hk.1.schedStep (step_sched hs), hk.2.step hk.1 hs⟩).2
  · intro c p hp
    simp [Boot.state] at hp
  · intro t c hc
    simp [Boot.state] at hc

/-! ### The whole kill -/

def Scheduler.terminate (s : Scheduler n) (t : TaskId) (task : Task) : Scheduler n :=
  { s with
    tasks := update s.tasks t (some { task with state := .exited })
    runqueues := fun h => Runqueue.remove (s.runqueues h) t }

namespace State

theorem killTask_of_killed (hk : (k.killTask h now t).1 = .killed) : ∃ task, k.sched.tasks t = some task ∧
      k.sched.kill t (k.sched.current h == t) (k.sched.runningRemote h t) =
        (.killed, k.sched.terminate t task) ∧ (k.killTask h now t).2 =
        ({ k with sched := k.sched.terminate t task }.cancelWait t).noteExit h now t killedStatus := by
  rcases Placement.kill_cases k.sched t (k.sched.current h == t) (k.sched.runningRemote h t) with
    ⟨task, htask, -, -, -, hkill⟩ | ⟨task, -, hkill⟩ | ⟨o, ho, hkill⟩
  · refine ⟨task, htask, hkill, ?_⟩
    simp only [killTask, hkill]
    rfl
  · simp [killTask, hkill] at hk
  simp only [killTask, hkill] at hk
  exact absurd hk ho

theorem exec_section (htodo : k.todo (k.sched.current h) = s :: rest)
    (hs : k.exec h now rest s = some k₁) (hrun : Runs.exec step k₁ (List.replicate m (.run h now)) = some k₂) :
    Runs.exec step k (List.replicate (m + 1) (.run h now)) = some k₂ := by
  simp only [replicate_succ, Runs.exec, step, htodo, hs, bind_some]
  exact hrun

theorem isBlocked_terminate (s : Scheduler n) (task : Task) : (s.terminate t task).isBlocked t = false := by
  simp [isBlocked, terminate]

theorem wake_terminate (s : Scheduler n) (task : Task) : (s.terminate t task).wake h now t = s.terminate t task := by
  rcases Placement.wake_cases (s.terminate t task) h now t with ⟨_, hw⟩ | ⟨-, hw⟩
  · have := isBlocked_eq_true_iff.mpr ⟨_, hw.known, hw.blocked⟩
    rw [isBlocked_terminate] at this
    exact Bool.noConfusion this
  · exact hw

theorem not_queued_of_wake {s : Scheduler n} (hp : Placement s) (p : Option TaskId) (h' : Fin n) : t ∉ Runqueue.ids ((match p with
      | some parent => (s.terminate t task).wake h now parent | none => s.terminate t task).runqueues h') := by
  have hterm : t ∉ Runqueue.ids ((s.terminate t task).runqueues h') := by
    simp only [terminate, Runqueue.ids_remove]
    exact (hp.queue_nodup h').not_mem_erase
  cases p with
  | none => exact hterm
  | some parent =>
    rcases Placement.wake_cases (s.terminate t task) h now parent with ⟨w, hw⟩ | ⟨-, hw⟩
    · have hne : t ≠ parent := by
        rintro rfl
        have := isBlocked_eq_true_iff.mpr ⟨_, hw.known, hw.blocked⟩
        rw [isBlocked_terminate] at this
        exact Bool.noConfusion this
      simp only [hw.runqueues]
      by_cases hh : h' = h
      · subst hh
        simpa [hne] using hterm
      · simpa [hh] using hterm
    · simp only [hw]
      exact hterm

end State

/-! ### What it leaves -/

namespace State

/-- What `kill_task` does not look at decides whether the target is gone. -/
theorem absent_killTask_iff (hp : Placement k.sched) (hpar : Parentage k)
    (hk : (k.killTask h now t).1 = .killed) : (k.killTask h now t).2.Absent t ↔
      (∀ id x, k.notify.notifications id = some x → x.waiter ≠ some t) ∧
      (∀ c, c ≠ t → k.reap.waiters c ≠ some t) ∧ k.reap.anyWaiters t = false ∧ ∀ h d, (d, t) ∉ (k.timeouts h).entries := by
  obtain ⟨task, -, -, hkilled⟩ := killTask_of_killed hk
  have hself : k.reap.parents t ≠ some t := fun he => hpar.parent t t he rfl
  have hany := k.reap.anyWaiters_onExit_of_ne_parent t killedStatus hself
  rw [hkilled]
  constructor
  · intro ha
    refine ⟨ha.notification, fun c hc => ?_, ?_, ha.timeout⟩
    · rw [← k.reap.waiters_onExit_of_ne t killedStatus hc]
      exact ha.waiter c
    · rw [← hany]
      exact ha.anyWaiter
  rintro ⟨hnotify, hwait, hanyt, htimeout⟩
  exact {
    runqueue := not_queued_of_wake hp _
    senders := fun ep => by simp [noteExit, cancelWait, Endpoint.cancelWait, senders_onCancel]
    receivers := fun ep => by simp [noteExit, cancelWait, Endpoint.cancelWait, receivers_onCancel]
    pending := fun ep => by simp [noteExit, cancelWait, Endpoint.cancelWait]
    reply := by simp [noteExit, cancelWait]
    notification := hnotify
    waiterOn := k.reap.waiters_onExit_self t killedStatus
    waiter := fun c => by
      by_cases hc : c = t
      · subst hc
        exact fun he => by simp [noteExit, cancelWait, waiters_onExit_self] at he
      · simp only [noteExit, cancelWait, k.reap.waiters_onExit_of_ne t killedStatus hc]
        exact hwait c hc
    anyWaiter := hany.trans hanyt
    timeout := htimeout }

theorem cancelWait_forget_ipc (k : State n) (t : TaskId) : ((k.forget t).cancelWait t).ipc = (k.cancelWait t).ipc := by
  simp [cancelWait, forget, Endpoint.cancelWait_cancelWait]

theorem killTask_forget (hk : (k.killTask h now t).1 = .killed) : ((k.forget t).killTask h now t).1 = .killed := hk

theorem notify_forget (hn : ∀ id x, k.notify.notifications id = some x → x.waiter ≠ some t) : (k.forget t).notify = k.notify := by
  have : (fun id => (k.notify.notifications id).map (·.cancelWait t)) = k.notify.notifications := by
    funext id
    cases hx : k.notify.notifications id with
    | none => rfl
    | some x => simp [Notification.cancelWait, hn id x hx]
  simp [forget, this]

theorem timeouts_forget (ht : ∀ h d, (d, t) ∉ (k.timeouts h).entries) : (k.forget t).timeouts = k.timeouts :=
  funext fun h => TimeoutQueue.remove_eq_self (ht h)

/-- An unregistered target is killed as if it had never waited. -/
theorem killTask_eq_forget (hu : k.Unregistered t) (hk : (k.killTask h now t).1 = .killed) :
    (k.killTask h now t).2 = ((k.forget t).killTask h now t).2 := by
  obtain ⟨task, htask, -, hkilled⟩ := killTask_of_killed hk
  obtain ⟨task', htask', -, hforgot⟩ := killTask_of_killed (killTask_forget hk)
  have htt : task' = task := by
    have : k.sched.tasks t = some task' := htask'
    rw [htask] at this
    exact (some.inj this).symm
  subst htt
  obtain ⟨htable, hwake⟩ := onExit_forget killedStatus hu.waiter hu.anyWaiter hu.onSelf
  rw [hkilled, hforgot]
  have hsched : (match ((k.reap.forget t).onExit t killedStatus).1 with
        | some parent => (k.sched.terminate t task').wake h now parent
        | none => k.sched.terminate t task') =
      match (k.reap.onExit t killedStatus).1 with
        | some parent => (k.sched.terminate t task').wake h now parent
        | none => k.sched.terminate t task' := by
    rcases hwake with he | ⟨he, hself⟩
    · rw [he]
    rw [he, hself]
    exact (wake_terminate k.sched task').symm
  have hipc := cancelWait_forget_ipc k t
  simp only [noteExit, cancelWait, State.mk.injEq]
  exact ⟨hsched.symm, hipc.symm, (notify_forget hu.notification).symm, htable.symm, (timeouts_forget hu.timeout).symm, rfl, rfl⟩

end State

/-- A wait on itself hides the target's exit from its any-waiting parent. -/
theorem State.onSelf_of_eq_forget (hpar : Parentage k) (hk : (k.killTask h now t).1 = .killed)
    (heq : (k.killTask h now t).2 = ((k.forget t).killTask h now t).2) (hs : k.reap.waiters t = some t)
    (hp : k.reap.parents t = some p) : k.reap.anyWaiters p = false := by
  by_contra ha
  rw [Bool.not_eq_false] at ha
  have hne : p ≠ t := hpar.parent t p hp
  obtain ⟨task, -, -, hkilled⟩ := killTask_of_killed hk
  obtain ⟨task', -, -, hforgot⟩ := killTask_of_killed (killTask_forget hk)
  have hleft : (k.killTask h now t).2.reap.anyWaiters p = true := by
    rw [hkilled]
    simpa [noteExit, cancelWait, onExit, hs] using ha
  have hright : ((k.forget t).killTask h now t).2.reap.anyWaiters p = false := by
    rw [hforgot]
    simp [noteExit, cancelWait, forget, ReapTable.forget, onExit, hs, hp, hne, ha]
  rw [heq, hright] at hleft
  exact Bool.noConfusion hleft

/-- A killed task is gone from every structure, and what follows is as if it had never waited,
exactly when it was not registered where `kill_task` does not look. -/
theorem kill_leaves_no_ghost_iff {b : Boot n} {k : State n}
    (hrun : Runs.Reaches step (fun _ _ => True) b.state k) (h : Fin n) (now : Nat) (t : TaskId)
    (hk : (k.killTask h now t).1 = .killed) :
    ((k.killTask h now t).2.Absent t ∧ (k.killTask h now t).2 = ((k.forget t).killTask h now t).2) ↔
      k.Unregistered t := by
  have hplace := placement_of_reaches hrun
  have hpar := parentage_of_reaches hrun
  constructor
  · rintro ⟨habsent, heq⟩
    obtain ⟨hnotify, hwait, hany, htimeout⟩ := (absent_killTask_iff hplace hpar hk).mp habsent
    exact ⟨hnotify, hwait, hany, htimeout, fun hs p hp => onSelf_of_eq_forget hpar hk heq hs hp⟩
  · intro hu
    exact ⟨(absent_killTask_iff hplace hpar hk).mpr
      ⟨hu.notification, hu.waiter, hu.anyWaiter, hu.timeout⟩, killTask_eq_forget hu hk⟩

/-! ### A killed waiter -/

/-- One hart; process `1` may kill process `2`, which may wait on notification `0`. -/
def killBoot : Boot 1 where
  procs := [
    (0, { slots := [⟨0, .persistent, some ⟨.process 2, .kill⟩, 1, 0⟩] }),
    (0, { slots := [⟨0, .persistent, some ⟨.notification 0, .wait⟩, 2, 0⟩] })]
  noReply := by simp
  notifications := 1
  nextCapId := 3

theorem kill_leaves_no_ghost_ready :
    (killBoot.state.killTask 0 0 2).1 = .killed ∧ (killBoot.state.killTask 0 0 2).2.Absent 2 := by
  have hk : (killBoot.state.killTask 0 0 2).1 = .killed := by decide
  refine ⟨hk, ((kill_leaves_no_ghost_iff .refl 0 0 2 hk).mpr ?_).1⟩
  constructor
  · intro id x hx
    by_cases hid : id < killBoot.notifications
    · simp only [Boot.state, hid, if_true, some.injEq] at hx
      simp [← hx]
    · simp [Boot.state, hid] at hx
  all_goals simp [Boot.state]

/-- Process `2` waits on the notification, then process `1` asks to kill it. -/
def killWaiter : List (Label 1) :=
  [.yield 0, .run 0 1, .syscall 0 (.waitNotify (.new 0 0) 0), .run 0 2, .run 0 2, .run 0 2, .run 0 2,
    .syscall 0 (.kill (.new 0 0)), .run 0 3]

/-- The dead process still holds the notification's waiter slot. -/
theorem killed_waiter_keeps_slot :
    ∃ k, Runs.Reaches step (fun _ _ => True) killBoot.state k ∧
      k.todo (k.sched.current 0) = [.sched (.killRead (.new 0 0) 2)] ∧
      (k.killTask 0 5 2).1 = .killed ∧ ¬ (k.killTask 0 5 2).2.Absent 2 := by
  obtain ⟨k, hrun, htodo, hkilled, hslot⟩ : ∃ k, Runs.Reaches step (fun _ _ => True) killBoot.state k ∧
      k.todo (k.sched.current 0) = [.sched (.killRead (.new 0 0) 2)] ∧ (k.killTask 0 5 2).1 = .killed ∧
        (k.killTask 0 5 2).2.notify.notifications 0 = some { waiter := some 2 } :=
    Runs.exists_reaches killWaiter (by decide)
  exact ⟨k, hrun, htodo, hkilled, fun ha => ha.notification 0 _ hslot rfl⟩

end SnitchOs.Kernel
