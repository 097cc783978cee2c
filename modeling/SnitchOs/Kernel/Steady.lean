import SnitchOs.Kernel.Own
import SnitchOs.Kernel.Shape

/-!
# Runs in which no task starts or ends

Sending, calling, receiving, replying, signalling, waiting, yielding and the timer only run tasks,
block them and wake them. In runs of these a hart's own task never blocks and never leaves its hart,
so there is always something to switch to: `park` blocks the task that executes it.
-/

namespace SnitchOs.Kernel

open Cap Ipc Notify Sched List State

variable {n : Nat}

/-! ### The labels and their sections -/

def Syscall.steady : Syscall n → Bool
  | .spawn .. | .exit _ | .kill _ => false
  | _ => true

/-- No task starts or ends. -/
def Label.steady : Label n → Bool
  | .syscall _ sys => sys.steady
  | .fault _ | .killCheck _ => false
  | _ => true

def Sec.steady : Sec n → Bool
  | .sched (.wake _) | .sched .yieldNow => true
  | .sched _ => false
  | .ipc (.cancelEndpoints _) | .ipc (.cancelReplies _) => false
  | .reap (.noteExit ..) | .reap (.noteSpawn _) => false
  | .caps (.invokeKill _) | .caps (.consume _) | .caps (.delegateFromUser ..) => false
  | .caps (.mintProcessCap _) | .caps (.publish _) | .caps (.dropProcess _) => false
  | _ => true

def Sec.mayReap : Sec n → Bool
  | .reap _ | .resume (.child _) | .resume (.anyChild _) => true
  | _ => false

variable {s : Sec n} {r : ReapTable} {k : State n} {t : TaskId}

theorem Emits.steady (he : Emits s new) (hs : s.steady = true) (hr : s.mayReap = false) : ∀ s' ∈ new, s'.steady = true := by
  refine all_eq_true.mp ?_
  cases he with
  | _ => first | rfl | exact Bool.noConfusion hs | exact Bool.noConfusion hr

theorem onWait_of_exited_nil (hex : r.exited = []) (me child : TaskId) :
    r.onWait me child = (.block, { r with waiters := Function.update r.waiters child (some me) }) := by
  simp [ReapTable.onWait, hex]

theorem onWaitAny_of_exited_nil (hex : r.exited = []) (me : TaskId) :
    r.onWaitAny me = (.block, { r with anyWaiters := Function.update r.anyWaiters me true }) := by
  simp [ReapTable.onWaitAny, hex]

theorem execReap_steady (hex : r.exited = []) (me : TaskId) {s : ReapSec} (hs : (Sec.reap s : Sec n).steady = true) :
    (execReap (n := n) r me s).1.exited = [] ∧ ∀ s' ∈ (execReap (n := n) r me s).2, s'.steady = true := by
  cases s with
  | waitFor child => simp [execReap, onWait_of_exited_nil hex, hex, Sec.steady]
  | waitForAny deadline => simp [execReap, onWaitAny_of_exited_nil hex, hex, Sec.steady]
  | cancelWaitAny => simp [execReap, ReapTable.cancelWaitAny, hex]
  | noteSpawn child | noteExit child status => cases hs

theorem recheckAny_steady (hex : r.exited = []) (me : TaskId) (now deadline : Nat) :
    (recheckAny (n := n) r me now deadline).1.exited = [] ∧
      ∀ s' ∈ (recheckAny (n := n) r me now deadline).2, s'.steady = true := by
  simp only [recheckAny, onWaitAny_of_exited_nil hex]
  split <;> simp [hex, Sec.steady]

theorem State.exited_reapAfter (hex : k.reap.exited = []) (h : Fin n) (now : Nat)
    (hs : s.steady = true) : (k.reapAfter h now s).exited = [] := by
  unfold reapAfter
  split
  · exact (execReap_steady hex _ hs).1
  · exact (execReap_steady (n := n) hex _ rfl).1
  · exact (recheckAny_steady (n := n) hex _ now _).1
  · exact hex

theorem State.emitted_steady (hex : k.reap.exited = []) (h : Fin n) (now : Nat) (hs : s.steady = true)
    (he : Emits s (k.emitted h now s)) : ∀ s' ∈ k.emitted h now s, s'.steady = true := by
  cases s with
  | reap s => exact (execReap_steady hex _ hs).2
  | resume r =>
    cases r with
    | child child => exact (execReap_steady hex _ (s := .waitFor child) rfl).2
    | anyChild deadline => exact (recheckAny_steady hex _ now deadline).2
    | _ => exact he.steady hs rfl
  | _ => exact he.steady hs rfl

/-! ### Tasks that do not exist yet -/

theorem unborn_step (hp : Placement k.sched) (hu : ∀ t, k.sched.nextTaskId ≤ t → k.todo t = []) (hs : k.step l = some k')
    (ht : k'.sched.nextTaskId ≤ t) : k'.todo t = [] := by
  have hle := (step_sched hs).nextTaskId_le.trans ht
  have hne : ∀ h, t ≠ k.sched.current h := fun h he =>
    absurd (hp.current_lt h) (Nat.not_lt.mpr (he ▸ hle))
  refine eq_nil_iff_forall_not_mem.mpr fun s hm => ?_
  cases origin hs hm with
  | other _ hm =>
    rw [hu t hle] at hm
    cases hm
  | rest _ _ hme | emitted _ _ hme | entered hme => exact hne _ hme
  | born hl hspawn hchild =>
    subst hl
    simp only [State.step, hspawn] at hs
    cases hs
    exact absurd ht (by rw [hchild]; exact Nat.not_succ_le_self _)

theorem unborn_of_reaches {b : Boot n} {C : State n → Label n → Prop}
    (hrun : Runs.Reaches State.step C b.state k) (t : TaskId) (ht : k.sched.nextTaskId ≤ t) : k.todo t = [] := by
  have hk : Placement k.sched ∧ ∀ t, k.sched.nextTaskId ≤ t → k.todo t = [] :=
    hrun.invariant (I := fun k => Placement k.sched ∧ ∀ t, k.sched.nextTaskId ≤ t → k.todo t = [])
      ⟨b.placement, fun _ _ => rfl⟩ fun _ _ _ hk _ hs =>
        ⟨hk.1.schedStep (step_sched hs), fun _ => unborn_step hk.1 hk.2 hs⟩
  exact hk.2 t ht

/-! ### The invariant -/

structure Steady (k : State n) : Prop where
  placement : Placement k.sched
  shaped : ∀ t, Shaped (k.todo t)
  sections : ∀ t, ∀ s ∈ k.todo t, s.steady = true
  exited : k.reap.exited = []
  ownTodo : ∀ h : Fin n, ∀ s ∈ k.todo h, s.own = true
  ownTable : ∀ h : Fin n, k.procs.tables h = none
  /-- A hart's own task runs on it or is queued there. -/
  home : ∀ h : Fin n, k.sched.current h = h ∨ h.val ∈ Runqueue.ids (k.sched.runqueues h)

namespace Steady

variable {k k' : State n}

theorem head_steady (hst : Steady k) (ht : k.todo t = s :: rest) : s.steady = true :=
  hst.sections t s (by simp [ht])

theorem ownTasks (hst : Steady k) : OwnTasks k := by
  refine ⟨Nat.le_of_not_lt fun hlt => ?_, hst.ownTodo, hst.ownTable⟩
  rcases hst.home ⟨k.sched.nextTaskId, hlt⟩ with hc | hm
  · exact Nat.lt_irrefl _ (hc ▸ hst.placement.current_lt ⟨k.sched.nextTaskId, hlt⟩)
  exact hst.placement.within.not_mem (Scheduler.room_of_not_lt (Nat.lt_irrefl _))
    (.queue ⟨k.sched.nextTaskId, hlt⟩) (by simpa [Scheduler.tasksAt] using hm)

theorem emits (hst : Steady k) (ht : k.todo (k.sched.current h) = s :: rest) : Emits s (k.emitted h now s) := by
  rcases k.emits_emitted h now s with rfl | he
  · cases hst.head_steady ht
  · exact he

theorem ran (hst : Steady k) (ht : k.todo (k.sched.current h) = s :: rest)
    (hexec : k.exec h now rest s = some k') : Ran k k' h now s (k.emitted h now s) rest := by
  have he : Emits s (k.emitted h now s) := hst.emits ht
  refine ⟨ht, hexec, he, ?_⟩
  rw [(executed hexec).todo, he.leaves]
  unfold others
  split
  · cases hst.head_steady ht
  · rfl

/-! ### Blocking and waking -/

theorem isBlocked_wake (s : Scheduler n) (h : Fin n) (now : Nat) (id t : TaskId) :
    (s.wake h now id).isBlocked t = if t = id then false else s.isBlocked t := by
  rcases Placement.wake_cases s h now id with ⟨task, hw⟩ | ⟨hb, he⟩
  · rw [Placement.isBlocked_update hw.tasks]
    split <;> rfl
  rw [he]
  split
  · next heq => rw [heq, hb]
  · rfl

theorem isBlocked_switch {s s' : Scheduler n} (hp : Placement s) (hs : s.prepareSwitch h now d = some s') (t : TaskId) :
    s'.isBlocked t = s.isBlocked t ∨ (d = .block ∧ t = s.current h ∧ s'.isBlocked t = true) := by
  rcases Placement.prepareSwitch_cases hs with ⟨-, rfl⟩ | ⟨next, outgoing, hsw⟩
  · exact .inl rfl
  rw [Placement.isBlocked_update hsw.tasks]
  by_cases ht : t = s.current h
  · rw [if_pos ht]
    cases d with
    | block => exact .inr ⟨rfl, ht, rfl⟩
    | requeue =>
      left
      rw [ht, Scheduler.isBlocked, hsw.out]
      rfl
    | exit =>
      left
      rw [ht, hp.current_not_blocked h]
      rfl
  · exact .inl (if_neg ht)

/-- Which tasks are blocked after a steady section. -/
def blockedAfter (k : State n) (me : TaskId) : Sec n → TaskId → Bool
  | .sched (.wake id), t => if t = id then false else k.sched.isBlocked t
  | .park _, t => if t = me then true else k.sched.isBlocked t
  | _, t => k.sched.isBlocked t

theorem isBlocked_exec (hst : Steady k) (ht : k.todo (k.sched.current h) = s :: rest)
    (hexec : k.exec h now rest s = some k') (t : TaskId) : k'.sched.isBlocked t = blockedAfter k (k.sched.current h) s t := by
  have hs := hst.head_steady ht
  cases s with
  | sched s =>
    cases s with
    | wake id =>
      cases hexec
      exact isBlocked_wake k.sched h now id t
    | yieldNow =>
      obtain ⟨s', hsw, rfl⟩ := Option.map_eq_some_iff.mp hexec
      exact (isBlocked_switch hst.placement hsw t).resolve_right (by simp)
    | _ => cases hs
  | park r =>
    obtain ⟨s', hsw, rfl⟩ := Option.map_eq_some_iff.mp (id hexec)
    rw [blockedAfter]
    split
    · next heq => exact heq ▸ hst.ownTasks.isBlocked_park hst.home ht hexec
    · next hne => exact (isBlocked_switch hst.placement hsw t).resolve_right fun hb => hne hb.2.1
  | _ =>
    rw [(executed hexec).sched rfl]
    rfl

/-! ### Every step keeps it -/

theorem entry_steady (k : State n) (hl : l.steady = true) : ∀ s ∈ k.entry l, s.steady = true := by
  cases l with
  | syscall h sys =>
    cases sys with
    | replyRecv ep prevReply msg =>
      simp only [State.entry, Syscall.entry]
      split <;> exact forall_mem_singleton.2 rfl
    | _ =>
      first
        | exact Bool.noConfusion hl
        | exact forall_mem_singleton.2 rfl
  | timer h now preempt =>
    intro s hs
    rcases mem_entry_timer hs with ⟨t, rfl⟩ | rfl <;> rfl
  | yield h => exact forall_mem_singleton.2 rfl
  | run h now => exact forall_mem_nil _
  | fault h | killCheck h => cases hl

theorem sections_step (hst : Steady k) (hl : l.steady = true) (hs : k.step l = some k')
    (t : TaskId) : ∀ s ∈ k'.todo t, s.steady = true := by
  intro s hm
  cases origin hs hm with
  | other _ hm => exact hst.sections t s hm
  | rest _ ht _ hm => exact hst.sections _ s (by rw [ht]; exact mem_cons_of_mem _ hm)
  | emitted _ ht _ he hm => exact emitted_steady hst.exited _ _ (hst.head_steady ht) he s hm
  | entered _ hm => exact entry_steady k hl s hm
  | born _ ht => cases hst.head_steady ht

theorem step (hst : Steady k) (hl : l.steady = true) (hs : k.step l = some k') : Steady k' := by
  have hown := hst.ownTasks.step hs
  have hkeeps : k'.reap.exited = [] ∧ Home k'.sched := by
    rcases step_cases hs with ⟨h, now, s, rest, rfl, ht, hexec⟩ | ⟨-, -, rfl⟩
    · have hsteady := hst.head_steady ht
      refine ⟨?_, hst.ownTasks.home_exec hst.home ht (fun _ _ he => ?_) hexec⟩
      · rw [(executed hexec).reap]
        exact exited_reapAfter hst.exited h now hsteady
      · rw [he] at hsteady
        cases hsteady
    · exact ⟨hst.exited, hst.home⟩
  exact ⟨hst.placement.schedStep (step_sched hs), shaped_step hst.shaped hs, hst.sections_step hl hs, hkeeps.1,
    hown.todo, hown.table, hkeeps.2⟩

end Steady

theorem Boot.steady (b : Boot n) : Steady b.state where
  placement := b.placement
  shaped := fun _ => .nil
  sections := fun _ _ hs => by cases hs
  exited := rfl
  ownTodo := fun _ _ hs => by cases hs
  ownTable := fun h => by simp [Boot.state, Boot.entry]
  home := fun _ => .inl rfl

end SnitchOs.Kernel
