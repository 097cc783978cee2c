import SnitchOs.Kernel.Emits
import SnitchOs.Lib.Budget

/-!
# Where the tasks are

A task is current on a hart, or queued on one, or neither. Counted over all harts it is in one place
at most, and in none while it is blocked. This holds of every reachable state, kills that race with a
context switch included.
-/

namespace SnitchOs.Kernel

open Cap Ipc Notify Sched Function Option Scheduler Runqueue Multiset
open Budget

variable {n : Nat}

/-- The places of the scheduler. -/
inductive Spot (n : Nat)
  | current (h : Fin n)
  | queue (h : Fin n)
deriving DecidableEq

variable {t : TaskId} {s : Scheduler n} {h : Fin n} {d : CurrentDisposition} {s' : Scheduler n}
  {now : Nat} {next u : TaskId} {outgoing task task' : Task} {k k' : State n}

namespace Scheduler

def tasksAt (s : Scheduler n) : Spot n → Multiset TaskId
  | .current h => {s.current h}
  | .queue h => ↑(ids (s.runqueues h))

def isBlocked (s : Scheduler n) (t : TaskId) : Bool := (s.tasks t).any (·.state == .blocked)

/-- How many places a task may take. -/
def room (s : Scheduler n) (t : TaskId) : ℕ := if t < s.nextTaskId ∧ s.isBlocked t = false then 1 else 0

theorem room_le_one (s : Scheduler n) (t : TaskId) : s.room t ≤ 1 := by
  unfold room
  split <;> simp

theorem room_of_blocked (hb : s.isBlocked t = true) : s.room t = 0 := by
  rw [room, if_neg]
  rw [hb]
  exact fun h => Bool.noConfusion h.2

theorem room_of_not_lt (ht : ¬ t < s.nextTaskId) : s.room t = 0 :=
  if_neg fun h => ht h.1

theorem room_of_free (ht : t < s.nextTaskId) (hb : s.isBlocked t = false) : s.room t = 1 :=
  if_pos ⟨ht, hb⟩

theorem isBlocked_eq_true_iff : s.isBlocked t = true ↔ ∃ task, s.tasks t = some task ∧ task.state = .blocked := by
  simp [isBlocked, any_eq_true]

theorem room_mono (hn : s.nextTaskId ≤ s'.nextTaskId)
    (hb : s'.isBlocked t = true → s.isBlocked t = true) : s.room t ≤ s'.room t := by
  unfold room
  split
  · next h =>
    have hb' : s'.isBlocked t = false := by
      by_contra hne
      rw [hb (by simpa using hne)] at h
      exact Bool.noConfusion h.2
    rw [if_pos ⟨lt_of_lt_of_le h.1 hn, hb'⟩]
  · exact Nat.zero_le _

end Scheduler

/-- Every task takes at most its room, and the table knows only ids handed out. -/
structure Placement (s : Scheduler n) : Prop where
  within : Within s.room s.tasksAt
  bound : ∀ t, s.tasks t ≠ none → t < s.nextTaskId

namespace Placement

variable {s s' : Scheduler n}

theorem current_not_blocked (hp : Placement s) (h : Fin n) : s.isBlocked (s.current h) = false := by
  by_contra hb
  refine hp.within.not_mem (k := s.current h) ?_ (.current h) (by simp [tasksAt])
  rw [room, if_neg]
  exact fun hr => hb hr.2

theorem current_lt (hp : Placement s) (h : Fin n) : s.current h < s.nextTaskId := by
  by_contra hlt
  exact hp.within.not_mem (room_of_not_lt hlt) (.current h) (by simp [tasksAt])

theorem current_not_queued (hp : Placement s) (h h' : Fin n) : s.current h ∉ ids (s.runqueues h') := by
  intro hm
  have := hp.within.place_unique (s.room_le_one _) (l := .current h) (m := .queue h')
    (k := s.current h) (by simp [tasksAt]) (by simpa [tasksAt] using hm)
  cases this

theorem queue_nodup (hp : Placement s) (h : Fin n) : (ids (s.runqueues h)).Nodup := by
  rw [List.nodup_iff_count_le_one]
  intro t
  have := hp.within.count_le (.queue h) t
  exact (by simpa [tasksAt] using this : _ ≤ s.room t).trans (s.room_le_one t)

theorem current_injective (hp : Placement s) : Function.Injective s.current := by
  intro h h' he
  have := hp.within.place_unique (s.room_le_one _) (l := .current h) (m := .current h')
    (k := s.current h) (by simp [tasksAt]) (by simp [tasksAt, he])
  cases this
  rfl

/-! ### What the scheduler's sections do -/

/-- Hart `h` runs the queued task `next` in place of its current one, which `d` disposes of. -/
structure Switched (s s' : Scheduler n) (h : Fin n) (now : Nat) (d : CurrentDisposition) (next : TaskId)
    (outgoing : Task) : Prop where
  queued : next ∈ ids (s.runqueues h)
  out : s.tasks (s.current h) = some outgoing
  known : s.tasks next ≠ none
  tasks : s'.tasks = update s.tasks (s.current h)
    (some { outgoing with state := d.nextState.getD outgoing.state })
  nextTaskId : s'.nextTaskId = s.nextTaskId
  runqueues : s'.runqueues = update s.runqueues h
    (remove (s.runqueues h) next ++
      if d.requeues then [⟨s.current h, outgoing.priority, now⟩] else [])
  current : s'.current = update s.current h next

theorem Switched.mem_runqueues (hs : Switched s s' h now d next outgoing)
    (hm : t ∈ ids (s'.runqueues h')) : t ∈ ids (s.runqueues h') ∨ h' = h ∧ t = s.current h ∧ d = .requeue := by
  rw [hs.runqueues] at hm
  by_cases hh : h' = h
  · subst hh
    rw [update_self, ids_append, ids_remove, List.mem_append] at hm
    refine hm.imp List.mem_of_mem_erase fun hm => ⟨rfl, ?_⟩
    cases d with
    | requeue => exact ⟨by simpa [CurrentDisposition.requeues] using hm, rfl⟩
    | block | exit => simp [CurrentDisposition.requeues] at hm
  · rw [update_of_ne hh] at hm
    exact .inl hm

theorem prepareSwitch_cases (hs : s.prepareSwitch h now d = some s') :
    (s.runqueues h = [] ∧ s' = s) ∨ ∃ next outgoing, Switched s s' h now d next outgoing := by
  unfold prepareSwitch at hs
  rcases pickNext_cases (s.runqueues h) now agingStepTicks with ⟨hnil, hp⟩ | ⟨c, hc, hp⟩
  · rw [hp] at hs
    simp only at hs
    split at hs
    · cases hs
    · exact .inl ⟨hnil, (some.inj hs).symm⟩
  · rw [hp] at hs
    simp only at hs
    split at hs
    · next outgoing _ hout hnext =>
      cases hs
      refine .inr ⟨c.id, outgoing, List.mem_map_of_mem hc, hout, ?_, rfl, rfl, rfl, rfl⟩
      rw [hnext]
      exact some_ne_none _
    · cases hs

/-- The blocked task `id` becomes ready at the back of hart `h`'s queue. -/
structure Woken (s s' : Scheduler n) (h : Fin n) (now : Nat) (id : TaskId) (task : Task) : Prop where
  known : s.tasks id = some task
  blocked : task.state = .blocked
  tasks : s'.tasks = update s.tasks id (some { task with state := .ready })
  nextTaskId : s'.nextTaskId = s.nextTaskId
  runqueues : s'.runqueues = update s.runqueues h (s.runqueues h ++ [⟨id, task.priority, now⟩])
  current : s'.current = s.current

theorem wake_cases (s : Scheduler n) (h : Fin n) (now : Nat) (id : TaskId) :
    (∃ task, Woken s (s.wake h now id) h now id task) ∨ (s.isBlocked id = false ∧ s.wake h now id = s) := by
  unfold Scheduler.wake isBlocked
  cases ht : s.tasks id with
  | none => exact .inr ⟨rfl, rfl⟩
  | some task =>
    by_cases hb : task.state = .blocked
    · have hon : onWake task.state = true := by rw [hb]; rfl
      simp only [hon, if_true]
      exact .inl ⟨task, ht, hb, rfl, rfl, rfl, rfl⟩
    · exact .inr ⟨by simpa using hb, by simp [onWake, hb]⟩

theorem kill_cases (s : Scheduler n) (target : TaskId) (isSelf remote : Bool) :
    (∃ task, s.tasks target = some task ∧ isSelf = false ∧ remote = false ∧ task.state ≠ .exited ∧
      s.kill target isSelf remote = (.killed, { s with
        tasks := update s.tasks target (some { task with state := .exited })
        runqueues := fun h => remove (s.runqueues h) target })) ∨
    (∃ task, s.tasks target = some task ∧ s.kill target isSelf remote = (.requested, { s with
        tasks := update s.tasks target (some { task with killRequested := true }) })) ∨
    ∃ o, o ≠ .killed ∧ s.kill target isSelf remote = (o, s) := by
  unfold Scheduler.kill
  cases ht : s.tasks target with
  | none => exact .inr (.inr ⟨.alreadyDead, by simp, rfl⟩)
  | some task =>
    simp only
    cases hc : classifyKill ⟨isSelf, remote, task.state == .exited⟩ with
    | noOp => exact .inr (.inr ⟨.alreadyDead, by simp, rfl⟩)
    | refuseSelf => exact .inr (.inr ⟨.refusedSelf, by simp, rfl⟩)
    | refuseRunningRemote => exact .inr (.inl ⟨task, rfl, rfl⟩)
    | terminate =>
      obtain ⟨hself, hremote, hexited⟩ := classifyKill_eq_terminate_iff.mp hc
      exact .inl ⟨task, rfl, hself, hremote, by simpa using hexited, rfl⟩

theorem nextTaskId_wake (s : Scheduler n) (h : Fin n) (now : Nat) (id : TaskId) :
    (s.wake h now id).nextTaskId = s.nextTaskId := by
  rcases wake_cases s h now id with ⟨task, hw⟩ | ⟨-, he⟩
  · exact hw.nextTaskId
  · rw [he]

theorem nextTaskId_kill (s : Scheduler n) (target : TaskId) (isSelf remote : Bool) :
    (s.kill target isSelf remote).2.nextTaskId = s.nextTaskId := by
  rcases kill_cases s target isSelf remote with ⟨task, -, -, -, -, hk⟩ | ⟨task, -, hk⟩ | ⟨o, -, hk⟩ <;> rw [hk]

/-! ### They keep the placement -/

theorem isBlocked_update (hs : s'.tasks = update s.tasks u (some task)) (t : TaskId) :
    s'.isBlocked t = if t = u then task.state == .blocked else s.isBlocked t := by
  unfold isBlocked
  rw [hs]
  by_cases ht : t = u
  · subst ht
    simp
  · simp [ht]

theorem bound_update (hp : Placement s) (hu : s.tasks u = some task) (t : TaskId)
    (ht : update s.tasks u (some task') t ≠ none) : t < s.nextTaskId := by
  by_cases h : t = u
  · subst h
    exact hp.bound t (by rw [hu]; exact some_ne_none _)
  · rw [update_of_ne h] at ht
    exact hp.bound t ht

/-- A switch takes `next` off its queue onto the hart, and the outgoing task off the hart: to the back
of the queue, or nowhere. -/
theorem count_switch (me : TaskId) (p : Priority) (now : Nat) (d : CurrentDisposition) (hnext : next ∈ ids queue) (t : TaskId) :
    count t {next} + count t (↑(ids (remove queue next ++ if d.requeues then [⟨me, p, now⟩] else [])) : Multiset TaskId) +
      (if t = me ∧ d.requeues = false then 1 else 0) = count t {me} + count t (↑(ids queue) : Multiset TaskId) := by
  have hcount : 1 ≤ (ids queue).count next := List.one_le_count_iff.mpr hnext
  have herase : count t {next} + ((ids queue).erase next).count t =
      (ids queue).count t := by
    by_cases ht : t = next
    · subst ht
      simp
      omega
    · simp [ht, Ne.symm ht]
  rw [ids_append, ids_remove, coe_count, coe_count, List.count_append, count_singleton t me]
  cases d.requeues
  · simp only [Bool.false_eq_true, if_false, and_true, ids_nil, List.count_nil]
    omega
  · simp only [if_true, Bool.true_eq_false, and_false, if_false, ids_singleton,
      List.count_singleton, beq_iff_eq, eq_comm (a := me)]
    omega

theorem room_switch (hsw : Switched s s' h now d next outgoing) (t : TaskId) :
    s.room t ≤ s'.room t + if t = s.current h ∧ d.requeues = false then 1 else 0 := by
  by_cases ht : t = s.current h ∧ d.requeues = false
  · rw [if_pos ht]
    exact (s.room_le_one t).trans (Nat.le_add_left _ _)
  rw [if_neg ht, Nat.add_zero]
  refine room_mono hsw.nextTaskId.ge fun hb => ?_
  rw [isBlocked_update hsw.tasks] at hb
  by_cases hme : t = s.current h
  · rw [if_pos hme] at hb
    rw [hme, isBlocked_eq_true_iff]
    refine ⟨outgoing, hsw.out, ?_⟩
    cases d with
    | requeue => exact beq_iff_eq.mp hb
    | block | exit => exact absurd ⟨hme, rfl⟩ ht
  · rwa [if_neg hme] at hb

theorem switch (hp : Placement s) (hs : s.prepareSwitch h now d = some s') : Placement s' := by
  rcases prepareSwitch_cases hs with ⟨-, rfl⟩ | ⟨next, outgoing, hsw⟩
  · exact hp
  refine ⟨?_, fun t ht => ?_⟩
  · refine hp.within.two (l := .current h) (m := .queue h) (by simp) (fun q hq hq' => ?_) fun t => ?_
    · -- no other hart's places change
      cases q with
      | current h' =>
        have : h' ≠ h := fun e => hq (e ▸ rfl)
        simp [tasksAt, hsw.current, this]
      | queue h' =>
        have : h' ≠ h := fun e => hq' (e ▸ rfl)
        simp [tasksAt, hsw.runqueues, this]
    · have hcount := count_switch (s.current h) outgoing.priority now d hsw.queued t
      have hroom := room_switch hsw t
      simp only [tasksAt, hsw.current, hsw.runqueues, update_self]
      omega
  · rw [hsw.nextTaskId]
    exact hp.bound_update hsw.out t (hsw.tasks ▸ ht)

theorem wake (hp : Placement s) (h : Fin n) (now : Nat) (id : TaskId) : Placement (s.wake h now id) := by
  rcases wake_cases s h now id with ⟨task, hw⟩ | ⟨-, hw⟩
  · refine ⟨hp.within.one (.queue h) (fun q hq => ?_) fun t => ?_, fun t ht => ?_⟩
    · cases q with
      | current h' => simp [tasksAt, hw.current]
      | queue h' =>
        have : h' ≠ h := fun e => hq (e ▸ rfl)
        simp [tasksAt, hw.runqueues, this]
    · have hroom : s.room t + (if t = id then 1 else 0) ≤ (s.wake h now id).room t := by
        by_cases hid : t = id
        · subst hid
          have hbound : t < s.nextTaskId := hp.bound t (by rw [hw.known]; exact some_ne_none _)
          rw [room_of_blocked (isBlocked_eq_true_iff.mpr ⟨task, hw.known, hw.blocked⟩),
            room_of_free (hw.nextTaskId ▸ hbound) (by simp [isBlocked_update hw.tasks])]
          simp
        · rw [if_neg hid]
          exact room_mono hw.nextTaskId.ge (by simp [isBlocked_update hw.tasks, hid])
      simp only [tasksAt, hw.runqueues, update_self, ids_append,
        ids_singleton, coe_count, List.count_append, List.count_singleton, beq_iff_eq,
        eq_comm (a := id)]
      omega
    · rw [hw.nextTaskId]
      exact hp.bound_update hw.known t (hw.tasks ▸ ht)
  · rwa [hw]

theorem spawn (hp : Placement s) (hart : Fin n) (now : Nat) : Placement (s.spawn hart now) := by
  refine ⟨hp.within.one (.queue hart) (fun q hq => ?_) fun t => ?_, fun t ht => ?_⟩
  · cases q with
    | current h' => exact le_rfl
    | queue h' =>
      have : h' ≠ hart := fun e => hq (e ▸ rfl)
      simp [tasksAt, Scheduler.spawn, this]
  · have hroom : s.room t + (if t = s.nextTaskId then 1 else 0) ≤ (s.spawn hart now).room t := by
      by_cases hid : t = s.nextTaskId
      · subst hid
        rw [room_of_not_lt (lt_irrefl _), room_of_free (Nat.lt_succ_self _) (by simp [isBlocked, Scheduler.spawn])]
        simp
      · rw [if_neg hid]
        exact room_mono (Nat.le_succ _) (by simp [isBlocked, Scheduler.spawn, hid])
    simp only [tasksAt, Scheduler.spawn, update_self, ids_append,
      ids_singleton, coe_count, List.count_append, List.count_singleton, beq_iff_eq,
      eq_comm (a := s.nextTaskId)] at hroom ⊢
    omega
  · by_cases hid : t = s.nextTaskId
    · rw [hid]
      exact Nat.lt_succ_self _
    · have ht' : s.tasks t ≠ none := by
        simpa [Scheduler.spawn, hid] using ht
      exact Nat.lt_succ_of_lt (hp.bound t ht')

theorem shrink (hp : Placement s) (hn : s'.nextTaskId = s.nextTaskId) (hc : s'.current = s.current)
    (hq : ∀ h, (ids (s'.runqueues h)).Sublist (ids (s.runqueues h))) (hb : ∀ t, s'.isBlocked t = true → s.isBlocked t = true)
    (ht : ∀ t, s'.tasks t ≠ none → s.tasks t ≠ none) : Placement s' := by
  refine ⟨hp.within.mono (fun q => ?_) fun t => room_mono hn.ge (hb t), fun t htask => ?_⟩
  · cases q with
    | current h => simp [tasksAt, hc]
    | queue h => exact (hq h).subperm
  · rw [hn]
    exact hp.bound t (ht t htask)

theorem update_ne_none (hu : s.tasks u = some task) (ht : update s.tasks u (some task') t ≠ none) : s.tasks t ≠ none := by
  by_cases h : t = u
  · rw [h, hu]
    exact some_ne_none _
  · rwa [update_of_ne h] at ht

theorem kill (hp : Placement s) (target : TaskId) (isSelf remote : Bool) : Placement (s.kill target isSelf remote).2 := by
  rcases kill_cases s target isSelf remote with
    ⟨task, ht, -, -, -, hk⟩ | ⟨task, ht, hk⟩ | ⟨o, -, hk⟩
  · rw [hk]
    refine hp.shrink rfl rfl (fun h => ?_) (fun t hb => ?_) fun t => update_ne_none ht
    · rw [ids_remove]
      exact List.erase_sublist
    rw [isBlocked_update (s := s) rfl] at hb
    by_cases h : t = target
    · simp [h] at hb
    · rwa [if_neg h] at hb
  · rw [hk]
    refine hp.shrink rfl rfl (fun h => .refl _) (fun t hb => ?_) fun t => update_ne_none ht
    rw [isBlocked_update (s := s) rfl] at hb
    by_cases h : t = target
    · rw [if_pos h] at hb
      rw [h, isBlocked_eq_true_iff]
      exact ⟨task, ht, by simpa using hb⟩
    · rwa [if_neg h] at hb
  · rwa [hk]

theorem reapTask (hp : Placement s) (child : TaskId) : Placement (s.reapTask child) := by
  have htasks : ∀ t, (s.reapTask child).tasks t ≠ none → (s.reapTask child).tasks t = s.tasks t := by
    intro t ht
    by_cases h : t = child
    · simp [Scheduler.reapTask, h] at ht
    · simp [Scheduler.reapTask, h]
  refine hp.shrink rfl rfl (fun h => .refl _) (fun t hb => ?_) fun t ht => htasks t ht ▸ ht
  obtain ⟨task, ht, hstate⟩ := isBlocked_eq_true_iff.mp hb
  rw [htasks t (by rw [ht]; exact some_ne_none _)] at ht
  exact isBlocked_eq_true_iff.mpr ⟨task, ht, hstate⟩

end Placement

/-! ### Along a run -/

/-- What a step may do to the scheduler. -/
inductive SchedStep (s : Scheduler n) : Scheduler n → Prop
  | same : SchedStep s s
  | switch {h : Fin n} {now : Nat} {d : CurrentDisposition} {s' : Scheduler n}
      (hs : s.prepareSwitch h now d = some s') : SchedStep s s'
  | wake (h : Fin n) (now : Nat) (id : TaskId) : SchedStep s (s.wake h now id)
  | spawn (hart : Fin n) (now : Nat) : SchedStep s (s.spawn hart now)
  | kill (target : TaskId) (isSelf remote : Bool) : SchedStep s (s.kill target isSelf remote).2
  | reap (child : TaskId) : SchedStep s (s.reapTask child)

theorem SchedStep.nextTaskId_le (hs : SchedStep s s') : s.nextTaskId ≤ s'.nextTaskId := by
  cases hs with
  | same | reap child => exact le_rfl
  | switch hsw =>
    rcases Placement.prepareSwitch_cases hsw with ⟨-, rfl⟩ | ⟨next, outgoing, hsw⟩
    · exact le_rfl
    · exact hsw.nextTaskId.ge
  | wake h now id => exact (Placement.nextTaskId_wake s h now id).ge
  | spawn hart now => exact Nat.le_succ _
  | kill target isSelf remote => exact (Placement.nextTaskId_kill s target isSelf remote).ge

theorem execSched_sched {s : SchedSec n} (hs : k.execSched h now rest s = some k') : SchedStep k.sched k'.sched := by
  cases s with
  | wake id =>
    cases hs
    exact .wake h now id
  | yieldNow | exitNow =>
    obtain ⟨s', hsw, rfl⟩ := map_eq_some_iff.mp hs
    exact .switch hsw
  | reapTask child =>
    cases hs
    exact .reap child
  | spawn hart handed =>
    cases hs
    exact .spawn hart now
  | killRead handle target =>
    cases hs
    exact .same
  | kill handle target isSelf remote =>
    cases hs
    exact .kill target isSelf remote

theorem step_sched (hs : k.step l = some k') : SchedStep k.sched k'.sched := by
  rcases State.step_cases hs with ⟨h, now, s, rest, rfl, -, hexec⟩ | ⟨-, -, rfl⟩
  · cases s with
    | sched s => exact execSched_sched hexec
    | park r =>
      obtain ⟨s', hsw, rfl⟩ := map_eq_some_iff.mp hexec
      exact .switch hsw
    | _ =>
      rw [(State.executed hexec).sched rfl]
      exact .same
  · exact .same

theorem Placement.schedStep (hp : Placement s) (hs : SchedStep s s') : Placement s' := by
  cases hs with
  | same => exact hp
  | switch hsw => exact hp.switch hsw
  | wake h now id => exact hp.wake h now id
  | spawn hart now => exact hp.spawn hart now
  | kill target isSelf remote => exact hp.kill target isSelf remote
  | reap child => exact hp.reapTask child

/-! ### From boot -/

namespace Boot

variable (b : Boot n)

theorem mem_queue : t ∈ ids (b.state.sched.runqueues h) ↔ ∃ i table, b.procs[i]? = some (h, table) ∧ t = n + i := by
  simp only [state, ids, List.map_map, List.mem_map, List.mem_filter, decide_eq_true_eq,
    Prod.exists, List.mem_zipIdx_iff_getElem?, Function.comp]
  constructor
  · rintro ⟨h', table, i, ⟨hi, rfl⟩, rfl⟩
    exact ⟨i, table, hi, rfl⟩
  · rintro ⟨i, table, hi, rfl⟩
    exact ⟨h, table, i, ⟨hi, rfl⟩, rfl⟩

theorem queue_nodup (h : Fin n) : (ids (b.state.sched.runqueues h)).Nodup := by
  have hidx : (b.procs.zipIdx.map (·.2)).Nodup := by
    rw [List.zipIdx_map_snd]
    exact List.nodup_range'
  have hsub : ((b.procs.zipIdx.filter (·.1.1 = h)).map (·.2)).Nodup :=
    hidx.sublist ((List.filter_sublist).map _)
  have hids : ids (b.state.sched.runqueues h) =
      ((b.procs.zipIdx.filter (·.1.1 = h)).map (·.2)).map (n + ·) := by
    simp [state, ids, Function.comp_def]
  rw [hids]
  exact hsub.map fun i j hij => Nat.add_left_cancel hij

theorem tasks_of_queued (ht : ∃ i q, b.procs[i]? = some q ∧ t = n + i) :
    b.state.sched.tasks t = some { state := .ready } ∧ t < b.state.sched.nextTaskId := by
  obtain ⟨i, q, hi, rfl⟩ := ht
  have hlt : i < b.procs.length := (List.getElem?_eq_some_iff.mp hi).1
  exact ⟨by simp [state, entry, hi], by simpa [state] using hlt⟩

theorem placement : Placement b.state.sched := by
  refine ⟨Within.of_unique (fun l t => ?_) (fun l m t hl hm => ?_) fun l t hl => ?_, fun t ht => ?_⟩
  · cases l with
    | current h => exact nodup_iff_count_le_one.mp (nodup_singleton _) t
    | queue h => exact nodup_iff_count_le_one.mp (coe_nodup.mpr (b.queue_nodup h)) t
  · -- harts' own tasks lie below `n`, processes at or above it
    have hcur : ∀ h : Fin n, t = h.val → ∀ i, t ≠ n + i := by
      rintro h rfl i he
      exact absurd h.isLt (not_lt.mpr (he ▸ Nat.le_add_right n i))
    cases l with
    | current h =>
      have ht : t = h.val := mem_singleton.mp hl
      cases m with
      | current h' => exact congrArg Spot.current (Fin.ext (ht ▸ mem_singleton.mp hm))
      | queue h' =>
        obtain ⟨i, _, -, hi⟩ := b.mem_queue.mp (mem_coe.mp hm)
        exact absurd hi (hcur h ht i)
    | queue h =>
      obtain ⟨i, table, hi, ht⟩ := b.mem_queue.mp (mem_coe.mp hl)
      cases m with
      | current h' => exact absurd ht (hcur h' (mem_singleton.mp hm) i)
      | queue h' =>
        obtain ⟨j, table', hj, ht'⟩ := b.mem_queue.mp (mem_coe.mp hm)
        have hij : i = j := Nat.add_left_cancel (ht ▸ ht' : n + i = n + j)
        subst hij
        rw [hi] at hj
        cases hj
        rfl
  · refine (room_of_free ?_ ?_).ge
    · cases l with
      | current h =>
        rw [mem_singleton.mp hl]
        exact lt_of_lt_of_le h.isLt (Nat.le_add_right _ _)
      | queue h =>
        obtain ⟨i, table, hi, ht⟩ := b.mem_queue.mp (mem_coe.mp hl)
        exact (b.tasks_of_queued ⟨i, _, hi, ht⟩).2
    · cases l with
      | current h =>
        rw [mem_singleton.mp hl]
        simp [isBlocked, state]
      | queue h =>
        obtain ⟨i, table, hi, ht⟩ := b.mem_queue.mp (mem_coe.mp hl)
        simp [isBlocked, (b.tasks_of_queued ⟨i, _, hi, ht⟩).1]
  · by_cases hlt : t < n
    · exact lt_of_lt_of_le hlt (Nat.le_add_right _ _)
    simp only [state, hlt, if_false, entry, ne_eq, map_eq_none_iff] at ht
    obtain ⟨q, hq⟩ := ne_none_iff_exists'.mp ht
    have hi : t = n + (t - n) := (Nat.add_sub_of_le (not_lt.mp hlt)).symm
    exact (b.tasks_of_queued ⟨t - n, q, hq, hi⟩).2

end Boot

theorem placement_of_reaches {b : Boot n} {C : State n → Label n → Prop}
    (hrun : Runs.Reaches State.step C b.state k) : Placement k.sched :=
  hrun.invariant (I := fun k => Placement k.sched) b.placement fun _ _ _ hp _ hs => hp.schedStep (step_sched hs)

end SnitchOs.Kernel
