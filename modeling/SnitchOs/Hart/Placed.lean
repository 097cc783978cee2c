import SnitchOs.Hart.Steps

/-!
# No task is lost to the scheduler

Whatever the harts do, a task is in one place at most (`Placement`). That a queued or running task is
never an exited or reaped one needs two things of the steps: a reaped task has exited, and a kill that
marks its target exited does not hit a running task. The source checks neither under the lock.
-/

namespace SnitchOs.Hart

open Kernel Sched Proc Function List Runqueue Label Scheduler Machine

variable {n : Nat}

/-! ### Live tasks -/

def Live (s : Scheduler n) (t : TaskId) : Prop := ∃ task, s.tasks t = some task ∧ task.state ≠ .exited

/-- An id that was handed out to a task that has exited, reaped or not. -/
def Ended (s : Scheduler n) (t : TaskId) : Prop :=
  t < s.nextTaskId ∧ ∀ task, s.tasks t = some task → task.state = .exited

variable {s : Scheduler n} {t u : TaskId} {task : Task} {now : Nat}

theorem Live.not_ended (hl : Live s t) : ¬ Ended s t := by
  obtain ⟨task, ht, hne⟩ := hl
  exact fun he => hne (he.2 task ht)

structure AllLive (s : Scheduler n) : Prop where
  placement : Placement s
  current : ∀ h, Live s (s.current h)
  queued : ∀ h, ∀ t ∈ ids (s.runqueues h), Live s t

namespace AllLive

variable {s s' : Scheduler n}

theorem live_update (hs : s'.tasks = update s.tasks u (some task)) (hstate : task.state ≠ .exited)
    (hl : Live s t) : Live s' t := by
  by_cases ht : t = u
  · subst ht
    exact ⟨task, by rw [hs, update_self], hstate⟩
  · obtain ⟨old, hold, hne⟩ := hl
    exact ⟨old, by rw [hs, update_of_ne ht, hold], hne⟩

theorem ended_update (hs : s'.tasks = update s.tasks u (some task))
    (hn : s'.nextTaskId = s.nextTaskId) (hu : ¬ Ended s u) (he : Ended s t) : Ended s' t := by
  have ht : t ≠ u := by
    rintro rfl
    exact hu he
  exact ⟨hn ▸ he.1, fun task' htask => he.2 task' (by rwa [hs, update_of_ne ht] at htask)⟩

variable (hl : AllLive s)
include hl

theorem wake (h : Fin n) (now : Nat) (id : TaskId) : AllLive (s.wake h now id) ∧ ∀ t, Ended s t → Ended (s.wake h now id) t := by
  rcases Placement.wake_cases s h now id with ⟨task, hw⟩ | ⟨-, he⟩
  · have hlive : Live s id := ⟨task, hw.known, by rw [hw.blocked]; exact TaskState.noConfusion⟩
    have hkeep : ∀ t, Live s t → Live (s.wake h now id) t := fun t =>
      live_update hw.tasks TaskState.noConfusion
    refine ⟨⟨hl.placement.wake h now id, fun h' => ?_, fun h' t ht => ?_⟩, fun t =>
      ended_update hw.tasks hw.nextTaskId hlive.not_ended⟩
    · rw [hw.current]
      exact hkeep _ (hl.current h')
    rw [hw.runqueues] at ht
    by_cases hh : h' = h
    · subst hh
      rw [update_self, ids_append, mem_append] at ht
      rcases ht with ht | ht
      · exact hkeep t (hl.queued h' t ht)
      rw [ids_singleton, mem_singleton] at ht
      exact ht ▸ hkeep _ hlive
    · rw [update_of_ne hh] at ht
      exact hkeep t (hl.queued h' t ht)
  · rw [he]
    exact ⟨hl, fun _ ht => ht⟩

theorem spawn (hart : Fin n) (now : Nat) : AllLive (s.spawn hart now) ∧ ∀ t, Ended s t → Ended (s.spawn hart now) t := by
  have htasks : (s.spawn hart now).tasks =
      update s.tasks s.nextTaskId (some { state := .ready }) := rfl
  have hkeep : ∀ t, Live s t → Live (s.spawn hart now) t := fun t =>
    live_update htasks TaskState.noConfusion
  refine ⟨⟨hl.placement.spawn hart now, fun h' => hkeep _ (hl.current h'), fun h' t ht => ?_⟩, ?_⟩
  · have hq : (s.spawn hart now).runqueues = update s.runqueues hart (s.runqueues hart ++ [⟨s.nextTaskId, .normal, now⟩]) := rfl
    rw [hq] at ht
    by_cases hh : h' = hart
    · subst hh
      rw [update_self, ids_append, mem_append] at ht
      rcases ht with ht | ht
      · exact hkeep t (hl.queued h' t ht)
      rw [ids_singleton, mem_singleton] at ht
      exact ⟨_, by rw [ht, htasks, update_self], TaskState.noConfusion⟩
    · rw [update_of_ne hh] at ht
      exact hkeep t (hl.queued h' t ht)
  · intro t he
    have hne : t ≠ s.nextTaskId := Nat.ne_of_lt he.1
    exact ⟨Nat.lt_succ_of_lt he.1, fun task ht => he.2 task (by
      rwa [htasks, update_of_ne hne] at ht)⟩

theorem kill (hok : isSelf = true ∨ remote = true ∨ ∀ h, s.current h ≠ target) :
    AllLive (s.kill target isSelf remote).2 ∧ ∀ t, Ended s t → Ended (s.kill target isSelf remote).2 t := by
  have hplace := hl.placement.kill target isSelf remote
  rcases Placement.kill_cases s target isSelf remote with
    ⟨task, ht, hself, hremote, -, hk⟩ | ⟨task, ht, hk⟩ | ⟨o, -, hk⟩
  · have hcur : ∀ h, s.current h ≠ target := by
      simpa [hself, hremote] using hok
    rw [hk] at hplace ⊢
    have hkeep : ∀ t, t ≠ target → Live s t → Live { s with
        tasks := update s.tasks target (some { task with state := .exited })
        runqueues := fun h => remove (s.runqueues h) target } t := by
      rintro t hne ⟨old, hold, hst⟩
      exact ⟨old, by simpa [hne] using hold, hst⟩
    refine ⟨⟨hplace, fun h => hkeep _ (hcur h) (hl.current h), fun h t hq => ?_⟩, fun t he => ?_⟩
    · rw [ids_remove] at hq
      have hne : t ≠ target := by
        rintro rfl
        exact (hl.placement.queue_nodup h).not_mem_erase hq
      exact hkeep t hne (hl.queued h t (mem_of_mem_erase hq))
    · refine ⟨he.1, fun task' htask => ?_⟩
      by_cases hne : t = target
      · subst hne
        simp only [update_self, Option.some.injEq] at htask
        rw [← htask]
      · exact he.2 task' (by simpa [hne] using htask)
  · rw [hk] at hplace ⊢
    have hstate : ∀ t, Live s t → Live { s with
        tasks := update s.tasks target (some { task with killRequested := true }) } t := by
      rintro t ⟨old, hold, hst⟩
      by_cases hne : t = target
      · subst hne
        obtain rfl := Option.some.inj (hold.symm.trans ht)
        exact ⟨_, update_self .., hst⟩
      · exact ⟨old, by simpa [hne] using hold, hst⟩
    refine ⟨⟨hplace, fun h => hstate _ (hl.current h), fun h t hq => hstate t (hl.queued h t hq)⟩, ?_⟩
    intro t he
    refine ⟨he.1, fun task' htask => ?_⟩
    by_cases hne : t = target
    · subst hne
      simp only [update_self, Option.some.injEq] at htask
      rw [← htask]
      exact he.2 task ht
    · exact he.2 task' (by simpa [hne] using htask)
  · rw [hk]
    exact ⟨hl, fun _ ht => ht⟩

theorem reapTask (hchild : Ended s child) : AllLive (s.reapTask child) ∧ ∀ t, Ended s t → Ended (s.reapTask child) t := by
  have hkeep : ∀ t, Live s t → Live (s.reapTask child) t := by
    intro t hlive
    have hne : t ≠ child := by
      rintro rfl
      exact hlive.not_ended hchild
    obtain ⟨task, ht, hst⟩ := hlive
    exact ⟨task, by simpa [Scheduler.reapTask, hne] using ht, hst⟩
  refine ⟨⟨hl.placement.reapTask child, fun h => hkeep _ (hl.current h), fun h t hq => hkeep t (hl.queued h t hq)⟩, ?_⟩
  intro t he
  refine ⟨he.1, fun task ht => ?_⟩
  by_cases hne : t = child
  · simp [Scheduler.reapTask, hne] at ht
  · exact he.2 task (by simpa [Scheduler.reapTask, hne] using ht)

theorem switch (hs : s.prepareSwitch h now d = some s') : AllLive s' ∧ ∀ t, Ended s t → Ended s' t := by
  have hplace := hl.placement.switch hs
  rcases Placement.prepareSwitch_cases hs with ⟨-, rfl⟩ | ⟨next, outgoing, hsw⟩
  · exact ⟨hl, fun _ ht => ht⟩
  have hother : ∀ t, t ≠ s.current h → Live s t → Live s' t := by
    rintro t hne ⟨task, ht, hst⟩
    exact ⟨task, by rw [hsw.tasks, update_of_ne hne, ht], hst⟩
  have hnext : ∀ h', ∀ t ∈ ids (s.runqueues h'), t ≠ s.current h := by
    rintro h' t ht rfl
    exact hl.placement.current_not_queued h h' ht
  refine ⟨⟨hplace, fun h' => ?_, fun h' t ht => ?_⟩, fun t => ended_update hsw.tasks hsw.nextTaskId (hl.current h).not_ended⟩
  · rw [hsw.current]
    by_cases hh : h' = h
    · subst hh
      rw [update_self]
      exact hother next (hnext h' next hsw.queued) (hl.queued h' next hsw.queued)
    · rw [update_of_ne hh]
      exact hother _ (fun he => hh (hl.placement.current_injective he)) (hl.current h')
  · rcases hsw.mem_runqueues ht with ht | ⟨rfl, rfl, rfl⟩
    · exact hother t (hnext h' t ht) (hl.queued h' t ht)
    -- the outgoing task, requeued as it was
    obtain ⟨task, htask, hst⟩ := hl.current h'
    obtain rfl := Option.some.inj (htask.symm.trans hsw.out)
    refine ⟨_, ?_, hst⟩
    rw [hsw.tasks, update_self]
    rfl

end AllLive

/-! ### Along a run -/

/-- The step reaps no task that has not exited, and executes no kill that marks a running task exited. -/
def orderly (m : Machine n) (l : Label n) : Bool :=
  match m.entry l with
  | some (.reapTask child) => (m.sched.tasks child).all (·.state == .exited)
  | some (.kill target isSelf remote) => isSelf || remote || decide (∀ h, m.sched.current h ≠ target)
  | _ => true

/-- What holds between orderly steps; a sweep under way only takes exited tasks. -/
structure Placed (m : Machine n) : Prop where
  live : AllLive m.sched
  victims : ∀ t v, .sweep v ∈ m.todo t → Ended m.sched v

theorem sweep_goOn {m : Machine n} {P : TaskId → Prop}
    (hold : ∀ t v, .sweep v ∈ m.todo t → P v) (hl : ∀ v, .sweep v ∈ l → P v) (t v : TaskId)
    (hv : .sweep v ∈ (m.goOn me l).todo t) : P v := by
  by_cases ht : t = me
  · subst ht
    rw [goOn_todo_self] at hv
    exact hl v hv
  · rw [goOn_todo_of_ne _ _ _ ht] at hv
    exact hold t v hv

namespace Placed

variable {m m' : Machine n}

theorem victims_rest (hp : Placed m) (htodo : m.todo (m.sched.current h) = op :: rest)
    (hnew : ∀ v, .sweep v ∈ new → Ended m.sched v) (v : TaskId) (hv : .sweep v ∈ new ++ rest) : Ended m.sched v := by
  rcases mem_append.mp hv with hv | hv
  · exact hnew v hv
  · exact hp.victims _ v (htodo ▸ mem_cons_of_mem _ hv)

theorem goOn (hp : Placed m) (htodo : m.todo (m.sched.current h) = op :: rest) (new : List (Op n))
    (hnew : ∀ v, .sweep v ∉ new) {m₁ : Machine n} (hm : m₁.todo = m.todo) (hl : AllLive m₁.sched)
    (he : ∀ t, Ended m.sched t → Ended m₁.sched t) : Placed (m₁.goOn (m.sched.current h) (new ++ rest)) where
  live := hl
  victims := fun t v hv => he v <| sweep_goOn (hm ▸ hp.victims)
    (hp.victims_rest htodo fun v hv => absurd hv (hnew v)) t v hv

theorem ownerlessExited_ended (hv : v ∈ m.ownerlessExited) : Ended m.sched v := by
  simp only [ownerlessExited, mem_filter, mem_range, Bool.and_eq_true, Option.any_eq_true, beq_iff_eq] at hv
  obtain ⟨hlt, -, task, ht, hst⟩ := hv
  refine ⟨hlt, fun task' ht' => ?_⟩
  obtain rfl := Option.some.inj (ht.symm.trans ht')
  exact hst

theorem does (hp : Placed m) {frame : Nat} (hok : orderly m (.run h now frame) = true)
    (hsw : m.switching h = none) (htodo : m.todo (m.sched.current h) = op :: rest) (hd : Does m h op rest m') : Placed m' := by
  rw [orderly, entry_run hsw htodo] at hok
  have same : ∀ (new : List (Op n)) {m₁ : Machine n}, (∀ v, .sweep v ∉ new) → m₁.todo = m.todo →
      m₁.sched = m.sched → Placed (m₁.goOn (m.sched.current h) (new ++ rest)) :=
    fun new _ hnew hm hs => hp.goOn htodo new hnew hm (hs ▸ hp.live) fun t ht => hs ▸ ht
  cases hd with
  | quiet new ownerless reap hop hnew hfinal hsweep =>
    exact ⟨hp.live, sweep_goOn hp.victims (hp.victims_rest htodo fun v hv => ownerlessExited_ended (hsweep v hv))⟩
  | wake now =>
    have hw := hp.live.wake h now
    exact hp.goOn htodo [] (by simp) rfl (hw _).1 (hw _).2
  | @kill target isSelf remote _ new hnew =>
    have hflags : isSelf = true ∨ remote = true ∨ ∀ h, m.sched.current h ≠ target := by
      simpa [or_assoc] using hok
    have hk := hp.live.kill hflags
    refine hp.goOn htodo new (fun v hv => ?_) rfl hk.1 hk.2
    obtain ⟨c, s, he⟩ := hnew _ hv
    cases he
  | @remove _ child _ hop hknown =>
    have hchild : Ended m.sched child := by
      rcases hop with rfl | rfl
      · obtain ⟨task, ht⟩ := Option.ne_none_iff_exists'.mp hknown
        refine ⟨hp.live.placement.bound child hknown, fun task' ht' => ?_⟩
        simpa [ht'] using hok
      · exact hp.victims _ child (htodo ▸ mem_cons_self)
    have hr := hp.live.reapTask hchild
    exact hp.goOn htodo [] (by simp) rfl hr.1 hr.2
  | @spawn hart _ _ new now _ hslot hnew =>
    have hs := hp.live.spawn hart now
    refine ⟨hs.1, fun t v hv => hs.2 v ?_⟩
    refine sweep_goOn (sweep_goOn hp.victims fun v hv => ?_) (hp.victims_rest htodo fun v hv => ?_) t v hv
    · split at hv <;> simp at hv
    obtain ⟨c, he⟩ := hnew _ hv
    cases he
  | keep hop => exact same [] (by simp) rfl rfl
  | @switch _ _ _ d _ hop hs hne =>
    have hsw := hp.live.switch hs
    cases d with
    | exit => exact ⟨hsw.1, fun t v hv => hsw.2 v (sweep_goOn hp.victims (by simp [resumeWith]) t v hv)⟩
    | requeue | block => exact hp.goOn htodo [.restoreFp] (by simp) rfl hsw.1 hsw.2
  | root hroot => exact same [.publish, .setAddressSpace _, .enterUser _] (by simp) rfl rfl
  | refuse => exact ⟨hp.live, sweep_goOn hp.victims (by simp [faultProgram])⟩
  | enable | die => exact ⟨hp.live, sweep_goOn hp.victims (by simp)⟩
  | _ => exact same [] (by simp) rfl rfl

theorem step (hp : Placed m) {l : Label n} (hok : orderly m l = true) (hs : m.step l = some m') : Placed m' := by
  cases step_stepped hs with
  | run hsw htodo hd => exact hp.does hok hsw htodo hd
  | stage hsw => exact ⟨by simpa using hp.live, by simpa using hp.victims⟩
  | interrupt h now id =>
    have hw := hp.live.wake h now id
    exact ⟨hw.1, fun t v hv => hw.2 v (hp.victims t v hv)⟩
  | kernel call =>
    exact ⟨hp.live, sweep_goOn hp.victims (by cases call <;> simp [KernelCall.program])⟩
  | @trap _ call =>
    refine ⟨hp.live, sweep_goOn hp.victims ?_⟩
    cases call <;> simp [UserCall.program, faultProgram]
  | fpTrap => exact ⟨hp.live, sweep_goOn hp.victims (by simp)⟩
  | fpWrite | fpRead => exact ⟨hp.live, hp.victims⟩

end Placed

theorem boot_sched (bootRoot : Root) (regs : Fin n → FpRegs) :
    (boot bootRoot regs).sched = (Boot.mk (n := n) [] (by simp) 0 0 1).state.sched := by
  simp [boot, Boot.state, Boot.entry]

theorem boot_placed (bootRoot : Root) (regs : Fin n → FpRegs) : Placed (boot bootRoot regs) where
  live := {
    placement := boot_sched bootRoot regs ▸ Boot.placement _
    current := fun h => ⟨{ state := .running }, by simp [boot], TaskState.noConfusion⟩
    queued := fun h t ht => by simp [boot] at ht }
  victims := fun t v hv => by simp [boot] at hv

/-- What the scheduler's code takes for granted. -/
structure SchedulerOk (s : Scheduler n) : Prop where
  queued_once : ∀ h, (ids (s.runqueues h)).Nodup
  one_queue : ∀ h h' t, t ∈ ids (s.runqueues h) → t ∈ ids (s.runqueues h') → h = h'
  current_not_queued : ∀ h h', s.current h ∉ ids (s.runqueues h')
  queued_ready : ∀ h, ∀ t ∈ ids (s.runqueues h),
    ∃ task, s.tasks t = some task ∧ task.state ≠ .blocked ∧ task.state ≠ .exited
  current_known : ∀ h, s.tasks (s.current h) ≠ none
  /-- Only the assertion that an exiting task leaves something to run can fail. -/
  expects : ∀ h now d, s.prepareSwitch h now d = none → d = .exit ∧ s.runqueues h = []

theorem AllLive.schedulerOk (hl : AllLive s) : SchedulerOk s where
  queued_once := hl.placement.queue_nodup
  one_queue := by
    intro h h' t ht ht'
    have := hl.placement.within.place_unique (s.room_le_one t) (l := .queue h) (m := .queue h')
      (by simpa [tasksAt] using ht) (by simpa [tasksAt] using ht')
    cases this
    rfl
  current_not_queued := hl.placement.current_not_queued
  queued_ready := by
    intro h t ht
    obtain ⟨task, htask, hne⟩ := hl.queued h t ht
    refine ⟨task, htask, fun hb => ?_, hne⟩
    have hroom : s.room t = 0 :=
      room_of_blocked (isBlocked_eq_true_iff.mpr ⟨task, htask, hb⟩)
    exact hl.placement.within.not_mem hroom (.queue h) (by simpa [tasksAt] using ht)
  current_known := by
    intro h hnone
    obtain ⟨task, htask, -⟩ := hl.current h
    exact absurd (htask.symm.trans hnone) (Option.some_ne_none _)
  expects := by
    intro h now d hnone
    obtain ⟨me, hme, -⟩ := hl.current h
    rcases pickNext_cases (s.runqueues h) now agingStepTicks with ⟨hnil, hp⟩ | ⟨c, hc, hp⟩
    · refine ⟨?_, hnil⟩
      simpa [prepareSwitch, hp] using hnone
    · obtain ⟨next, hnext, -⟩ := hl.queued h c.id (mem_map_of_mem hc)
      simp [prepareSwitch, hp, hme, hnext] at hnone

/-- In every run of the harts whose steps are orderly, in every state reached. -/
theorem scheduler_ok_of_orderly {bootRoot : Root} {regs : Fin n → FpRegs} {m : Machine n}
    (hrun : Runs.Reaches step (fun m l => orderly m l) (boot bootRoot regs) m) :
    SchedulerOk m.sched :=
  (hrun.invariant (I := Placed) (boot_placed bootRoot regs) fun _ _ _ hp hok hs => hp.step hok hs).live.schedulerOk

/-- Two harts; their boot root is `100`. -/
def twoHarts : Machine 2 := boot 100 fun _ _ => 0

def runs (h : Fin 2) (k : Nat) : List (Label 2) := .replicate k (.run h 0 0)

/-- Hart `h` leaves its kernel task for the task queued there, which starts a process with root `root`. -/
def startProcess (h : Fin 2) (root : Root) : List (Label 2) :=
  [kernel h .yield, run h 0 0] ++ List.replicate 4 (stage h) ++ run h 0 root :: runs h 3

/-- Process `2` on hart `0` spawns process `3` on hart `1`, which runs. -/
def parentAndChild : List (Label 2) :=
  [kernel 0 (.spawn 0 (.user .soft)), run 0 0 10] ++ startProcess 0 200 ++
    [trap 0 (.spawn 1 .soft) false, run 0 0 11] ++ runs 0 3 ++ startProcess 1 201

def exitThenWait : List (Label 2) :=
  parentAndChild ++ trap 1 (.exit 0) false :: runs 1 3 ++ List.replicate 3 (stage 1) ++
    trap 0 (.wait 3) false :: runs 0 2

theorem scheduler_ok_of_orderly_exitThenWait :
    ∃ m, Runs.Reaches step (fun m l => orderly m l) twoHarts m ∧
      m.sched.tasks 3 = none ∧ m.sched.current 1 = 1 ∧ SchedulerOk m.sched := by
  obtain ⟨m, hrun, hgone, hcur⟩ : ∃ m, Runs.Reaches step (fun m l => orderly m l) twoHarts m ∧
      m.sched.tasks 3 = none ∧ m.sched.current 1 = 1 := Runs.exists_reaches exitThenWait (by decide)
  exact ⟨m, hrun, hgone, hcur, scheduler_ok_of_orderly hrun⟩

/-- The child has noted its exit and not switched away yet when its parent collects it. -/
def waitBeforeSwitch : List (Label 2) :=
  parentAndChild ++ trap 1 (.exit 0) false :: runs 1 2 ++ trap 0 (.wait 3) false :: runs 0 2

/-- Hart `1` is left to exit a task that is not in the table. -/
theorem current_task_reaped :
    ∃ m, Runs.Reaches step (fun _ _ => True) twoHarts m ∧
      m.sched.tasks (m.sched.current 1) = none ∧ m.todo (m.sched.current 1) = [.exitNow] ∧
      m.sched.runqueues 1 ≠ [] ∧ m.sched.prepareSwitch 1 0 .exit = none :=
  Runs.exists_reaches waitBeforeSwitch (by decide)

end SnitchOs.Hart
