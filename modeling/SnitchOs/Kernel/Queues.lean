import SnitchOs.Kernel.Placement
import SnitchOs.Sched.Aging

/-!
# The kernel's ready queues over time

Every section of the kernel leaves a hart's queue alone, takes a killed task out of it, or is an event of a ready queue:
a switch, or the push of a task that was not in it. So aging bounds overtaking in the kernel, whatever the harts do.
-/

namespace SnitchOs.Kernel

open Sched Function Option Scheduler

variable {n : Nat} {s s' : Scheduler n} {k k' : State n} {checks : Bool} {h : Fin n} {c : Candidate}

/-- The section is an event of the queue of hart `h`, at `now`, and dispatches what the event picks. -/
def QueueEvents (checks : Bool) (s s' : Scheduler n) (h : Fin n) (now : Nat) : Prop :=
  ∀ q : ReadyQueue, q.entries = s.runqueues h → q.now ≤ now → now < 2 ^ 64 →
    ∃ e q' pick, e.now = now ∧ q.step checks agingStepTicks e = some (q', pick) ∧ q'.entries = s'.runqueues h ∧
      s'.current h = pick.getD (s.current h)

def QueueStep (checks : Bool) (s s' : Scheduler n) (h : Fin n) (now : Nat) : Prop :=
  (s'.current h = s.current h ∧
    (s'.runqueues h = s.runqueues h ∨ ∃ target, s'.runqueues h = Runqueue.remove (s.runqueues h) target)) ∨
  QueueEvents checks s s' h now

theorem queueStep_push (hc : c.enqueuedTick = now) (hnew : c.id ∉ Runqueue.ids (s.runqueues h'))
    (hq : s'.runqueues = update s.runqueues h' (s.runqueues h' ++ [c])) (hcur : s'.current = s.current) :
    QueueStep checks s s' h now := by
  by_cases hh : h = h'
  · subst hh hc
    refine .inr fun q hentries hclock hnow => ?_
    have hallow : q.Allows (.push c.enqueuedTick c.id c.base) := by
      refine ⟨hclock, hnow, fun id hid => ?_⟩
      obtain rfl : c.id = id := some.inj hid
      rw [hentries]
      exact hnew
    exact ⟨.push c.enqueuedTick c.id c.base, _, none, rfl, dif_pos hallow, by rw [hq, update_self, ← hentries], by rw [hcur]; rfl⟩
  · exact .inl ⟨by rw [hcur], .inl (by rw [hq, update_of_ne hh])⟩

theorem queueEvents_switch (hp : Placement s) (hs : s.prepareSwitch h now d = some s') : QueueEvents checks s s' h now := by
  intro q hentries hclock hnow
  have hpick : pickNextWord checks q.entries now agingStepTicks = some (pickNext q.entries now agingStepTicks) :=
    pickNextWord_eq checks (by decide) fun c _ =>
      ReadyQueue.fits (e := .tick now) (.inl (by decide)) hnow c
  -- the outgoing task is current, so it is in no queue
  have hallow : ∀ p : Priority, q.Allows (.switch now (if d.requeues then some (s.current h, p) else none)) := by
    intro p
    refine ⟨hclock, hnow, fun id hid => ?_⟩
    rw [hentries]
    split at hid
    · obtain rfl : s.current h = id := some.inj hid
      exact hp.current_not_queued h h
    · cases hid
  unfold prepareSwitch at hs
  rw [hentries] at hpick
  cases hnext : pickNext (s.runqueues h) now agingStepTicks with
  | none =>
    rw [hnext] at hs hpick
    simp only at hs
    split at hs
    · cases hs
    cases hs
    refine ⟨.switch now _, ⟨now, q.entries, q.distinct⟩, none, rfl, (dif_pos (hallow .normal)).trans ?_, hentries, rfl⟩
    simp [hentries, hpick, map_some]
  | some next =>
    rw [hnext] at hs hpick
    simp only at hs
    split at hs
    · next outgoing _ _ _ =>
      cases hs
      have hout := hallow outgoing.priority
      refine ⟨.switch now _, ⟨now, _, ReadyQueue.distinct_switched q.distinct now next hout.2.2⟩, some next, rfl,
        (dif_pos hout).trans ?_, ?_, update_self ..⟩
      · simp [hentries, hpick, map_some]
      simp only [update_self, ReadyQueue.switched, hentries]
      split <;> rfl
    · cases hs

theorem queueStep_switch (hp : Placement s) (hs : s.prepareSwitch h' now d = some s') : QueueStep checks s s' h now := by
  by_cases hh : h = h'
  · subst hh
    exact .inr (queueEvents_switch hp hs)
  rcases Placement.prepareSwitch_cases hs with ⟨-, rfl⟩ | ⟨next, outgoing, hsw⟩
  · exact .inl ⟨rfl, .inl rfl⟩
  · exact .inl ⟨by rw [hsw.current, update_of_ne hh], .inl (by rw [hsw.runqueues, update_of_ne hh])⟩

theorem queueStep_wake (hp : Placement s) (id : TaskId) : QueueStep checks s (s.wake h' now id) h now := by
  rcases Placement.wake_cases s h' now id with ⟨task, hw⟩ | ⟨-, hsame⟩
  · refine queueStep_push (c := ⟨id, task.priority, now⟩) rfl (fun hmem => ?_) hw.runqueues hw.current
    have hroom : s.room id = 0 := room_of_blocked (by simp [isBlocked, hw.known, hw.blocked])
    exact hp.within.not_mem hroom (.queue h') (by simpa [tasksAt] using hmem)
  · rw [hsame]
    exact .inl ⟨rfl, .inl rfl⟩

theorem queue_schedStep (checks : Bool) (hp : Placement k.sched) (hs : k.step (.run h' now) = some k') (h : Fin n) :
    QueueStep checks k.sched k'.sched h now := by
  obtain ⟨_, _, s, rest, ⟨⟩, -, hexec⟩ | ⟨hno, -⟩ := State.step_cases hs
  · cases s with
    | sched s =>
      cases s with
      | wake id =>
        cases hexec
        exact queueStep_wake hp id
      | yieldNow | exitNow =>
        obtain ⟨s', hsw, rfl⟩ := map_eq_some_iff.mp hexec
        exact queueStep_switch hp hsw
      | reapTask child | killRead handle target =>
        cases hexec
        exact .inl ⟨rfl, .inl rfl⟩
      | spawn hart handed =>
        cases hexec
        refine queueStep_push (c := ⟨k.sched.nextTaskId, .normal, now⟩) rfl (fun hmem => ?_) rfl rfl
        exact hp.within.not_mem (room_of_not_lt (lt_irrefl _)) (.queue hart) (by simpa [tasksAt] using hmem)
      | kill handle target isSelf remote =>
        cases hexec
        rcases Placement.kill_cases k.sched target isSelf remote with ⟨task, -, -, -, -, hk⟩ | ⟨task, -, hk⟩ | ⟨o, -, hk⟩
        · exact .inl ⟨congrArg (·.2.current h) hk, .inr ⟨target, congrArg (·.2.runqueues h) hk⟩⟩
        all_goals exact .inl ⟨congrArg (·.2.current h) hk, .inl (congrArg (·.2.runqueues h) hk)⟩
    | park r =>
      obtain ⟨s', hsw, rfl⟩ := map_eq_some_iff.mp hexec
      exact queueStep_switch hp hsw
    | _ =>
      rw [(State.executed hexec).sched rfl]
      exact .inl ⟨rfl, .inl rfl⟩
  · exact absurd rfl (hno h' now)

/-- How often another task is dispatched on `h` while `c` stays in its queue. -/
def overtakings (c : Candidate) (h : Fin n) (k : State n) : List (Label n) → Nat
  | [] => 0
  | l :: ls =>
    match k.step l with
    | none => 0
    | some k' =>
      if c ∈ k'.sched.runqueues h then
        (if k'.sched.current h = k.sched.current h then 0 else 1) + overtakings c h k' ls
      else 0

/-- One step uses up one of those ahead of `c` if it dispatches another task. -/
theorem ahead_step (hp : Placement k.sched) (hs : k.step l = some k') (hc : c ∈ k.sched.runqueues h)
    (hl : ∀ h' now, l = .run h' now → c.enqueuedTick + 2 * agingStepTicks ≤ now ∧ now < 2 ^ 64)
    (hc' : c ∈ k'.sched.runqueues h) :
    (k'.sched.runqueues h).countP (ReadyQueue.ahead c) + (if k'.sched.current h = k.sched.current h then 0 else 1) ≤
      (k.sched.runqueues h).countP (ReadyQueue.ahead c) := by
  obtain ⟨h', now, _, _, rfl, -⟩ | ⟨-, -, rfl⟩ := State.step_cases hs
  · obtain ⟨hwait, hnow⟩ := hl h' now rfl
    rcases queue_schedStep true hp hs h with ⟨hcur, hq | ⟨target, hq⟩⟩ | hevent
    · rw [hcur, hq, if_pos rfl, Nat.add_zero]
    · rw [hcur, hq, if_pos rfl]
      exact List.eraseP_sublist.countP_le
    obtain ⟨e, q', pick, -, hstep, hentries, hcur⟩ := hevent ⟨_, k.sched.runqueues h, hp.queue_nodup h⟩ rfl hwait hnow
    obtain ⟨-, hpick | ⟨-, -, hcases⟩⟩ := ReadyQueue.step_cases (by decide) hc (le_refl _) (.inl (by decide)) hstep
    · rw [hpick, getD_some] at hcur
      exact absurd (List.mem_map_of_mem hc') (hcur ▸ (hp.schedStep (step_sched hs)).current_not_queued h h)
    simp only [hentries] at hcases
    rcases hcases with ⟨rfl, hcount⟩ | ⟨d, -, -, -, hcount⟩
    · rw [hcur, getD_none, if_pos rfl]
      exact hcount.le
    · split <;> omega
  · simp [State.goOn]

end SnitchOs.Kernel
