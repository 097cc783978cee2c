import SnitchOs.Hart.Placed

/-!
# Saved contexts and stacks

A switch drops the scheduler's lock before the outgoing registers are stored and its stack is left. The outgoing task
may by then be blocked, queued or exited, so that another hart can wake, run or reap it. `Apart` says what keeps such
a task from running twice: it waits on no queue but that of the hart that is leaving it. Every step keeps this, except
a wake by another hart.
-/

namespace SnitchOs.Hart

open Kernel Sched Proc Function List Option Runqueue Placement Scheduler Machine

variable {n : Nat} {w : Switch} {h' h : Fin n} {d : CurrentDisposition} {rest : List (Op n)}
  {s : Scheduler n} {slot : Slot} {l : Label n}

theorem Switch.following_eq (hw : w.following = some w') :
    w'.out = w.out ∧ w'.next = w.next ∧ w'.twoWay = w.twoWay ∧ w'.root = w.root := by
  unfold following at hw
  split at hw
  · cases hw; exact ⟨rfl, rfl, rfl, rfl⟩
  · cases hw; exact ⟨rfl, rfl, rfl, rfl⟩
  · cases hw; exact ⟨rfl, rfl, rfl, rfl⟩
  · cases hw

/-! ### Tasks being switched out -/

/-- A task a hart is leaving runs nowhere, and is queued on that hart at most. -/
structure Apart (s : Scheduler n) (switching : Fin n → Option Switch) : Prop where
  placement : Placement s
  next : ∀ h w, switching h = some w → w.next = s.current h
  out_lt : ∀ h w, switching h = some w → w.out < s.nextTaskId
  out_current : ∀ h w, switching h = some w → ∀ h', w.out ≠ s.current h'
  out_queued : ∀ h w, switching h = some w → ∀ h', w.out ∈ ids (s.runqueues h') → h' = h
  out_injective : ∀ h h' w w', switching h = some w → switching h' = some w' → w.out = w'.out → h = h'

variable {h : Fin n} {m : Machine n}

namespace Apart

variable {s s' : Scheduler n} {switching : Fin n → Option Switch}

variable (ha : Apart s switching)
include ha

theorem shrink (hp : Placement s') (hn : s'.nextTaskId = s.nextTaskId) (hc : s'.current = s.current)
    (hq : ∀ h t, t ∈ ids (s'.runqueues h) → t ∈ ids (s.runqueues h)) : Apart s' switching where
  placement := hp
  next := fun h w hw => hc ▸ ha.next h w hw
  out_lt := fun h w hw => hn ▸ ha.out_lt h w hw
  out_current := fun h w hw h' => hc ▸ ha.out_current h w hw h'
  out_queued := fun h w hw h' hm => ha.out_queued h w hw h' (hq h' _ hm)
  out_injective := ha.out_injective

theorem kill (target : TaskId) (isSelf remote : Bool) : Apart (s.kill target isSelf remote).2 switching := by
  have hp := ha.placement.kill target isSelf remote
  rcases kill_cases s target isSelf remote with ⟨task, -, -, -, -, hk⟩ | ⟨task, -, hk⟩ | ⟨o, -, hk⟩
  · rw [hk] at hp ⊢
    refine ha.shrink hp rfl rfl fun h t ht => ?_
    rw [ids_remove] at ht
    exact mem_of_mem_erase ht
  · rw [hk] at hp ⊢
    exact ha.shrink hp rfl rfl fun _ _ => id
  · rw [hk]
    exact ha

theorem reapTask (child : TaskId) : Apart (s.reapTask child) switching :=
  ha.shrink (ha.placement.reapTask child) rfl rfl fun _ _ => id

/-- One task more at the back of hart `h`'s queue; a hart that is leaving it is `h` itself. -/
theorem enqueue (hp : Placement s') (hn : s.nextTaskId ≤ s'.nextTaskId)
    (hc : s'.current = s.current) (h : Fin n) (id : TaskId) (hq : ∀ h' t, t ∈ ids (s'.runqueues h') →
      t ∈ ids (s.runqueues h') ∨ h' = h ∧ t = id)
    (hid : ∀ h' w, switching h' = some w → w.out = id → h' = h) : Apart s' switching where
  placement := hp
  next := fun h w hw => hc ▸ ha.next h w hw
  out_lt := fun h w hw => Nat.lt_of_lt_of_le (ha.out_lt h w hw) hn
  out_current := fun h w hw h' => hc ▸ ha.out_current h w hw h'
  out_queued := by
    intro h₁ w hw h' hm
    rcases hq h' _ hm with hm | ⟨rfl, he⟩
    · exact ha.out_queued h₁ w hw h' hm
    · exact (hid h₁ w hw he).symm
  out_injective := ha.out_injective

omit ha

theorem mem_enqueued {queues : Fin n → List Candidate} {c : Candidate}
    (ht : t ∈ ids (update queues h (queues h ++ [c]) h')) : t ∈ ids (queues h') ∨ h' = h ∧ t = c.id := by
  by_cases hh : h' = h
  · subst hh
    rw [update_self, ids_append, ids_singleton, mem_append, mem_singleton] at ht
    exact ht.imp_right fun he => ⟨rfl, he⟩
  · rw [update_of_ne hh] at ht
    exact .inl ht

theorem wake (ha : Apart s switching) (h : Fin n) (now : Nat) (id : TaskId)
    (hid : s.isBlocked id = true → ∀ h' w, switching h' = some w → w.out = id → h' = h) : Apart (s.wake h now id) switching := by
  have hp := ha.placement.wake h now id
  rcases wake_cases s h now id with ⟨task, hw⟩ | ⟨-, he⟩
  · refine ha.enqueue hp hw.nextTaskId.ge hw.current h id (fun h' t ht => ?_)
      (hid (isBlocked_eq_true_iff.mpr ⟨task, hw.known, hw.blocked⟩))
    rw [hw.runqueues] at ht
    exact mem_enqueued ht
  · rwa [he]

theorem spawn (ha : Apart s switching) (hart : Fin n) (now : Nat) : Apart (s.spawn hart now) switching := by
  refine ha.enqueue (ha.placement.spawn hart now) (Nat.le_succ _) rfl hart s.nextTaskId
    (fun h' t ht => mem_enqueued ht) fun h' w hw he => ?_
  exact absurd he (Nat.ne_of_lt (ha.out_lt h' w hw))

theorem switch (ha : Apart m.sched m.switching) (hs : SwitchesOut m m' h d rest) : Apart m'.sched m'.switching := by
  have hnot : m.sched.current h ≠ m'.sched.current h := fun he =>
    ha.placement.current_not_queued h h (he ▸ hs.current_queued)
  -- the other harts' switches are as they were
  have hold : ∀ {h₁ w}, m'.switching h₁ = some w → h₁ = h ∧ w.out = m.sched.current h ∧ w.next = m'.sched.current h ∨
      h₁ ≠ h ∧ m.switching h₁ = some w := by
    intro h₁ w hw
    by_cases hh : h₁ = h
    · rw [hh, hs.switching_self] at hw
      cases hw
      exact .inl ⟨hh, rfl, rfl⟩
    · exact .inr ⟨hh, hs.switching_of_ne hh ▸ hw⟩
  refine ⟨hs.placement ha.placement, fun h₁ w hw => ?_, fun h₁ w hw => ?_, fun h₁ w hw h' => ?_,
    fun h₁ w hw h' hm => ?_, fun h₁ h₂ w₁ w₂ hw₁ hw₂ he => ?_⟩
  · rcases hold hw with ⟨rfl, -, hnext⟩ | ⟨hh, hw⟩
    · exact hnext
    rw [hs.current_of_ne hh]
    exact ha.next h₁ w hw
  · obtain ⟨_, _, _, hs'⟩ := hs.sched
    rw [hs'.nextTaskId]
    rcases hold hw with ⟨rfl, hout, -⟩ | ⟨-, hw⟩
    · exact hout ▸ ha.placement.current_lt h₁
    · exact ha.out_lt h₁ w hw
  · by_cases hh' : h' = h
    · subst hh'
      rcases hold hw with ⟨rfl, hout, -⟩ | ⟨hh, hw⟩
      · exact hout ▸ hnot
      · exact fun he => hh (ha.out_queued h₁ w hw h' (he ▸ hs.current_queued)).symm
    · rw [hs.current_of_ne hh']
      rcases hold hw with ⟨rfl, hout, -⟩ | ⟨-, hw⟩
      · exact fun he => hh' (ha.placement.current_injective (hout.symm.trans he).symm)
      · exact ha.out_current h₁ w hw h'
  · rcases hold hw with ⟨rfl, hout, -⟩ | ⟨-, hw⟩
    · rcases hs.mem_runqueues hm with hm | ⟨rfl, -⟩
      · exact absurd (hout ▸ hm) (ha.placement.current_not_queued h₁ h')
      · rfl
    · rcases hs.mem_runqueues hm with hm | ⟨-, he, -⟩
      · exact ha.out_queued h₁ w hw h' hm
      · exact absurd he (ha.out_current h₁ w hw h)
  · rcases hold hw₁ with ⟨rfl, ho₁, -⟩ | ⟨-, hv₁⟩ <;> rcases hold hw₂ with ⟨rfl, ho₂, -⟩ | ⟨-, hv₂⟩
    · rfl
    · exact absurd (he.symm.trans ho₁) (ha.out_current h₂ w₂ hv₂ h₁)
    · exact absurd (he.trans ho₂) (ha.out_current h₁ w₁ hv₁ h₂)
    · exact ha.out_injective h₁ h₂ w₁ w₂ hv₁ hv₂ he

theorem stage (ha : Apart s switching) (hw : switching h = some w) : Apart s (update switching h w.following) := by
  -- what is switching now was switching before, from and to the same tasks
  have hold : ∀ {h₁ w₁}, update switching h w.following h₁ = some w₁ →
      ∃ w₀, switching h₁ = some w₀ ∧ w₁.out = w₀.out ∧ w₁.next = w₀.next := by
    intro h₁ w₁ hw₁
    by_cases hh : h₁ = h
    · subst hh
      rw [update_self] at hw₁
      obtain ⟨ho, hn, -, -⟩ := Switch.following_eq hw₁
      exact ⟨w, hw, ho, hn⟩
    · rw [update_of_ne hh] at hw₁
      exact ⟨w₁, hw₁, rfl, rfl⟩
  refine ⟨ha.placement, fun h₁ w₁ hw₁ => ?_, fun h₁ w₁ hw₁ => ?_, fun h₁ w₁ hw₁ => ?_, fun h₁ w₁ hw₁ => ?_,
    fun h₁ h₂ w₁ w₂ hw₁ hw₂ he => ?_⟩
  · obtain ⟨w₀, hw₀, -, hn⟩ := hold hw₁
    exact hn ▸ ha.next h₁ w₀ hw₀
  · obtain ⟨w₀, hw₀, ho, -⟩ := hold hw₁
    exact ho ▸ ha.out_lt h₁ w₀ hw₀
  · obtain ⟨w₀, hw₀, ho, -⟩ := hold hw₁
    exact ho ▸ ha.out_current h₁ w₀ hw₀
  · obtain ⟨w₀, hw₀, ho, -⟩ := hold hw₁
    exact ho ▸ ha.out_queued h₁ w₀ hw₀
  · obtain ⟨w₀, hw₀, ho, -⟩ := hold hw₁
    obtain ⟨w₀', hw₀', ho', -⟩ := hold hw₂
    exact ha.out_injective h₁ h₂ w₀ w₀' hw₀ hw₀' (ho ▸ ho' ▸ he)

end Apart

/-! ### The tasks the harts are on -/

theorem Machine.executing_of_switching (hw : m.switching h = some w) : m.executing h = w.out := by
  rw [executing, hw]

theorem Machine.executing_of_settled (hw : m.switching h = none) : m.executing h = m.sched.current h := by
  rw [executing, hw]

namespace Apart

variable (ha : Apart m.sched m.switching)

include ha

theorem executing_lt (h : Fin n) : m.executing h < m.sched.nextTaskId := by
  cases hw : m.switching h with
  | none => exact m.executing_of_settled hw ▸ ha.placement.current_lt h
  | some w => exact m.executing_of_switching hw ▸ ha.out_lt h w hw

theorem executing_ne_out (hw : m.switching h = some w) (hne : h' ≠ h) : m.executing h' ≠ w.out := by
  cases hw' : m.switching h' with
  | none => exact m.executing_of_settled hw' ▸ (ha.out_current h w hw h').symm
  | some w' => exact m.executing_of_switching hw' ▸ fun he => hne (ha.out_injective h' h w' w hw' hw he)

theorem executing_ne_current (hne : h' ≠ h) : m.executing h' ≠ m.sched.current h := by
  cases hw : m.switching h' with
  | none => exact m.executing_of_settled hw ▸ fun he => hne (ha.placement.current_injective he)
  | some w => exact m.executing_of_switching hw ▸ ha.out_current h' w hw h

end Apart

/-! ### Sections that put no task onto a hart -/

/-- No task is put onto a hart or blocked, and only blocked ones are queued. -/
structure Eases (s s' : Scheduler n) : Prop where
  current : s'.current = s.current
  blocked : ∀ t, s'.isBlocked t = true → s.isBlocked t = true
  queued : ∀ h t, t ∈ ids (s'.runqueues h) →
    t ∈ ids (s.runqueues h) ∨ s.isBlocked t = true

namespace Eases

theorem wake (s : Scheduler n) (h : Fin n) (now : Nat) (id : TaskId) : Eases s (s.wake h now id) := by
  rcases wake_cases s h now id with ⟨task, hw⟩ | ⟨-, he⟩
  · refine ⟨hw.current, fun t hb => ?_, fun h' t ht => ?_⟩
    · rw [isBlocked_update hw.tasks] at hb
      split at hb
      · cases hb
      · exact hb
    · rw [hw.runqueues] at ht
      refine (Apart.mem_enqueued ht).imp_right fun ⟨_, he⟩ => ?_
      exact he ▸ isBlocked_eq_true_iff.mpr ⟨task, hw.known, hw.blocked⟩
  · rw [he]
    exact ⟨rfl, fun _ hb => hb, fun _ _ => .inl⟩

theorem kill (s : Scheduler n) (target : TaskId) (isSelf remote : Bool) : Eases s (s.kill target isSelf remote).2 := by
  rcases kill_cases s target isSelf remote with ⟨task, ht, -, -, -, he⟩ | ⟨task, ht, he⟩ | ⟨o, -, he⟩
  · rw [he]
    refine ⟨rfl, fun t hb => ?_, fun h t hm => ?_⟩
    · rw [isBlocked_update (s := s) rfl] at hb
      split at hb
      · cases hb
      · exact hb
    · rw [ids_remove] at hm
      exact .inl (mem_of_mem_erase hm)
  · rw [he]
    refine ⟨rfl, fun t hb => ?_, fun _ _ => .inl⟩
    rw [isBlocked_update (s := s) rfl] at hb
    split at hb
    · next hte => exact isBlocked_eq_true_iff.mpr ⟨task, hte ▸ ht, by simpa using hb⟩
    · exact hb
  · rw [he]
    exact ⟨rfl, fun _ hb => hb, fun _ _ => .inl⟩

theorem reapTask (s : Scheduler n) (child : TaskId) : Eases s (s.reapTask child) := by
  refine ⟨rfl, fun t hb => ?_, fun _ _ => .inl⟩
  obtain ⟨task, ht, hst⟩ := isBlocked_eq_true_iff.mp hb
  refine isBlocked_eq_true_iff.mpr ⟨task, ?_, hst⟩
  by_cases hne : t = child
  · simp [Scheduler.reapTask, hne] at ht
  · simpa [Scheduler.reapTask, hne] using ht

end Eases

/-! ### Tasks that wait to run -/

/-- Task `t` is queued, blocked, or being switched to. -/
def Waits (m : Machine n) (t : TaskId) : Prop :=
  (∃ h, t ∈ ids (m.sched.runqueues h)) ∨ m.sched.isBlocked t = true ∨
    ∃ h, m.sched.current h = t ∧ m.switching h ≠ none

namespace Waits

theorem not_of_settled (hp : Placement m.sched) (hsw : m.switching h = none) : ¬ Waits m (m.sched.current h) := by
  rintro (⟨h', hm⟩ | hb | ⟨h', hc, hn⟩)
  · exact hp.current_not_queued h h' hm
  · exact absurd hb (by simp [hp.current_not_blocked h])
  · exact hn (hp.current_injective hc ▸ hsw)

theorem goesOn_iff {l : List (Op n)} (hg : GoesOn m m' h me l) : Waits m' t ↔ Waits m t := by
  rw [Waits, Waits, hg.sched, hg.switching]

theorem not_of_goesOn {l : List (Op n)} (hg : GoesOn m m' h me l) (hp : Placement m.sched) : ¬ Waits m' me := by
  rw [goesOn_iff hg, ← hg.current]
  exact not_of_settled hp hg.settled

theorem of_eases (he : Eases m.sched s) (hw : Waits { m with sched := s } t) : Waits m t := by
  rcases hw with ⟨h, hm⟩ | hb | ⟨h, hc, hn⟩
  · exact (he.queued h t hm).imp (fun hm => ⟨h, hm⟩) .inl
  · exact .inr (.inl (he.blocked t hb))
  · exact .inr (.inr ⟨h, he.current ▸ hc, hn⟩)

theorem of_spawn {hart : Fin n} (hne : t ≠ m.sched.nextTaskId) (hw : Waits (m.spawn hart now kind slot) t) : Waits m t := by
  rcases hw with ⟨h, hm⟩ | hb | hc
  · exact .inl ⟨h, (Apart.mem_enqueued hm).resolve_right fun he => hne he.2⟩
  · exact .inr (.inl (by simpa [isBlocked, Machine.spawn, Scheduler.spawn, hne] using hb))
  · exact .inr (.inr hc)

theorem of_switch (hs : SwitchesOut m m' h d rest) (ht : t ≠ m.sched.current h) (hw : Waits m' t) : Waits m t := by
  rcases hw with ⟨h', hm⟩ | hb | ⟨h', hc, hn⟩
  · exact .inl ⟨h', (hs.mem_runqueues hm).resolve_right fun he => ht he.2.1⟩
  · exact .inr (.inl (hs.isBlocked_of_ne ht ▸ hb))
  by_cases hh : h' = h
  · exact .inl ⟨h, (hh ▸ hc) ▸ hs.current_queued⟩
  · exact .inr (.inr ⟨h', hs.current_of_ne hh ▸ hc, hs.switching_of_ne hh ▸ hn⟩)

theorem not_of_exit (hp : Placement m.sched) (hs : SwitchesOut m m' h .exit rest) : ¬ Waits m' (m.sched.current h) := by
  rintro (⟨h', hm⟩ | hb | ⟨h', hc, -⟩)
  · exact hp.current_not_queued h h' ((hs.mem_runqueues hm).resolve_right (by simp))
  · obtain ⟨_, _, _, hs'⟩ := hs.sched
    rw [isBlocked_update hs'.tasks, if_pos rfl] at hb
    cases hb
  · exact hs.current_ne hp h' hc

theorem of_advance (hw : m.switching h = some w) (hwait : Waits (m.advance h w) t) : Waits m t := by
  rw [Waits, m.advance_sched, m.advance_switching] at hwait
  refine hwait.imp_right (Or.imp_right fun ⟨h', hc, hn⟩ => ⟨h', hc, ?_⟩)
  by_cases hh : h' = h
  · simp [hh, hw]
  · rwa [update_of_ne hh] at hn

end Waits

/-! ### Wakes -/

/-- Who wakes whom in a step. -/
def Machine.wakes (m : Machine n) (l : Label n) : Option (Fin n × TaskId) :=
  match l, m.entry l with
  | .interrupt h _ id, _ => some (h, id)
  | .run h _ _, some (.wake id) => some (h, id)
  | _, _ => none

/-- The step wakes no task that another hart is still leaving. -/
def wakesParked (m : Machine n) (l : Label n) : Bool :=
  (m.wakes l).all fun w => !m.sched.isBlocked w.2 || decide (∀ h, h ≠ w.1 → m.executing h ≠ w.2)

theorem Apart.out_eq_of_wakesParked (hok : wakesParked m l = true) {id : TaskId}
    (hl : m.wakes l = some (h, id)) (hb : m.sched.isBlocked id = true) (h' : Fin n) (w : Switch)
    (hw : m.switching h' = some w) (he : w.out = id) : h' = h := by
  rw [wakesParked, hl, all_some, hb, Bool.not_true, Bool.false_or, decide_eq_true_eq] at hok
  by_contra hne
  exact hok h' hne (executing_of_switching hw ▸ he)

theorem Apart.step {m m' : Machine n} (ha : Apart m.sched m.switching)
    (hok : wakesParked m l = true) (hs : m.step l = some m') : Apart m'.sched m'.switching := by
  cases step_stepped hs with
  | @run h now frame _ _ _ hsw htodo hd =>
    have hentry : m.entry (.run h now frame) = some _ := entry_run hsw htodo
    cases hd with
    | wake now =>
      refine ha.wake _ now _ (Apart.out_eq_of_wakesParked hok ?_)
      simp [wakes, hentry]
    | kill new hnew => exact ha.kill ..
    | remove hop hknown => exact ha.reapTask _
    | spawn new now hslot hnew => exact ha.spawn _ now
    | switch hop hprep hne => exact ha.switch (switchesOut hsw hprep hne)
    | _ => exact ha
  | @stage h w hsw =>
    rw [m.advance_sched, m.advance_switching]
    exact ha.stage hsw
  | interrupt h now id => exact ha.wake h now id (Apart.out_eq_of_wakesParked hok rfl)
  | _ => exact ha

theorem boot_apart (bootRoot : Root) (regs : Fin n → FpRegs) :
    Apart (boot bootRoot regs).sched (boot bootRoot regs).switching where
  placement := (boot_placed bootRoot regs).live.placement
  next := fun _ _ hw => absurd hw.symm (some_ne_none _)
  out_lt := fun _ _ hw => absurd hw.symm (some_ne_none _)
  out_current := fun _ _ hw => absurd hw.symm (some_ne_none _)
  out_queued := fun _ _ hw => absurd hw.symm (some_ne_none _)
  out_injective := fun _ _ _ _ hw => absurd hw.symm (some_ne_none _)

/-! ### Contexts and slots -/

def Machine.reaps (m : Machine n) (l : Label n) : Option TaskId :=
  match m.entry l with
  | some (.reapTask child) | some (.sweep child) => some child
  | _ => none

/-- The step reaps no task a hart runs, or is still leaving. -/
def reapsLeft (m : Machine n) (l : Label n) : Bool :=
  (m.reaps l).all fun child => decide (∀ h, m.sched.current h ≠ child ∧ m.executing h ≠ child)

/-- The context of a task is the one its last switch stores, or that switch is under way; no two tasks
share a stack. -/
structure Resumable (m : Machine n) : Prop where
  apart : Apart m.sched m.switching
  current_known : ∀ h, m.sched.tasks (m.sched.current h) ≠ none
  out_known : ∀ h w, m.switching h = some w → m.sched.tasks w.out ≠ none
  saved : ∀ t, m.kstacks.saved t = m.kstacks.outs t ∨
    ∃ h w, m.switching h = some w ∧ w.out = t ∧ w.twoWay = true ∧ w.stage ≠ .load
  slot_used : ∀ t, m.sched.tasks t ≠ none → m.kstacks.slot t ∈ m.kstacks.inUse
  slot_injective : ∀ t u, m.sched.tasks t ≠ none → m.sched.tasks u ≠ none →
    m.kstacks.slot t = m.kstacks.slot u → t = u

/-- What a section of the scheduler that neither adds nor removes tasks does to the table. -/
theorem known_update {s' : Scheduler n} (hs : s'.tasks = update s.tasks u (some task)) (hu : s.tasks u ≠ none) (t : TaskId) :
    s'.tasks t ≠ none ↔ s.tasks t ≠ none := by
  rw [hs]
  by_cases ht : t = u
  · subst ht
    simp [hu]
  · rw [update_of_ne ht]

theorem known_wake (s : Scheduler n) (h : Fin n) (now : Nat) (id t : TaskId) :
    (s.wake h now id).tasks t ≠ none ↔ s.tasks t ≠ none := by
  rcases wake_cases s h now id with ⟨task, hw⟩ | ⟨-, he⟩
  · exact known_update hw.tasks (hw.known ▸ some_ne_none _) t
  · rw [he]

theorem known_kill (s : Scheduler n) (target : TaskId) (isSelf remote : Bool) (t : TaskId) :
    (s.kill target isSelf remote).2.tasks t ≠ none ↔ s.tasks t ≠ none := by
  rcases kill_cases s target isSelf remote with ⟨task, ht, -, -, -, hk⟩ | ⟨task, ht, hk⟩ | ⟨o, -, hk⟩
  · rw [hk]
    exact known_update rfl (ht ▸ some_ne_none _) t
  · rw [hk]
    exact known_update rfl (ht ▸ some_ne_none _) t
  · rw [hk]

theorem known_switch {m' : Machine n} (hs : SwitchesOut m m' h d rest) (t : TaskId) :
    m'.sched.tasks t ≠ none ↔ m.sched.tasks t ≠ none := by
  obtain ⟨_, _, _, hs'⟩ := hs.sched
  exact known_update hs'.tasks (hs'.out ▸ some_ne_none _) t

theorem known_spawn (m : Machine n) (hart : Fin n) (now : Nat) (kind : SpawnKind) (slot : Slot) (t : TaskId) :
    (m.spawn hart now kind slot).sched.tasks t ≠ none ↔ t = m.sched.nextTaskId ∨ m.sched.tasks t ≠ none := by
  by_cases ht : t = m.sched.nextTaskId <;> simp [Machine.spawn, Scheduler.spawn, ht]

theorem known_remove (m : Machine n) (child t : TaskId) :
    (m.remove child).sched.tasks t ≠ none ↔ t ≠ child ∧ m.sched.tasks t ≠ none := by
  by_cases ht : t = child
  · simp [Machine.remove, Scheduler.reapTask, ht]
  · simp [Machine.remove, Scheduler.reapTask, ht]

namespace Resumable

variable {m m' : Machine n}

variable (hr : Resumable m)
include hr

theorem same (ha : Apart m'.sched m'.switching) (hk : ∀ t, m'.sched.tasks t ≠ none ↔ m.sched.tasks t ≠ none)
    (hc : m'.sched.current = m.sched.current) (hsw : m'.switching = m.switching)
    (hst : m'.kstacks = m.kstacks) : Resumable m' where
  apart := ha
  current_known := fun h => (hk _).mpr (hc ▸ hr.current_known h)
  out_known := fun h w hw => (hk _).mpr (hr.out_known h w (hsw ▸ hw))
  saved := by
    rw [hst, hsw]
    exact hr.saved
  slot_used := by
    intro t ht
    rw [hst]
    exact hr.slot_used t ((hk t).mp ht)
  slot_injective := by
    intro t u ht hu he
    rw [hst] at he
    exact hr.slot_injective t u ((hk t).mp ht) ((hk u).mp hu) he

theorem remove (hknown : m.sched.tasks child ≠ none)
    (hleft : ∀ h, m.sched.current h ≠ child ∧ m.executing h ≠ child) : Resumable (m.remove child) := by
  have hk := known_remove m child
  refine ⟨hr.apart.reapTask child, fun h => (hk _).mpr ⟨(hleft h).1, hr.current_known h⟩, fun h w hw => ?_,
    hr.saved, fun t ht => ?_, fun t u ht hu => ?_⟩
  · refine (hk _).mpr ⟨?_, hr.out_known h w hw⟩
    rw [← m.executing_of_switching hw]
    exact (hleft h).2
  · obtain ⟨hne, ht⟩ := (hk t).mp ht
    exact (mem_erase_of_ne fun he => hne (hr.slot_injective t child ht hknown he)).mpr (hr.slot_used t ht)
  · exact hr.slot_injective t u ((hk t).mp ht).2 ((hk u).mp hu).2

theorem spawn (hart : Fin n) (now : Nat) (kind : SpawnKind)
    (hslot : slot ∉ m.kstacks.inUse) : Resumable (m.spawn hart now kind slot) := by
  have hfresh : m.sched.tasks m.sched.nextTaskId = none := by
    by_contra hne
    exact Nat.lt_irrefl _ (hr.apart.placement.bound _ hne)
  have hk := known_spawn m hart now kind slot
  have hslots : (m.spawn hart now kind slot).kstacks.slot =
      update m.kstacks.slot m.sched.nextTaskId slot := rfl
  have hold : ∀ t, m.sched.tasks t ≠ none →
      update m.kstacks.slot m.sched.nextTaskId slot t = m.kstacks.slot t := by
    intro t ht
    refine update_of_ne ?_ ..
    rintro rfl
    exact ht hfresh
  refine ⟨hr.apart.spawn hart now, fun h => (hk _).mpr (.inr (hr.current_known h)),
    fun h w hw => (hk _).mpr (.inr (hr.out_known h w hw)), hr.saved, fun t ht => ?_, fun t u ht hu he => ?_⟩
  · rw [hslots]
    rcases (hk t).mp ht with rfl | ht
    · rw [update_self]
      exact mem_cons_self
    · rw [hold t ht]
      exact mem_cons_of_mem _ (hr.slot_used t ht)
  · rw [hslots] at he
    rcases (hk t).mp ht with rfl | ht <;> rcases (hk u).mp hu with rfl | hu
    · rfl
    · rw [update_self, hold u hu] at he
      exact absurd (he ▸ hr.slot_used u hu) hslot
    · rw [update_self, hold t ht] at he
      exact absurd (he ▸ hr.slot_used t ht) hslot
    · rw [hold t ht, hold u hu] at he
      exact hr.slot_injective t u ht hu he

theorem switch (hs : SwitchesOut m m' h d rest) : Resumable m' := by
  have hk := known_switch hs
  have hslot : m'.kstacks.slot = m.kstacks.slot ∧ m'.kstacks.inUse = m.kstacks.inUse ∧
      m'.kstacks.saved = m.kstacks.saved := by
    rw [hs.kstacks]
    cases d <;> exact ⟨rfl, rfl, rfl⟩
  refine ⟨hr.apart.switch hs, fun h' => (hk _).mpr (hs.current_known hr.current_known h'),
    fun h' w hw => (hk _).mpr ?_, fun t => ?_, fun t ht => ?_, fun t u ht hu => ?_⟩
  · by_cases hh : h' = h
    · rw [hh, hs.switching_self] at hw
      cases hw
      exact hr.current_known h
    · exact hr.out_known h' w (hs.switching_of_ne hh ▸ hw)
  · rw [hslot.2.2]
    have hother : m.kstacks.saved t = m.kstacks.outs t ∨
        ∃ h' w, m'.switching h' = some w ∧ w.out = t ∧ w.twoWay = true ∧ w.stage ≠ .load := by
      refine (hr.saved t).imp_right ?_
      rintro ⟨h', w, hw, hrest⟩
      exact ⟨h', w, (hs.switching_of_ne (m.ne_of_switching hs.settled hw)).trans hw, hrest⟩
    cases d with
    | exit => exact hs.kstacks ▸ hother
    | requeue | block =>
      by_cases ht : t = m.sched.current h
      · exact .inr ⟨h, _, hs.switching_self, ht.symm, rfl, Stage.noConfusion⟩
      refine hother.imp (fun he => ?_) id
      rw [he, hs.kstacks]
      exact (update_of_ne ht ..).symm
  · rw [hslot.1, hslot.2.1]
    exact hr.slot_used t ((hk t).mp ht)
  · rw [hslot.1]
    exact hr.slot_injective t u ((hk t).mp ht) ((hk u).mp hu)

omit hr

theorem stage (hr : Resumable m) (hw : m.switching h = some w) : Resumable (m.advance h w) := by
  have hsched := m.advance_sched h w
  have hsw := m.advance_switching h w
  have hslot : (m.advance h w).kstacks.slot = m.kstacks.slot ∧
      (m.advance h w).kstacks.inUse = m.kstacks.inUse ∧ (m.advance h w).kstacks.outs = m.kstacks.outs := by
    unfold advance
    cases w.stage <;> exact ⟨rfl, rfl, rfl⟩
  refine ⟨hsched ▸ hsw ▸ hr.apart.stage hw, hsched ▸ hr.current_known, fun h' w' hw' => ?_, fun t => ?_,
    hsched ▸ hslot.1 ▸ hslot.2.1 ▸ hr.slot_used, hsched ▸ hslot.1 ▸ hr.slot_injective⟩
  · rw [hsched]
    rw [hsw] at hw'
    by_cases hh : h' = h
    · subst hh
      rw [update_self] at hw'
      rw [(Switch.following_eq hw').1]
      exact hr.out_known h' w hw
    · rw [update_of_ne hh] at hw'
      exact hr.out_known h' w' hw'
  rw [hslot.2.2, hsw]
  by_cases hstore : w.stage = .store ∧ t = w.out
  · obtain ⟨hst, rfl⟩ := hstore
    left
    simp [advance, hst]
  have hsaved : (m.advance h w).kstacks.saved t = m.kstacks.saved t := by
    unfold advance
    cases hst : w.stage with
    | store => exact update_of_ne (fun ht => hstore ⟨hst, ht⟩) ..
    | _ => rfl
  rw [hsaved]
  refine (hr.saved t).imp_right ?_
  rintro ⟨h', w', hw', hout, htwo, hload⟩
  by_cases hh : h' = h
  · subst hh
    obtain rfl := some.inj (hw.symm.trans hw')
    cases hst : w.stage with
    | space =>
      exact ⟨h', { w with stage := .fp }, by simp [Switch.following, hst], hout, htwo, Stage.noConfusion⟩
    | fp =>
      exact ⟨h', { w with stage := .store }, by simp [Switch.following, hst, htwo], hout, htwo, Stage.noConfusion⟩
    | store => exact absurd ⟨hst, hout.symm⟩ hstore
    | load => exact absurd hst hload
  · exact ⟨h', w', by rw [update_of_ne hh, hw'], hout, htwo, hload⟩

theorem step (hr : Resumable m) (hwake : wakesParked m l = true) (hreap : reapsLeft m l = true)
    (hs : m.step l = some m') : Resumable m' := by
  have ha := hr.apart.step hwake hs
  cases step_stepped hs with
  | @run h now frame _ _ _ hsw htodo hd =>
    have hentry : m.entry (.run h now frame) = some _ := entry_run hsw htodo
    cases hd with
    | wake now => exact hr.same ha (fun _ => known_wake ..) (Eases.wake ..).current rfl rfl
    | kill new hnew => exact hr.same ha (fun _ => known_kill ..) (Eases.kill ..).current rfl rfl
    | @remove _ child _ hop hknown =>
      have hreaps : m.reaps (.run h now frame) = some child := by
        rcases hop with rfl | rfl <;> simp [reaps, hentry]
      have hleft : ∀ h, m.sched.current h ≠ child ∧ m.executing h ≠ child := by
        simpa [reapsLeft, hreaps] using hreap
      exact (hr.remove hknown hleft).same ha (fun _ => .rfl) rfl rfl rfl
    | @spawn hart kind _ new now _ hslot hnew =>
      exact (hr.spawn hart now kind hslot).same ha (fun _ => .rfl) rfl rfl rfl
    | switch hop hprep hne => exact hr.switch (switchesOut hsw hprep hne)
    | _ => exact hr.same ha (fun _ => .rfl) rfl rfl rfl
  | stage hsw => exact hr.stage hsw
  | interrupt h now id => exact hr.same ha (fun _ => known_wake ..) (Eases.wake ..).current rfl rfl
  | _ => exact hr.same ha (fun _ => .rfl) rfl rfl rfl

end Resumable

theorem boot_resumable (bootRoot : Root) (regs : Fin n → FpRegs) : Resumable (boot bootRoot regs) where
  apart := boot_apart bootRoot regs
  current_known := fun h => by simp [boot]
  out_known := fun _ _ hw => absurd hw.symm (some_ne_none _)
  saved := fun _ => .inl rfl
  slot_used := fun t ht => by simpa [boot] using ht
  slot_injective := fun _ _ _ _ he => he

/-- In every run whose wakes hit parked tasks and whose reaps hit tasks that were left. A hart about to
load the context of `T` finds the one `T`'s last switch stored, or the initial one; no other hart is on
`T`'s stack, and `T` and its slot are in use. A slot that is free for a new task is no slot a hart
executes on. -/
theorem loads_latest_context {bootRoot : Root} {regs : Fin n → FpRegs} {m : Machine n}
    (hrun : Runs.Reaches step (fun m l => wakesParked m l && reapsLeft m l) (boot bootRoot regs) m) :
    (∀ h w, m.switching h = some w → w.stage = .load →
      m.kstacks.saved w.next = m.kstacks.outs w.next ∧
      (∀ h', h' ≠ h → m.kstacks.slot (m.executing h') ≠ m.kstacks.slot w.next) ∧
      m.sched.tasks w.next ≠ none ∧ m.kstacks.slot w.next ∈ m.kstacks.inUse) ∧
    ∀ slot, slot ∉ m.kstacks.inUse → ∀ h, m.kstacks.slot (m.executing h) ≠ slot := by
  have hr : Resumable m := hrun.invariant (I := Resumable) (boot_resumable bootRoot regs)
    fun _ _ _ hr hok hs => hr.step (Bool.and_eq_true_iff.mp hok).1 (Bool.and_eq_true_iff.mp hok).2 hs
  have hknown : ∀ h, m.sched.tasks (m.executing h) ≠ none := by
    intro h
    cases hw : m.switching h with
    | none => exact m.executing_of_settled hw ▸ hr.current_known h
    | some w => exact m.executing_of_switching hw ▸ hr.out_known h w hw
  refine ⟨fun h w hw hload => ?_, fun slot hslot h he => hslot (he ▸ hr.slot_used _ (hknown h))⟩
  rw [hr.apart.next h w hw]
  have hcur := hr.current_known h
  refine ⟨?_, fun h' hne he => ?_, hcur, hr.slot_used _ hcur⟩
  · rcases hr.saved (m.sched.current h) with hs | ⟨h', w', hw', hout, -⟩
    · exact hs
    · exact absurd hout (hr.apart.out_current h' w' hw' h)
  · exact hr.apart.executing_ne_current hne (hr.slot_injective _ _ (hknown h') hcur he)

/-- Process `2` blocks on hart `0`; process `3` wakes it on hart `1` and yields to it. Hart `0` takes
`stages` steps of its switch before that. -/
def blockedAndWoken (stages : Nat) : List (Label 2) :=
  parentAndChild ++ [Label.trap 0 .block false, Label.run 0 0 0] ++ List.replicate stages (Label.stage 0) ++
    Label.trap 1 (.wake 2) false :: runs 1 3 ++ [Label.trap 1 .yield false, Label.run 1 0 0] ++
    List.replicate 3 (Label.stage 1)

theorem loads_latest_context_blockedAndWoken :
    ∃ m, Runs.Reaches step (fun m l => wakesParked m l && reapsLeft m l) twoHarts m ∧
      ∃ w, m.switching 1 = some w ∧ w.stage = .load ∧ w.next = 2 ∧
        m.kstacks.saved 2 = m.kstacks.outs 2 ∧ m.kstacks.outs 2 = 1 := by
  obtain ⟨m, hrun, w, hw, hload, hnext, houts⟩ : ∃ m, Runs.Reaches step (fun m l => wakesParked m l && reapsLeft m l) twoHarts m ∧
      ∃ w ∈ m.switching 1, w.stage = .load ∧ w.next = 2 ∧ m.kstacks.outs 2 = 1 :=
    Runs.exists_reaches (blockedAndWoken 4) (by decide)
  have hsaved := ((loads_latest_context hrun).1 1 w hw hload).1
  rw [hnext] at hsaved
  exact ⟨m, hrun, w, hw, hload, hnext, hsaved, houts⟩

/-- Hart `0` has not stored the registers of process `2` when hart `1` is about to load them, and is
still on its stack. -/
theorem stale_context_loaded :
    ∃ m, Runs.Reaches step (fun _ _ => True) twoHarts m ∧
      ∃ w, m.switching 1 = some w ∧ w.stage = .load ∧ m.kstacks.saved w.next ≠ m.kstacks.outs w.next ∧
        m.executing 0 = w.next :=
  Runs.exists_reaches (P := fun m : Machine 2 => ∃ w ∈ m.switching 1, w.stage = .load ∧
    m.kstacks.saved w.next ≠ m.kstacks.outs w.next ∧ m.executing 0 = w.next) (blockedAndWoken 0) (by decide)

end SnitchOs.Hart
