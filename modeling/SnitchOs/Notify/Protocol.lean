import SnitchOs.Lib.Runs
import SnitchOs.Notify.Notification

/-!
# Waiting on one notification

`handle_wait_notify` cut at its locked sections: `notify_wait`, `block_current`, `notify_take_pending` and
`notify_cancel_wait`. A parked task may be resumed at any time, by a signal's wake, a timeout drain or an early wake.
Ghost fields keep the masks signalled, those no wait has returned yet, and what each completed wait returned.
-/

namespace SnitchOs.Notify

open Option

inductive Phase
  /-- Not in the call, or already returned from it. -/
  | out
  /-- Registered, on its way into `block_current`; the first time or again. -/
  | armed (deadline : UInt64)
  /-- Inside `block_current`. -/
  | parked (deadline : UInt64)
  /-- Resumed, before `notify_take_pending`. -/
  | woken (deadline : UInt64)
  /-- Timed out, before `notify_cancel_wait`. -/
  | expired
deriving DecidableEq

/-- The task has passed the `Block` step and has not left the loop around `block_current`. -/
def Phase.InLoop : Phase → Prop
  | .armed _ | .parked _ | .woken _ => True
  | .out | .expired => False

instance : DecidablePred Phase.InLoop
  | .armed _ | .parked _ | .woken _ => isTrue trivial
  | .out | .expired => isFalse id

/-- A wait that returned bits, with the masks of the signals they came from. -/
structure Completed where
  task : TaskId
  bits : UInt64
  masks : List UInt64
deriving DecidableEq

structure State where
  n : Notification := {}
  phase : TaskId → Phase := fun _ => .out
  signalled : List UInt64 := []
  unclaimed : List UInt64 := []
  completed : List Completed := []

inductive Label
  | wait (task : TaskId) (deadline : UInt64)
  | block (task : TaskId)
  | resume (task : TaskId)
  | take (task : TaskId) (now : UInt64)
  | cancel (task : TaskId)
  | signal (mask : UInt64)
deriving DecidableEq

namespace State

def setPhase (s : State) (task : TaskId) (p : Phase) : State :=
  { s with phase := Function.update s.phase task p }

/-- The wait of `task` returns `bits`: all masks signalled since the last such return. -/
def claim (s : State) (task : TaskId) (bits : UInt64) : State :=
  { s.setPhase task .out with
    unclaimed := []
    completed := s.completed ++ [⟨task, bits, s.unclaimed⟩] }

/-- One section. A label whose task does not stand where the section is run changes nothing. -/
def step (s : State) : Label → State
  | .wait task deadline =>
    match s.phase task with
    | .out =>
      match s.n.wait task with
      | (.ready bits, n) => { s with n }.claim task bits
      | (.block, n) => { s with n }.setPhase task (.armed deadline)
      | (.busy, n) => { s with n }
    | _ => s
  | .block task =>
    match s.phase task with
    | .armed deadline => s.setPhase task (.parked deadline)
    | _ => s
  | .resume task =>
    match s.phase task with
    | .parked deadline => s.setPhase task (.woken deadline)
    | _ => s
  | .take task now =>
    match s.phase task with
    | .woken deadline =>
      match s.n.takePending with
      | (some bits, n) => { s with n }.claim task bits
      | (none, n) =>
        { s with n }.setPhase task (if deadline ≠ 0 ∧ deadline ≤ now then .expired else .armed deadline)
    | _ => s
  | .cancel task =>
    match s.phase task with
    | .expired => { s with n := s.n.cancelWait task }.setPhase task .out
    | _ => s
  | .signal mask =>
    { s with
      n := (s.n.signal mask).2
      signalled := s.signalled ++ [mask]
      unclaimed := s.unclaimed ++ [mask] }

def run (ls : List Label) : State := ls.foldl step {}

/-- What a section can do: nothing; take the pending bits, from outside the call or in the loop;
register; move a task inside the loop or out of it by its deadline; free the slot of a timed-out task;
or add bits. -/
theorem step_cases (s : State) (l : Label) : s.step l = s ∨
    (∃ task, ((∃ deadline, l = .wait task deadline ∧ s.phase task = .out) ∨ (s.phase task).InLoop) ∧
      s.n.pending ≠ 0 ∧ s.step l = { s with n := {} }.claim task s.n.pending) ∨
    (∃ task deadline, s.phase task = .out ∧ s.n.pending = 0 ∧ s.n.waiter = none ∧
      s.step l = { s with n := { s.n with waiter := some task } }.setPhase task (.armed deadline)) ∨
    (∃ task p, (s.phase task).InLoop ∧ p ≠ .out ∧ s.step l = s.setPhase task p) ∨
    (∃ task, s.phase task = .expired ∧ s.step l = { s with n := s.n.cancelWait task }.setPhase task .out) ∨
    (∃ mask, l = .signal mask ∧ s.step l = { s with
      n := (s.n.signal mask).2
      signalled := s.signalled ++ [mask]
      unclaimed := s.unclaimed ++ [mask] }) := by
  cases l with
  | wait task deadline =>
    cases hp : s.phase task with
    | out =>
      rcases s.n.wait_cases task with ⟨hb, hw⟩ | ⟨hb, hnone, hw⟩ | ⟨-, -, hw⟩
      · exact .inr (.inl ⟨task, .inl ⟨deadline, rfl, hp⟩, hb, by simp only [step, hp, hw]⟩)
      · exact .inr (.inr (.inl ⟨task, deadline, hp, hb, hnone, by simp only [step, hp, hw]⟩))
      · exact .inl (by simp only [step, hp, hw])
    | _ => exact .inl (by simp only [step, hp])
  | block task =>
    cases hp : s.phase task with
    | armed deadline =>
      refine .inr (.inr (.inr (.inl ⟨task, .parked deadline, ?_, by simp, by simp only [step, hp]⟩)))
      rw [hp]
      trivial
    | _ => exact .inl (by simp only [step, hp])
  | resume task =>
    cases hp : s.phase task with
    | parked deadline =>
      refine .inr (.inr (.inr (.inl ⟨task, .woken deadline, ?_, by simp, by simp only [step, hp]⟩)))
      rw [hp]
      trivial
    | _ => exact .inl (by simp only [step, hp])
  | take task now =>
    cases hp : s.phase task with
    | woken deadline =>
      have hloop : (s.phase task).InLoop := by
        rw [hp]
        trivial
      rcases s.n.takePending_cases with ⟨hb, ht⟩ | ⟨-, ht⟩
      · exact .inr (.inl ⟨task, .inr hloop, hb, by simp only [step, hp, ht]⟩)
      refine .inr (.inr (.inr (.inl ⟨task, _, hloop, ?_, by simp only [step, hp, ht]; rfl⟩)))
      split <;> simp
    | _ => exact .inl (by simp only [step, hp])
  | cancel task =>
    cases hp : s.phase task with
    | expired => exact .inr (.inr (.inr (.inr (.inl ⟨task, hp, by simp only [step, hp]⟩))))
    | _ => exact .inl (by simp only [step, hp])
  | signal mask => exact .inr (.inr (.inr (.inr (.inr ⟨mask, rfl, rfl⟩))))

/-! ### Bits are conserved -/

def union (masks : List UInt64) : UInt64 := masks.foldl (· ||| ·) 0

theorem union_append_singleton (masks : List UInt64) (mask : UInt64) : union (masks ++ [mask]) = union masks ||| mask := by
  simp [union]

/-- Every mask signalled so far belongs to exactly one completed wait, which returned its bits, or is
still pending. -/
structure Conserved (s : State) : Prop where
  split : s.signalled = s.completed.flatMap (·.masks) ++ s.unclaimed
  pending : s.n.pending = union s.unclaimed
  returned : ∀ c ∈ s.completed, c.bits = union c.masks

theorem Conserved.step {s : State} (hs : s.Conserved) (l : Label) : (s.step l).Conserved := by
  obtain ⟨hsplit, hpending, hreturned⟩ := hs
  rcases s.step_cases l with h | ⟨task, -, -, h⟩ | ⟨task, deadline, -, -, -, h⟩ | ⟨task, p, -, -, h⟩ | ⟨task, -, h⟩ | ⟨mask, -, h⟩
  · rw [h]
    exact ⟨hsplit, hpending, hreturned⟩
  · rw [h]
    refine ⟨?_, rfl, fun c hc => ?_⟩
    · simp [claim, setPhase, hsplit]
    rcases List.mem_append.mp hc with hc | hc
    · exact hreturned c hc
    rw [List.mem_singleton] at hc
    subst hc
    exact hpending
  · rw [h]
    exact ⟨hsplit, hpending, hreturned⟩
  · rw [h]
    exact ⟨hsplit, hpending, hreturned⟩
  · rw [h]
    refine ⟨hsplit, ?_, hreturned⟩
    simp only [setPhase, Notification.cancelWait]
    split <;> exact hpending
  · rw [h]
    refine ⟨?_, ?_, hreturned⟩
    · simp [hsplit]
    · simp [Notification.signal, union_append_singleton, hpending]

/-! ### The registered waiter -/

def Registered (s : State) : Prop := ∀ task, (s.phase task).InLoop → s.n.waiter = some task

/-- What is promised of a waiting task: it is registered from its `Block` step until it leaves the
loop, it is the only one, every non-zero signal names it to be woken, and no signalled bit is lost or
returned twice. -/
structure Served (s : State) : Prop where
  registered : s.Registered
  unique : ∀ task other, (s.phase task).InLoop → (s.phase other).InLoop → task = other
  woken : ∀ task mask, (s.phase task).InLoop → mask ≠ 0 → (s.n.signal mask).1 = .woke task
  conserved : s.Conserved

theorem Registered.served {s : State} (hr : s.Registered) (hc : s.Conserved) : s.Served where
  registered := hr
  unique := by
    intro task other ht ho
    have h := (hr task ht).symm.trans (hr other ho)
    exact some.inj h
  woken := by
    intro task mask ht _
    simp [Notification.signal, hr task ht]
  conserved := hc

/-- The section is not a fresh `wait` that takes pending bits while some task is in its loop. -/
def LeavesBits (s : State) (l : Label) : Prop :=
  match l with
  | .wait task _ => s.phase task = .out → s.n.pending ≠ 0 → ∀ other, ¬ (s.phase other).InLoop
  | _ => True

@[simp] theorem phase_setPhase_self (s : State) (task : TaskId) (p : Phase) :
    (s.setPhase task p).phase task = p := by
  simp [setPhase]

theorem phase_setPhase_of_ne (s : State) (h : other ≠ task) (p : Phase) : (s.setPhase task p).phase other = s.phase other := by
  simp [setPhase, h]

theorem Registered.init : Registered {} := fun _ h => False.elim h

theorem Registered.step {s : State} (hr : s.Registered) (hl : s.LeavesBits l) : (s.step l).Registered := by
  rcases s.step_cases l with h | ⟨task, hwho, hb, h⟩ | ⟨task, deadline, -, -, hnone, h⟩ |
    ⟨task, p, hloop, -, h⟩ | ⟨task, hexp, h⟩ | ⟨mask, -, h⟩
  · rwa [h]
  · -- the bits go to a wait from outside, with nobody in the loop, or to the one task in it
    rw [h]
    intro other hother
    by_cases ho : other = task
    · subst ho
      rw [claim, phase_setPhase_self] at hother
      exact hother.elim
    · rw [claim, phase_setPhase_of_ne _ ho] at hother
      exfalso
      rcases hwho with ⟨deadline, rfl, hout⟩ | hloop
      · exact hl hout hb other hother
      · exact ho (some.inj ((hr other hother).symm.trans (hr task hloop)))
  · rw [h]
    intro other hother
    by_cases ho : other = task
    · rw [ho]
      rfl
    · rw [phase_setPhase_of_ne _ ho] at hother
      rw [hr other hother] at hnone
      cases hnone
  · rw [h]
    intro other hother
    by_cases ho : other = task
    · subst ho
      exact hr other hloop
    · rw [phase_setPhase_of_ne _ ho] at hother
      exact hr other hother
  · rw [h]
    intro other hother
    by_cases ho : other = task
    · subst ho
      rw [phase_setPhase_self] at hother
      exact hother.elim
    rw [phase_setPhase_of_ne _ ho] at hother
    have hw := hr other hother
    have hne : s.n.waiter ≠ some task := by
      rw [hw]
      exact fun heq => ho (some.inj heq)
    simp only [setPhase, Notification.cancelWait, hne, if_false]
    exact hw
  · rw [h]
    exact hr

/-- A fresh `wait` that takes the bits from under a task in its loop leaves that task unregistered. -/
theorem leavesBits_of_registered_step {s : State} (hr : (s.step l).Registered) : s.LeavesBits l := by
  cases l with
  | wait task deadline =>
    intro hout hb other hother
    have hstep : s.step (.wait task deadline) = { s with n := {} }.claim task s.n.pending := by
      rcases s.n.wait_cases task with ⟨-, hw⟩ | ⟨hz, -, -⟩ | ⟨hz, -, -⟩
      · simp [step, hout, hw]
      · exact absurd hz hb
      · exact absurd hz hb
    have hne : other ≠ task := by
      rintro rfl
      rw [hout] at hother
      exact hother
    rw [hstep] at hr
    have hstill : (({ s with n := {} }.claim task s.n.pending).phase other).InLoop := by
      rw [claim, phase_setPhase_of_ne _ hne]
      exact hother
    cases hr other hstill
  | _ => trivial

/-- In every run, the tasks in the loop are served in every state exactly when no fresh `wait` takes
pending bits while some task is in its loop. -/
theorem waiters_served_iff (ls : List Label) :
    (∀ k, (run (ls.take k)).Served) ↔ ∀ k l, ls[k]? = some l → (run (ls.take k)).LeavesBits l := by
  constructor
  · intro hserved
    exact Runs.ok_of_forall_take (I := fun _ => True) (C := LeavesBits) trivial (fun _ _ _ _ => trivial)
      (fun s l _ hs => leavesBits_of_registered_step hs.registered) hserved
  intro hok k
  have hinv : (run (ls.take k)).Registered ∧ (run (ls.take k)).Conserved :=
    Runs.invariant_take (I := fun s : State => s.Registered ∧ s.Conserved) (C := LeavesBits) ⟨Registered.init, rfl, rfl, by simp⟩
      (fun s l hs hl => ⟨hs.1.step hl, hs.2.step l⟩) hok k
  exact hinv.1.served hinv.2

/-- Task `1` parks; a signal resumes it; task `2` takes the bits before task `1` looks; task `1` parks
again and is not registered: the next signal wakes nobody. -/
def stolen : List Label :=
  [.wait 1 0, .block 1, .signal 1, .resume 1, .wait 2 0, .take 1 0, .block 1]

theorem stolen_parks_unregistered :
    (run stolen).phase 1 = .parked 0 ∧ (run stolen).n.waiter = none ∧
      ((run stolen).n.signal 1).1 = .noWaiter := by
  decide

end State

end SnitchOs.Notify
