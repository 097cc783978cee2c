import SnitchOs.Cap.Object

/-!
# Ready queues and task states

The pure half of the scheduler: the ready queue of one hart with its priority pick, the task states
and the guards on them. A tick is a `u64` of the hart's clock.
-/

namespace SnitchOs.Sched

open List

inductive Priority
  | low
  | normal
  | high
deriving DecidableEq

/-- The discriminant, `self as u64`. -/
def Priority.level : Priority → Nat
  | .low => 0
  | .normal => 1
  | .high => 2

/-- One level per `step` ticks waited, capped at `High`. -/
def agedPriority (base : Priority) (waitedTicks step : Nat) : Nat :=
  min (base.level + if step = 0 then 0 else waitedTicks / step) Priority.high.level

structure Candidate where
  id : TaskId
  base : Priority
  enqueuedTick : Nat
deriving DecidableEq

namespace Candidate

def effective (c : Candidate) (now step : Nat) : Nat := agedPriority c.base (now - c.enqueuedTick) step

/-- `b` is no better than `c` in the order of `pick_next`: effective priority, then the longest
wait. -/
def le (now step : Nat) (b c : Candidate) : Bool :=
  b.effective now step < c.effective now step ||
    b.effective now step == c.effective now step && c.enqueuedTick ≤ b.enqueuedTick

end Candidate

def shouldPreempt (currentLevel : Nat) (ready : List Candidate) (now step : Nat) : Bool :=
  ready.any fun c => currentLevel ≤ c.effective now step

/-- `Iterator::max_by_key`: of several greatest candidates, the last. -/
def best (now step : Nat) (b : Option Candidate) (c : Candidate) : Option Candidate :=
  match b with
  | none => some c
  | some b => if b.le now step c then some c else some b

def pickNext (candidates : List Candidate) (now step : Nat) : Option TaskId :=
  (candidates.foldl (best now step) none).map (·.id)

inductive TaskState
  | ready
  | running
  | blocked
  | exited
deriving DecidableEq

inductive CurrentDisposition
  | requeue
  | block
  | exit
deriving DecidableEq

namespace CurrentDisposition

def nextState : CurrentDisposition → Option TaskState
  | .requeue => none
  | .block => some .blocked
  | .exit => some .exited

def requeues : CurrentDisposition → Bool
  | .requeue => true
  | _ => false

end CurrentDisposition

def Runqueue.remove (queue : List Candidate) (id : TaskId) : List Candidate :=
  queue.eraseP (·.id == id)

def onWake (state : TaskState) : Bool := state == .blocked

inductive KillAction
  | noOp
  | terminate
  | refuseSelf
  | refuseRunningRemote
deriving DecidableEq

structure KillTarget where
  isSelf : Bool
  runningRemote : Bool
  isExited : Bool
deriving DecidableEq

/-- The first arm that applies wins. -/
def classifyKill (target : KillTarget) : KillAction :=
  if target.isSelf then .refuseSelf
  else if target.runningRemote then .refuseRunningRemote
  else if target.isExited then .noOp
  else .terminate

theorem classifyKill_eq_terminate_iff : classifyKill target = .terminate ↔
      target.isSelf = false ∧ target.runningRemote = false ∧ target.isExited = false := by
  obtain ⟨a, b, c⟩ := target
  cases a <;> cases b <;> cases c <;> simp [classifyKill]

variable {step : Nat} {a b c : Candidate}

/-! ### The pick -/

theorem Candidate.le_trans (hab : a.le now step b = true) (hbc : b.le now step c = true) : a.le now step c = true := by
  simp only [Candidate.le, Bool.or_eq_true, Bool.and_eq_true, decide_eq_true_eq, beq_iff_eq] at *
  omega

theorem Candidate.le_total (h : a.le now step b = false) : b.le now step a = true := by
  simp only [Candidate.le, Bool.or_eq_false_iff, Bool.or_eq_true, Bool.and_eq_true, Bool.and_eq_false_iff,
    decide_eq_true_eq, decide_eq_false_iff_not, beq_iff_eq, beq_eq_false_iff_ne] at *
  omega

theorem foldl_best_greatest (now step : Nat) (cs : List Candidate) (b : Candidate) :
    ∃ m ∈ b :: cs, cs.foldl (best now step) (some b) = some m ∧ ∀ c ∈ b :: cs, c.le now step m = true := by
  induction cs generalizing b with
  | nil =>
    refine ⟨b, mem_cons_self, rfl, fun c hc => ?_⟩
    obtain rfl := mem_singleton.mp hc
    simp [Candidate.le]
  | cons d cs ih =>
    rw [foldl_cons]
    simp only [best]
    split
    · next hle =>
      obtain ⟨m, hm, hfold, hgreatest⟩ := ih d
      refine ⟨m, mem_cons_of_mem _ hm, hfold, forall_mem_cons.mpr ⟨?_, hgreatest⟩⟩
      exact Candidate.le_trans hle (hgreatest d mem_cons_self)
    next hlt =>
    obtain ⟨m, hm, hfold, hgreatest⟩ := ih b
    have hb := hgreatest b mem_cons_self
    refine ⟨m, ?_, hfold, forall_mem_cons.mpr ⟨hb, forall_mem_cons.mpr
      ⟨Candidate.le_trans (Candidate.le_total (Bool.eq_false_iff.mpr hlt)) hb, fun c hc => hgreatest c (mem_cons_of_mem _ hc)⟩⟩⟩
    rcases mem_cons.mp hm with rfl | hm
    · exact mem_cons_self
    · exact mem_cons_of_mem _ (mem_cons_of_mem _ hm)

theorem pickNext_greatest (now step : Nat) (hc : c ∈ cs) :
    ∃ m ∈ cs, pickNext cs now step = some m.id ∧ c.le now step m = true := by
  cases cs with
  | nil => exact absurd hc not_mem_nil
  | cons b cs =>
    obtain ⟨m, hm, hfold, hgreatest⟩ := foldl_best_greatest now step cs b
    refine ⟨m, hm, ?_, hgreatest c hc⟩
    rw [pickNext, foldl_cons]
    simp only [best]
    rw [hfold]
    rfl

theorem pickNext_cases (cs : List Candidate) (now step : Nat) : (cs = [] ∧ pickNext cs now step = none) ∨
      ∃ c ∈ cs, pickNext cs now step = some c.id := by
  cases cs with
  | nil => exact .inl ⟨rfl, rfl⟩
  | cons b cs =>
    obtain ⟨m, hm, hpick, -⟩ := pickNext_greatest now step (mem_cons_self (a := b) (l := cs))
    exact .inr ⟨m, hm, hpick⟩

/-! ### Equal priorities -/

theorem Candidate.effective_antitone (now step : Nat) (hbase : c.base = b.base)
    (htick : b.enqueuedTick ≤ c.enqueuedTick) : c.effective now step ≤ b.effective now step := by
  unfold effective agedPriority
  rw [hbase]
  split
  · exact le_rfl
  have hwait := Nat.div_le_div_right (c := step) (Nat.sub_le_sub_left htick now)
  omega

theorem foldl_best_same_base (now step : Nat) (cs : List Candidate) (b : Candidate)
    (hbase : ∀ c ∈ cs, c.base = b.base) (hticks : (b :: cs).Pairwise (·.enqueuedTick ≤ ·.enqueuedTick)) :
    cs.foldl (best now step) (some b) = ((b :: cs).filter (·.enqueuedTick = b.enqueuedTick)).getLast? := by
  induction cs generalizing b with
  | nil => simp
  | cons d cs ih =>
    obtain ⟨hfirst, hrest⟩ := pairwise_cons.mp hticks
    have hd := hfirst d mem_cons_self
    have hle := Candidate.effective_antitone now step (hbase d mem_cons_self) hd
    rw [foldl_cons]
    by_cases htick : d.enqueuedTick = b.enqueuedTick
    · have hge := Candidate.effective_antitone now step (hbase d mem_cons_self).symm htick.le
      have hnext : best now step (some b) d = some d := by
        simp [best, Candidate.le, Nat.le_antisymm hge hle, htick]
      rw [hnext, ih d (fun c hc => (hbase c (mem_cons_of_mem _ hc)).trans (hbase d mem_cons_self).symm) hrest, htick]
      simp [htick, getLast?_cons_cons]
    · have hlt : b.enqueuedTick < d.enqueuedTick := by omega
      have hless : b.le now step d = false := by
        simp only [Candidate.le, Bool.or_eq_false_iff, Bool.and_eq_false_iff, decide_eq_false_iff_not]
        omega
      have hnext : best now step (some b) d = some b := by simp [best, hless]
      rw [hnext, ih b (fun c hc => hbase c (mem_cons_of_mem _ hc))
        (pairwise_cons.mpr ⟨fun c hc => hfirst c (mem_cons_of_mem _ hc), hrest.of_cons⟩)]
      simp [htick]

namespace Runqueue

def ids (queue : List Candidate) : List TaskId := queue.map (·.id)

@[simp] theorem ids_nil : ids [] = [] := rfl

@[simp] theorem ids_append (p q : List Candidate) : ids (p ++ q) = ids p ++ ids q := map_append

@[simp] theorem ids_singleton (c : Candidate) : ids [c] = [c.id] := rfl

theorem ids_remove (queue : List Candidate) (id : TaskId) : ids (remove queue id) = (ids queue).erase id := by
  induction queue with
  | nil => rfl
  | cons c rest ih =>
    by_cases hc : c.id = id
    · simp [ids, remove, hc]
    have hne : (c.id == id) = false := by simpa using hc
    simp only [ids, remove, eraseP_cons, hne, map_cons, erase_cons] at ih ⊢
    simpa using ih

end Runqueue

end SnitchOs.Sched
