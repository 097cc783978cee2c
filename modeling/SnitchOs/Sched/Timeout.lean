import SnitchOs.Cap.Object

/-!
# The timeout queue

The deadlines of one hart's timed waits: a set of `(deadline, task)` pairs, kept in order.
-/

namespace SnitchOs.Sched

/-- `u64::saturating_add(1)`. -/
def saturatingSucc (n : Nat) : Nat := min (n + 1) (2 ^ 64 - 1)

structure TimeoutQueue where
  entries : List (Nat × TaskId) := []
deriving DecidableEq

namespace TimeoutQueue

def before (a b : Nat × TaskId) : Bool := a.1 < b.1 || a.1 == b.1 && a.2 < b.2

def insert (q : TimeoutQueue) (deadline : Nat) (task : TaskId) : TimeoutQueue where
  entries := q.entries.filter (before · (deadline, task)) ++
    (deadline, task) :: q.entries.filter (before (deadline, task) ·)

def remove (q : TimeoutQueue) (task : TaskId) : TimeoutQueue where
  entries := q.entries.filter (·.2 ≠ task)

/-- Split off everything before `(now + 1, 0)`. -/
def drainExpired (q : TimeoutQueue) (now : Nat) : List TaskId × TimeoutQueue :=
  ((q.entries.filter (·.1 < saturatingSucc now)).map (·.2),
    { entries := q.entries.filter (¬ ·.1 < saturatingSucc now) })

theorem remove_eq_self {q : TimeoutQueue} (h : ∀ d, (d, task) ∉ q.entries) : q.remove task = q := by
  obtain ⟨entries⟩ := q
  simp only [remove, TimeoutQueue.mk.injEq, List.filter_eq_self]
  rintro ⟨d, t⟩ hm
  have hne : t ≠ task := by
    rintro rfl
    exact h d hm
  simpa using hne

end TimeoutQueue

end SnitchOs.Sched
