import SnitchOs.Cap.Object

/-!
# The notification object

One word of pending bits and at most one registered waiter. `signal` never clears the waiter; `wait`,
`takePending` and `cancelWait` all may.
-/

namespace SnitchOs.Notify

inductive SignalStep
  | woke (waiter : TaskId)
  | noWaiter
deriving DecidableEq

inductive WaitStep
  | ready (bits : UInt64)
  | block
  | busy
deriving DecidableEq

structure Notification where
  pending : UInt64 := 0
  waiter : Option TaskId := none
deriving DecidableEq

namespace Notification

def signal (n : Notification) (mask : UInt64) : SignalStep × Notification :=
  (match n.waiter with
    | some id => .woke id
    | none => .noWaiter,
    { n with pending := n.pending ||| mask })

def wait (n : Notification) (caller : TaskId) : WaitStep × Notification :=
  if n.pending ≠ 0 then (.ready n.pending, { pending := 0, waiter := none })
  else if n.waiter.isSome then (.busy, n)
  else (.block, { n with waiter := some caller })

def takePending (n : Notification) : Option UInt64 × Notification :=
  if n.pending ≠ 0 then (some n.pending, { pending := 0, waiter := none }) else (none, n)

def cancelWait (n : Notification) (caller : TaskId) : Notification :=
  if n.waiter = some caller then { n with waiter := none } else n

/-- `wait` takes pending bits, registers on an empty slot, or is refused and changes nothing. -/
theorem wait_cases (n : Notification) (caller : TaskId) :
    (n.pending ≠ 0 ∧ n.wait caller = (.ready n.pending, { pending := 0, waiter := none })) ∨
      (n.pending = 0 ∧ n.waiter = none ∧ n.wait caller = (.block, { n with waiter := some caller })) ∨
      (n.pending = 0 ∧ n.waiter.isSome ∧ n.wait caller = (.busy, n)) := by
  unfold wait
  by_cases hp : n.pending = 0
  · cases hw : n.waiter with
    | none | some w => simp [hp]
  · simp [hp]

theorem takePending_cases (n : Notification) :
    (n.pending ≠ 0 ∧ n.takePending = (some n.pending, { pending := 0, waiter := none })) ∨
      (n.pending = 0 ∧ n.takePending = (none, n)) := by
  unfold takePending
  by_cases hp : n.pending = 0
  · simp [hp]
  · simp [hp]

end Notification

end SnitchOs.Notify
