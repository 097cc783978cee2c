import SnitchOs.Cap.Object

/-!
# The reaping table

Zombies with their statuses, the parent blocked on a given child, the parentage of spawned children,
and the parents blocked on any child. `exited` stands in the order of the child ids, as the source's
ordered map does; the other two maps are only ever looked up by key.
-/

namespace SnitchOs.Sched

open Function

inductive WaitStep
  | ready (status : Int)
  | block
deriving DecidableEq

inductive WaitAnyStep
  | ready (child : TaskId) (status : Int)
  | block
deriving DecidableEq

structure ReapTable where
  exited : List (TaskId × Int) := []
  waiters : TaskId → Option TaskId := fun _ => none
  parents : TaskId → Option TaskId := fun _ => none
  anyWaiters : TaskId → Bool := fun _ => false

namespace ReapTable

/-- Insert into the ordered map of zombies. -/
def insertExited (exited : List (TaskId × Int)) (child : TaskId) (status : Int) : List (TaskId × Int) :=
  exited.filter (·.1 < child) ++ (child, status) :: exited.filter (child < ·.1)

def reap (r : ReapTable) (child : TaskId) : ReapTable :=
  { r with
    exited := r.exited.filter (·.1 ≠ child)
    parents := update r.parents child none }

def onWait (r : ReapTable) (parent child : TaskId) : WaitStep × ReapTable :=
  match r.exited.lookup child with
  | some status => (.ready status, r.reap child)
  | none => (.block, { r with waiters := update r.waiters child (some parent) })

def onSpawn (r : ReapTable) (parent child : TaskId) : ReapTable :=
  { r with parents := update r.parents child (some parent) }

def onWaitAny (r : ReapTable) (parent : TaskId) : WaitAnyStep × ReapTable :=
  match r.exited.find? fun z => r.parents z.1 == some parent with
  | some (child, status) => (.ready child status, r.reap child)
  | none => (.block, { r with anyWaiters := update r.anyWaiters parent true })

def cancelWaitAny (r : ReapTable) (parent : TaskId) : ReapTable :=
  { r with anyWaiters := update r.anyWaiters parent false }

/-- Record the zombie; the waiter on `child` is to be woken, failing that its any-waiting parent. -/
def onExit (r : ReapTable) (child : TaskId) (status : Int) : Option TaskId × ReapTable :=
  let r := { r with exited := insertExited r.exited child status }
  match r.waiters child with
  | some parent => (some parent, { r with waiters := update r.waiters child none })
  | none =>
    match r.parents child with
    | none => (none, r)
    | some parent =>
      if r.anyWaiters parent then
        (some parent, { r with anyWaiters := update r.anyWaiters parent false })
      else (none, r)

/-- An exit answers the child's waiter, failing that its any-waiting parent, failing that nobody. -/
theorem onExit_cases (r : ReapTable) (child : TaskId) (status : Int) :
    (∃ p, r.waiters child = some p ∧ r.onExit child status = (some p, { r with
        exited := insertExited r.exited child status
        waiters := update r.waiters child none })) ∨
    (∃ p, r.waiters child = none ∧ r.parents child = some p ∧ r.anyWaiters p = true ∧ r.onExit child status = (some p, { r with
        exited := insertExited r.exited child status
        anyWaiters := update r.anyWaiters p false })) ∨
    (r.waiters child = none ∧ (∀ p, r.parents child = some p → r.anyWaiters p = false) ∧
      r.onExit child status = (none, { r with exited := insertExited r.exited child status })) := by
  unfold onExit
  cases hw : r.waiters child with
  | some p => exact .inl ⟨p, rfl, by simp [hw]⟩
  | none =>
    right
    cases hp : r.parents child with
    | none => exact .inr ⟨rfl, by simp, by simp [hw, hp]⟩
    | some p =>
      cases ha : r.anyWaiters p with
      | true => exact .inl ⟨p, rfl, rfl, ha, by simp [hw, hp, ha]⟩
      | false =>
        refine .inr ⟨rfl, ?_, by simp [hw, hp, ha]⟩
        rintro q hq
        cases hq
        exact ha

variable {r : ReapTable} {parent c p t : TaskId}

theorem parents_onWait (h : (r.onWait parent child).2.parents c = some p) : r.parents c = some p := by
  unfold onWait at h
  split at h
  · by_cases hc : c = child
    · simp [reap, hc] at h
    · simpa [reap, hc] using h
  · exact h

theorem parents_onWaitAny (h : (r.onWaitAny parent).2.parents c = some p) : r.parents c = some p := by
  unfold onWaitAny at h
  split at h
  · next child _ _ =>
    by_cases hc : c = child
    · simp [reap, hc] at h
    · simpa [reap, hc] using h
  · exact h

theorem parents_onExit (r : ReapTable) (child : TaskId) (status : Int) : (r.onExit child status).2.parents = r.parents := by
  rcases r.onExit_cases child status with ⟨p, -, h⟩ | ⟨p, -, -, -, h⟩ | ⟨-, -, h⟩ <;> rw [h]

/-! ### A task that never waited -/

def forget (r : ReapTable) (t : TaskId) : ReapTable :=
  { r with
    waiters := fun c => if r.waiters c = some t then none else r.waiters c
    anyWaiters := update r.anyWaiters t false }

theorem waiters_onExit_of_ne (r : ReapTable) (child : TaskId) (status : Int) (hc : c ≠ child) :
    (r.onExit child status).2.waiters c = r.waiters c := by
  rcases r.onExit_cases child status with ⟨p, -, h⟩ | ⟨p, -, -, -, h⟩ | ⟨-, -, h⟩ <;> simp [h, hc]

theorem waiters_onExit_self (r : ReapTable) (child : TaskId) (status : Int) : (r.onExit child status).2.waiters child = none := by
  rcases r.onExit_cases child status with ⟨p, -, h⟩ | ⟨p, hw, -, -, h⟩ | ⟨hw, -, h⟩
  · simp [h]
  · simp [h, hw]
  · simp [h, hw]

theorem anyWaiters_onExit_of_ne_parent (r : ReapTable) (child : TaskId) (status : Int)
    (ht : r.parents child ≠ some t) : (r.onExit child status).2.anyWaiters t = r.anyWaiters t := by
  rcases r.onExit_cases child status with ⟨p, -, h⟩ | ⟨p, -, hp, -, h⟩ | ⟨-, -, h⟩
  · rw [h]
  · have hne : t ≠ p := by
      rintro rfl
      exact ht hp
    simp [h, hne]
  · rw [h]

/-- The exit of a task whose only registered wait, if any, is on itself: the table ends up as if it
had not waited, and so does the wake, except that the task itself may be named. -/
theorem onExit_forget (status : Int) (hw : ∀ c, c ≠ t → r.waiters c ≠ some t) (ha : r.anyWaiters t = false)
    (hself : r.waiters t = some t → ∀ p, r.parents t = some p → r.anyWaiters p = false) :
    ((r.forget t).onExit t status).2 = (r.onExit t status).2 ∧ (((r.forget t).onExit t status).1 = (r.onExit t status).1 ∨
        ((r.forget t).onExit t status).1 = none ∧ (r.onExit t status).1 = some t) := by
  have hany : update r.anyWaiters t false = r.anyWaiters := by
    rw [← ha]
    exact update_eq_self t _
  by_cases hs : r.waiters t = some t
  · have hwaiters : (r.forget t).waiters = update r.waiters t none := by
      funext c
      by_cases hc : c = t
      · subst hc
        simp [forget, hs]
      · simp [forget, hc, hw c hc]
    have hforget : r.forget t = { r with waiters := update r.waiters t none } := by
      rw [← hwaiters]
      simp [forget, hany]
    have hex : r.onExit t status = (some t, { r with
        exited := insertExited r.exited t status
        waiters := update r.waiters t none }) := by
      simp [onExit, hs]
    rcases (r.forget t).onExit_cases t status with ⟨p, hp, h⟩ | ⟨p, -, hp, hap, h⟩ | ⟨-, -, h⟩
    · rw [hwaiters, update_self] at hp
      cases hp
    · rw [hforget] at hap hp
      rw [hself hs p hp] at hap
      cases hap
    · rw [h, hex, hforget]
      exact ⟨rfl, .inr ⟨rfl, rfl⟩⟩
  · have hforget : r.forget t = r := by
      have hwaiters : ∀ c, r.waiters c ≠ some t := fun c => by
        by_cases hc : c = t
        · rwa [hc]
        · exact hw c hc
      simp [forget, hany, hwaiters]
    rw [hforget]
    exact ⟨rfl, .inl rfl⟩

end ReapTable

end SnitchOs.Sched
