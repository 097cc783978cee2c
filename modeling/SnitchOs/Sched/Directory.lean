import Mathlib.Logic.Function.Basic
import SnitchOs.Cap.Object

/-!
# The task directory

A map from ids to slots stands beside the scheduler's vector of tasks, so that a lookup is one probe.
-/

namespace SnitchOs.Sched

open Function List

/-- A task is its id and the rest of it. -/
structure TaskTable (α : Type*) where
  tasks : List (TaskId × α) := []
  slots : TaskId → Option Nat := fun _ => none

namespace TaskTable

variable {α : Type*} (t : TaskTable α)

def insertTask (task : TaskId × α) : TaskTable α where
  slots := update t.slots task.1 (some t.tasks.length)
  tasks := t.tasks ++ [task]

/-- `none` is an index out of bounds. -/
def task (id : TaskId) : Option (Option (TaskId × α)) :=
  match t.slots id with
  | none => some none
  | some slot => t.tasks[slot]?.map some

def swapRemove (slots : TaskId → Option Nat) (removed moved : TaskId) : TaskId → Option Nat :=
  match slots removed with
  | none => slots
  | some slot =>
    if moved ≠ removed then update (update slots removed none) moved (some slot) else update slots removed none

/-- `none` is a panic. -/
def swapRemoveTask (id : TaskId) : Option (Option (TaskId × α) × TaskTable α) :=
  match t.slots id with
  | none => some (none, t)
  | some slot => do
    let last ← t.tasks.getLast?
    let task ← t.tasks[slot]?
    some (some task, ⟨(t.tasks.set slot last).dropLast, swapRemove t.slots id last.1⟩)

/-- The tables after insertions of fresh ids and removals. -/
inductive Reached {α : Type*} : TaskTable α → Prop
  | new : Reached {}
  | insert {t : TaskTable α} (x : TaskId × α) (h : Reached t) (hfresh : ∀ y ∈ t.tasks, y.1 ≠ x.1) : Reached (t.insertTask x)
  | remove {t : TaskTable α} (id : TaskId) (h : Reached t) (hrun : t.swapRemoveTask id = some (out, t')) : Reached t'

def Mirrors : Prop := ∀ id i, t.slots id = some i ↔ t.tasks[i]?.map Prod.fst = some id

variable {t} {id : TaskId}

theorem Mirrors.insertTask (h : t.Mirrors) (hfresh : ∀ y ∈ t.tasks, y.1 ≠ x.1) : (t.insertTask x).Mirrors := by
  intro id i
  have hid := h id i
  simp only [TaskTable.insertTask, update_apply, getElem?_append]
  grind

theorem Mirrors.swapRemoveTask (h : t.Mirrors) (hid : t.slots id = some slot) :
    ∃ task t', t.swapRemoveTask id = some (some task, t') ∧ t'.Mirrors := by
  obtain ⟨task, hslot, htask⟩ := Option.map_eq_some_iff.1 ((h id slot).1 hid)
  have hlt := (List.getElem?_eq_some_iff.1 hslot).1
  have hlast : t.tasks.getLast? = t.tasks[t.tasks.length - 1]? := getLast?_eq_getElem?
  rw [List.getElem?_eq_getElem (by omega)] at hlast
  simp only [TaskTable.swapRemoveTask, hid, hlast, hslot]
  refine ⟨_, _, rfl, fun id' i => ?_⟩
  have hmoved := h t.tasks[t.tasks.length - 1].1 (t.tasks.length - 1)
  have hi := h id' i
  have hi' := h id i
  simp only [swapRemove, hid, getElem?_dropLast, getElem?_set]
  grind

theorem Reached.mirrors (h : Reached t) : t.Mirrors := by
  induction h with
  | new => simp [Mirrors]
  | insert x _ hfresh ih => exact ih.insertTask hfresh
  | @remove _ _ t id _ hrun ih =>
    cases hid : t.slots id with
    | none => simp_all [TaskTable.swapRemoveTask]
    | some slot =>
      obtain ⟨_, _, hrun', hm⟩ := ih.swapRemoveTask hid
      simp_all

theorem Mirrors.task (h : t.Mirrors) (id : TaskId) :
    ∃ found, t.task id = some found ∧ ∀ x, found = some x ↔ x ∈ t.tasks ∧ x.1 = id := by
  cases hid : t.slots id with
  | none =>
    refine ⟨none, by simp [TaskTable.task, hid], fun x => ⟨by simp, ?_⟩⟩
    rintro ⟨hx, he⟩
    obtain ⟨i, hi⟩ := mem_iff_getElem?.1 hx
    have := (h id i).2 (by simp [hi, he])
    simp_all
  | some slot =>
    obtain ⟨y, hy, rfl⟩ := Option.map_eq_some_iff.1 ((h id slot).1 hid)
    refine ⟨y, by simp [TaskTable.task, hid, hy], fun x => ⟨?_, ?_⟩⟩
    · rintro ⟨⟩
      exact ⟨mem_of_getElem? hy, rfl⟩
    rintro ⟨hx, he⟩
    obtain ⟨i, hi⟩ := mem_iff_getElem?.1 hx
    have := (h y.1 i).2 (by simp [hi, he])
    simp_all

/-- In every table the directory names each task's slot and no other. So a lookup stays in bounds and finds the task
of its id, and removing an absent id changes nothing. -/
theorem directory_mirrors (h : Reached t) : (∀ id i, t.slots id = some i ↔ t.tasks[i]?.map Prod.fst = some id) ∧
    (∀ id, ∃ found, t.task id = some found ∧ ∀ x, found = some x ↔ x ∈ t.tasks ∧ x.1 = id) ∧
    ∀ id, (t.swapRemoveTask id).isSome ∧ ((∀ x ∈ t.tasks, x.1 ≠ id) → t.swapRemoveTask id = some (none, t)) := by
  have hm := h.mirrors
  refine ⟨hm, hm.task, fun id => ?_⟩
  cases hid : t.slots id with
  | none => simp [TaskTable.swapRemoveTask, hid]
  | some slot =>
    obtain ⟨_, _, hrun, _⟩ := hm.swapRemoveTask hid
    obtain ⟨x, hx, he⟩ := Option.map_eq_some_iff.1 ((hm id slot).1 hid)
    exact ⟨by simp [hrun], fun habsent => absurd he (habsent x (mem_of_getElem? hx))⟩

/-- Two tasks, of which the first is removed. -/
theorem directory_mirrors_moved : ∃ t : TaskTable Unit, t.tasks = [(2, ())] ∧ t.slots 2 = some 0 := by
  have h := Reached.remove 1 ((Reached.new.insert (1, ()) (by simp)).insert (2, ()) (by decide)) rfl
  exact ⟨_, rfl, ((directory_mirrors h).1 2 0).2 rfl⟩

end TaskTable

end SnitchOs.Sched
