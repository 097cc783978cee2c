import SnitchOs.Lib.Runs
import SnitchOs.Sched.Timeout

/-!
# When timeouts fire

Runs of a timeout queue under any sequence of inserts, cancels and drains. The boundary of a drain is
`now + 1`, saturated: the last deadline there is never comes before it.
-/

namespace SnitchOs.Sched

open List

inductive TimeoutOp
  | insert (deadline : Nat) (task : TaskId)
  | remove (task : TaskId)
  | drainExpired (now : Nat)
deriving DecidableEq

/-- The operation cancels the entry, or drains the queue when the entry is due. -/
def TimeoutOp.Ends (e : Nat × TaskId) : TimeoutOp → Prop
  | .insert .. => False
  | .remove task => task = e.2
  | .drainExpired now => e.1 ≤ now

namespace TimeoutQueue

def apply (q : TimeoutQueue) : TimeoutOp → List TaskId × TimeoutQueue
  | .insert deadline task => ([], q.insert deadline task)
  | .remove task => ([], q.remove task)
  | .drainExpired now => q.drainExpired now

def stateAt (ops : List TimeoutOp) (k : Nat) : TimeoutQueue := (ops.take k).foldl (fun q op => (q.apply op).2) {}

def firedAt (ops : List TimeoutOp) (k : Nat) : List TaskId :=
  (ops[k]?.map fun op => ((stateAt ops k).apply op).1).getD []

variable {a b : Nat × Nat} {deadline now k : Nat} {task t : TaskId} {e : Nat × TaskId}
  {op : TimeoutOp}

/-! ### The order -/

theorem before_iff : before a b = true ↔ a.1 < b.1 ∨ a.1 = b.1 ∧ a.2 < b.2 := by
  simp [before]

theorem before_trans (hab : before a b = true) (hbc : before b c = true) : before a c = true := by
  rw [before_iff] at *
  omega

theorem before_ne (h : before a b = true) : a ≠ b := by
  rintro rfl
  rw [before_iff] at h
  omega

theorem before_total (h : a ≠ b) : before a b = true ∨ before b a = true := by
  obtain ⟨d, t⟩ := a
  obtain ⟨d', t'⟩ := b
  simp only [before_iff, ne_eq, Prod.mk.injEq] at h ⊢
  omega

theorem mem_insert {q : TimeoutQueue} : e ∈ (q.insert deadline task).entries ↔ e = (deadline, task) ∨ e ∈ q.entries := by
  simp only [insert, mem_append, mem_filter, mem_cons]
  constructor
  · rintro (h | h | h)
    · exact .inr h.1
    · exact .inl h
    · exact .inr h.1
  · rintro (h | h)
    · exact .inr (.inl h)
    by_cases he : e = (deadline, task)
    · exact .inr (.inl he)
    rcases before_total he with hb | hb
    · exact .inl ⟨h, hb⟩
    · exact .inr (.inr ⟨h, hb⟩)

/-- Below the last deadline, the boundary of a drain separates what is due. -/
theorem lt_saturatingSucc (hd : d < 2 ^ 64 - 1) : d < saturatingSucc now ↔ d ≤ now := by
  unfold saturatingSucc
  omega

/-! ### What every operation keeps -/

/-- A deadline is below the last one, and a task that is inserted has no entry. -/
def Allowed (q : TimeoutQueue) : TimeoutOp → Prop
  | .insert deadline task => deadline < 2 ^ 64 - 1 ∧ ∀ d, (d, task) ∉ q.entries
  | _ => True

/-- The entries are in order, a task has one at most, and none has the last deadline. -/
structure Kept (q : TimeoutQueue) : Prop where
  sorted : q.entries.Pairwise (before · · = true)
  one : ∀ e ∈ q.entries, ∀ e' ∈ q.entries, e.2 = e'.2 → e = e'
  below : ∀ e ∈ q.entries, e.1 < 2 ^ 64 - 1

namespace Kept

variable {q : TimeoutQueue}

theorem filter (h : q.Kept) (p : Nat × TaskId → Bool) : Kept { entries := q.entries.filter p } where
  sorted := h.sorted.filter p
  one e he e' he' := h.one e (mem_of_mem_filter he) e' (mem_of_mem_filter he')
  below e he := h.below e (mem_of_mem_filter he)

theorem insert (h : q.Kept) (hlt : deadline < 2 ^ 64 - 1)
    (hnew : ∀ d, (d, task) ∉ q.entries) : (q.insert deadline task).Kept where
  sorted := by
    refine pairwise_append.mpr ⟨h.sorted.filter _, pairwise_cons.mpr ⟨fun e he => ?_, h.sorted.filter _⟩, fun a ha b hb => ?_⟩
    · exact (mem_filter.mp he).2
    have hax := (mem_filter.mp ha).2
    rcases mem_cons.mp hb with rfl | hb
    · exact hax
    · exact before_trans hax (mem_filter.mp hb).2
  one := by
    rintro ⟨d, t⟩ he ⟨d', t'⟩ he' htask
    obtain rfl : t = t' := htask
    rcases mem_insert.mp he with he | he <;> rcases mem_insert.mp he' with he' | he'
    · exact he.trans he'.symm
    · cases he
      exact absurd he' (hnew _)
    · cases he'
      exact absurd he (hnew _)
    · exact h.one _ he _ he' rfl
  below e he := (mem_insert.mp he).elim (fun heq => heq ▸ hlt) (h.below e)

theorem apply (h : q.Kept) (hop : q.Allowed op) : (q.apply op).2.Kept := by
  cases op with
  | insert deadline task => exact h.insert hop.1 hop.2
  | remove task | drainExpired now => exact h.filter _

theorem drainExpired (h : q.Kept) (now : Nat) :
    q.drainExpired now = ((q.entries.filter (·.1 ≤ now)).map (·.2), { entries := q.entries.filter (now < ·.1) }) := by
  have hdue : ∀ e ∈ q.entries, decide (e.1 < saturatingSucc now) = decide (e.1 ≤ now) := fun e he =>
    decide_eq_decide.mpr (lt_saturatingSucc (h.below e he))
  have hrest : ∀ e ∈ q.entries, decide (¬ e.1 < saturatingSucc now) = decide (now < e.1) := fun e he =>
    decide_eq_decide.mpr ((lt_saturatingSucc (h.below e he)).not.trans Nat.not_le)
  rw [TimeoutQueue.drainExpired, filter_congr hdue, filter_congr hrest]

end Kept

/-! ### Runs -/

section Run

variable (hops : ∀ k op, ops[k]? = some op → (stateAt ops k).Allowed op)

theorem stateAt_succ (hk : ops[k]? = some op) : stateAt ops (k + 1) = ((stateAt ops k).apply op).2 := Runs.foldl_take_of_some hk

theorem absent (h : ∀ d, (d, t) ∉ (stateAt ops k).entries)
    (hno : ∀ d, ops[k]? ≠ some (.insert d t)) : ∀ d, (d, t) ∉ (stateAt ops (k + 1)).entries := by
  intro d hd
  cases hk : ops[k]? with
  | none =>
    rw [stateAt, Runs.foldl_take_of_none hk] at hd
    exact h d hd
  | some op =>
    rw [stateAt_succ hk] at hd
    cases op with
    | insert d' t' =>
      rcases mem_insert.mp hd with heq | hd
      · cases heq
        exact hno d hk
      · exact h d hd
    | remove t' | drainExpired now => exact h d (mem_of_mem_filter hd)

theorem absent_until (h : ∀ d, (d, t) ∉ (stateAt ops j).entries) (hjk : j ≤ k)
    (hno : ∀ l, j ≤ l → l < k → ∀ d, ops[l]? ≠ some (.insert d t)) : ∀ d, (d, t) ∉ (stateAt ops k).entries := by
  induction k, hjk using Nat.le_induction with
  | base => exact h
  | succ k hjk ih => exact absent (ih fun l hjl hlk => hno l hjl (by omega)) (hno k hjk (by omega))

include hops

theorem kept (k : Nat) : (stateAt ops k).Kept :=
  Runs.invariant_take ⟨.nil, by simp, by simp⟩ (fun _ _ hq hop => hq.apply hop) hops k

theorem firedAt_drain (hk : ops[k]? = some (.drainExpired now)) :
    firedAt ops k = ((stateAt ops k).entries.filter (·.1 ≤ now)).map (·.2) := by
  simp [firedAt, hk, Option.map_some, Option.getD_some, apply, (kept hops k).drainExpired]

theorem stays (he : e ∈ (stateAt ops k).entries)
    (hno : ∀ op, ops[k]? = some op → ¬ op.Ends e) : e ∈ (stateAt ops (k + 1)).entries := by
  cases hk : ops[k]? with
  | none => rwa [stateAt, Runs.foldl_take_of_none hk]
  | some op =>
    have hno := hno op hk
    rw [stateAt_succ hk]
    cases op with
    | insert d t => exact mem_insert.mpr (.inr he)
    | remove t => exact mem_filter.mpr ⟨he, decide_eq_true (Ne.symm hno)⟩
    | drainExpired now =>
      rw [apply, (kept hops k).drainExpired]
      exact mem_filter.mpr ⟨he, decide_eq_true (Nat.lt_of_not_le hno)⟩

theorem stays_until (he : e ∈ (stateAt ops i).entries) (hik : i ≤ k)
    (hno : ∀ l, i ≤ l → l < k → ∀ op, ops[l]? = some op → ¬ op.Ends e) : e ∈ (stateAt ops k).entries := by
  induction k, hik using Nat.le_induction with
  | base => exact he
  | succ k hik ih => exact stays hops (ih fun l hil hlk => hno l hil (by omega)) (hno k hik (by omega))

theorem mem_firedAt (h : t ∈ firedAt ops k) :
    ∃ now d, ops[k]? = some (.drainExpired now) ∧ (d, t) ∈ (stateAt ops k).entries ∧ d ≤ now := by
  cases hk : ops[k]? with
  | none => simp [firedAt, hk] at h
  | some op =>
    cases op with
    | drainExpired now =>
      rw [firedAt_drain hops hk] at h
      obtain ⟨⟨d, t⟩, he, rfl⟩ := mem_map.mp h
      obtain ⟨he, hle⟩ := mem_filter.mp he
      exact ⟨now, d, rfl, he, of_decide_eq_true hle⟩
    | _ => simp [firedAt, hk, apply] at h

end Run

/-- For every run of inserts below the last deadline, of tasks that have no entry, and of cancels and
drains: a drain lists the tasks that are due in the order of their entries and leaves the later entries; and
an entry that is not cancelled is returned by the first drain that comes when it is due, once, by none
before, and by none after until its task is inserted again. -/
theorem timeouts_fire_once {ops : List TimeoutOp}
    (hops : ∀ k op, ops[k]? = some op → (stateAt ops k).Allowed op) :
    (∀ j now, ops[j]? = some (.drainExpired now) →
      ∃ due : List (Nat × TaskId), firedAt ops j = due.map (·.2) ∧ due.Pairwise (before · · = true) ∧
        (∀ e, e ∈ due ↔ e ∈ (stateAt ops j).entries ∧ e.1 ≤ now) ∧
        (stateAt ops (j + 1)).entries = (stateAt ops j).entries.filter (now < ·.1)) ∧
    ∀ i j deadline task now, ops[i]? = some (.insert deadline task) → i < j →
      ops[j]? = some (.drainExpired now) → deadline ≤ now →
      (∀ k, i < k → k < j → ∀ op, ops[k]? = some op → ¬ op.Ends (deadline, task)) →
      (firedAt ops j).count task = 1 ∧ (∀ k, i < k → k < j → task ∉ firedAt ops k) ∧
        ∀ k, j < k → (∀ l, j < l → l < k → ∀ d, ops[l]? ≠ some (.insert d task)) → task ∉ firedAt ops k := by
  constructor
  · intro j now hj
    refine ⟨(stateAt ops j).entries.filter (·.1 ≤ now), firedAt_drain hops hj, (kept hops j).sorted.filter _,
      fun e => by simp, ?_⟩
    rw [stateAt_succ hj, apply, (kept hops j).drainExpired]
  intro i j deadline task now hi hij hj hdue hwait
  have hinserted : (deadline, task) ∈ (stateAt ops (i + 1)).entries := by
    rw [stateAt_succ hi]
    exact mem_insert.mpr (.inl rfl)
  have hwaits : ∀ k, i < k → k ≤ j → (deadline, task) ∈ (stateAt ops k).entries := fun k hik hkj =>
    stays_until hops hinserted hik fun l hil hlk => hwait l hil (by omega)
  refine ⟨?_, fun k hik hkj hfired => ?_, fun k hjk hno hfired => ?_⟩
  · rw [firedAt_drain hops hj]
    have hnodup : ((stateAt ops j).entries.filter (·.1 ≤ now)).Nodup :=
      ((kept hops j).sorted.imp before_ne).filter _
    refine count_eq_one_of_mem (hnodup.map_on fun e he e' he' => ?_) ?_
    · exact (kept hops j).one e (mem_of_mem_filter he) e' (mem_of_mem_filter he')
    · exact mem_map.mpr ⟨_, mem_filter.mpr ⟨hwaits j hij le_rfl, decide_eq_true hdue⟩, rfl⟩
  · obtain ⟨now', d, hk, hd, hle⟩ := mem_firedAt hops hfired
    cases (kept hops k).one _ hd _ (hwaits k hik hkj.le) rfl
    exact hwait k hik hkj _ hk hle
  have hgone : ∀ d, (d, task) ∉ (stateAt ops (j + 1)).entries := by
    intro d hd
    rw [stateAt_succ hj, apply, (kept hops j).drainExpired] at hd
    obtain ⟨hd, hlt⟩ := mem_filter.mp hd
    cases (kept hops j).one _ hd _ (hwaits j hij le_rfl) rfl
    exact absurd (of_decide_eq_true hlt) (Nat.not_lt.mpr hdue)
  obtain ⟨-, d, -, hd, -⟩ := mem_firedAt hops hfired
  exact absent_until hgone hjk hno d hd

theorem timeouts_fire_once_hundred :
    (firedAt [.insert 100 1, .drainExpired 99, .drainExpired 100] 2).count 1 = 1 :=
  have hops : ∀ k op, [TimeoutOp.insert 100 1, .drainExpired 99, .drainExpired 100][k]? = some op →
      (stateAt [.insert 100 1, .drainExpired 99, .drainExpired 100] k).Allowed op := by
    rintro (_ | _ | _ | k) op hk
    · cases hk
      exact ⟨by decide, fun _ => not_mem_nil⟩
    · cases hk
      trivial
    · cases hk
      trivial
    · simp at hk
  ((timeouts_fire_once hops).2 0 2 100 1 100 rfl (by decide) rfl le_rfl (by
    intro k hk hk' op hop
    obtain rfl : k = 1 := by omega
    cases hop
    exact Nat.not_le.mpr (by decide : 99 < 100))).1

/-- The last deadline there is: it is not returned by the last drain there can be. -/
theorem last_deadline_never_fires :
    firedAt [.insert (2 ^ 64 - 1) 1, .drainExpired (2 ^ 64 - 1)] 1 = [] ∧
      ((stateAt [.insert (2 ^ 64 - 1) 1, .drainExpired (2 ^ 64 - 1)] 2).entries = [(2 ^ 64 - 1, 1)]) := by
  decide

end TimeoutQueue

end SnitchOs.Sched
