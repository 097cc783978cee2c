import SnitchOs.Lib.Machine
import SnitchOs.Sched.Runqueue

/-!
# Aging bounds overtaking

A ready queue over time: the clock advances, tasks are pushed, and a switch picks a task, takes it out and pushes the
outgoing one at the back, stamped with the time. A task that has waited two aging steps has the highest effective
priority there is, so only tasks queued no later are picked before it, and no such task arrives any more.

`aged_priority` adds the boost to the level in a `u64`. With one tick per level and a wait of nearly `2 ^ 64` ticks
the sum overflows; the pick is modelled with that.
-/

namespace SnitchOs.Sched

open Machine List Option Runqueue

/-! ### The pick on machine words -/

/-- `aged_priority` with its sum as the machine computes it; `none` is a panic. -/
def agedPriorityWord (checks : Bool) (base : Priority) (waitedTicks step : Nat) : Option Nat :=
  (usize checks (base.level + if step = 0 then 0 else waitedTicks / step)).map (min · Priority.high.level)

/-- `max_by_key` on candidates with their level: of several greatest, the last. -/
def bestKeyed (b : Option (Nat × Candidate)) (x : Nat × Candidate) : Option (Nat × Candidate) :=
  match b with
  | none => some x
  | some b =>
    if b.1 < x.1 || b.1 == x.1 && x.2.enqueuedTick ≤ b.2.enqueuedTick then some x else some b

def pickNextWord (checks : Bool) (candidates : List Candidate) (now step : Nat) : Option (Option TaskId) :=
  (candidates.mapM fun c => (agedPriorityWord checks c.base (now - c.enqueuedTick) step).map (·, c)).map
    fun keyed => (keyed.foldl bestKeyed none).map (·.2.id)

/-- The sum of `aged_priority` for `c` does not overflow. -/
def Candidate.Fits (now step : Nat) (c : Candidate) : Prop := c.base.level + (now - c.enqueuedTick) / step < 2 ^ 64

theorem agedPriorityWord_eq (hstep : 0 < step) (h : base.level + waited / step < 2 ^ 64) :
    agedPriorityWord checks base waited step = some (agedPriority base waited step) := by
  simp [agedPriorityWord, agedPriority, hstep.ne', usize_of_lt checks h, map_some]

theorem foldl_bestKeyed (now step : Nat) (cs : List Candidate) (b : Option Candidate) :
    (cs.map fun c => (c.effective now step, c)).foldl bestKeyed (b.map fun c => (c.effective now step, c)) =
      (cs.foldl (best now step) b).map fun c => (c.effective now step, c) := by
  induction cs generalizing b with
  | nil => rfl
  | cons c cs ih =>
    rw [map_cons, foldl_cons, foldl_cons, ← ih]
    congr 1
    cases b with
    | none => rfl
    | some b =>
      have hsame : bestKeyed (some (b.effective now step, b)) (c.effective now step, c) =
          if b.le now step c then some (c.effective now step, c) else some (b.effective now step, b) := rfl
      rw [map_some, hsame, best]
      split <;> rfl

variable {cs entries : List Candidate}

theorem pickNextWord_eq (checks : Bool) (hstep : 0 < step)
    (h : ∀ c ∈ cs, c.Fits now step) : pickNextWord checks cs now step = some (pickNext cs now step) := by
  have hkeys : (cs.mapM fun c => (agedPriorityWord checks c.base (now - c.enqueuedTick) step).map (·, c)) =
      some (cs.map fun c => (c.effective now step, c)) := by
    induction cs with
    | nil => rfl
    | cons c cs ih =>
      rw [mapM_cons, agedPriorityWord_eq hstep (h c mem_cons_self), ih fun d hd => h d (mem_cons_of_mem _ hd)]
      rfl
  rw [pickNextWord, hkeys, map_some]
  have hfold := foldl_bestKeyed now step cs none
  rw [map_none] at hfold
  rw [hfold, pickNext, Option.map_map]
  rfl

/-! ### A long wait -/

theorem Candidate.effective_le (c : Candidate) (now step : Nat) : c.effective now step ≤ 2 := Nat.min_le_right _ _

theorem Candidate.effective_of_waited {c : Candidate} (hstep : 0 < step)
    (h : c.enqueuedTick + 2 * step ≤ now) : c.effective now step = 2 := by
  have hboost : 2 ≤ (now - c.enqueuedTick) / step := (Nat.le_div_iff_mul_le hstep).mpr (by omega)
  have hlevel : Priority.high.level = 2 := rfl
  simp only [Candidate.effective, agedPriority, hstep.ne', if_false, hlevel]
  omega

/-- What is picked past a candidate that has waited two steps was queued no later. -/
theorem pickNext_waited {now step : Nat} (hc : c ∈ cs) (hstep : 0 < step) (h : c.enqueuedTick + 2 * step ≤ now) :
    ∃ m ∈ cs, pickNext cs now step = some m.id ∧ m.enqueuedTick ≤ c.enqueuedTick := by
  obtain ⟨m, hm, hpick, hle⟩ := pickNext_greatest now step hc
  refine ⟨m, hm, hpick, ?_⟩
  have hmax := m.effective_le now step
  simp only [Candidate.le, Candidate.effective_of_waited hstep h, Bool.or_eq_true, Bool.and_eq_true,
    decide_eq_true_eq, beq_iff_eq] at hle
  omega

/-! ### A ready queue over time -/

/-- The queue of one hart and the clock. Each task is in it at most once. -/
structure ReadyQueue where
  now : Nat
  entries : List Candidate
  distinct : (ids entries).Nodup

inductive QueueEvent
  | tick (now : Nat)
  | push (now : Nat) (id : TaskId) (base : Priority)
  /-- `prepare_switch`, with the outgoing task if it is to be queued again. -/
  | switch (now : Nat) (outgoing : Option (TaskId × Priority))

namespace QueueEvent

def now : QueueEvent → Nat
  | tick now | push now .. | switch now _ => now

/-- The task that is queued, if any. -/
def queues : QueueEvent → Option TaskId
  | tick _ => none
  | push _ id _ => some id
  | switch _ outgoing => outgoing.map (·.1)

/-- With two ticks or more to a level no sum overflows, nor does one before the clock's last values. -/
def Fits (agingStep : Nat) (e : QueueEvent) : Prop := 2 ≤ agingStep ∨ e.now + 2 < 2 ^ 64

end QueueEvent

namespace ReadyQueue

variable (checks : Bool) (agingStep : Nat)

/-- The clock is a `u64` that does not go back, and a task that is queued is not in the queue. -/
def Allows (q : ReadyQueue) (e : QueueEvent) : Prop :=
  q.now ≤ e.now ∧ e.now < 2 ^ 64 ∧ ∀ id ∈ e.queues, id ∉ ids q.entries

instance (q : ReadyQueue) (e : QueueEvent) : Decidable (q.Allows e) :=
  inferInstanceAs (Decidable (_ ∧ _ ∧ ∀ id ∈ e.queues, _))

theorem distinct_push {c : Candidate} (h : (ids entries).Nodup) (hc : c.id ∉ ids entries) :
    (ids (entries ++ [c])).Nodup := by
  rw [ids_append, ids_singleton]
  refine nodup_append.mpr ⟨h, nodup_singleton _, fun a ha b hb => ?_⟩
  rw [mem_singleton.mp hb]
  rintro rfl
  exact hc ha

theorem distinct_remove (h : (ids entries).Nodup) (id : TaskId) : (ids (remove entries id)).Nodup := by
  rw [ids_remove]
  exact h.erase id

def switched (entries : List Candidate) (now : Nat) (next : TaskId) (outgoing : Option (TaskId × Priority)) :
    List Candidate :=
  remove entries next ++ outgoing.toList.map fun o => ⟨o.1, o.2, now⟩

theorem distinct_switched (h : (ids entries).Nodup) (now : Nat) (next : TaskId)
    (hout : ∀ id ∈ outgoing.map (·.1), id ∉ ids entries) : (ids (switched entries now next outgoing)).Nodup := by
  cases outgoing with
  | none => simpa [switched] using distinct_remove h next
  | some o =>
    refine distinct_push (distinct_remove h next) fun hmem => hout o.1 rfl ?_
    rw [ids_remove] at hmem
    exact mem_of_mem_erase hmem

/-- One event and the task picked by it. `none` is a panic, or an event that is not allowed. -/
def step (q : ReadyQueue) (e : QueueEvent) : Option (ReadyQueue × Option TaskId) :=
  if h : q.Allows e then
    match e, h with
    | .tick now, _ => some (⟨now, q.entries, q.distinct⟩, none)
    | .push now id base, h =>
      some (⟨now, q.entries ++ [⟨id, base, now⟩], distinct_push q.distinct (h.2.2 id rfl)⟩, none)
    | .switch now outgoing, h =>
      (pickNextWord checks q.entries now agingStep).map fun
        | none => (⟨now, q.entries, q.distinct⟩, none)
        | some next => (⟨now, switched q.entries now next outgoing, distinct_switched q.distinct now next h.2.2⟩, some next)
  else none

def run (q : ReadyQueue) : List QueueEvent → Option (ReadyQueue × List TaskId)
  | [] => some (q, [])
  | e :: es =>
    (q.step checks agingStep e).bind fun r =>
      (run r.1 es).map fun r' => (r'.1, r.2.toList ++ r'.2)

/-! ### Overtaking -/

variable {checks agingStep} {e : QueueEvent}

theorem fits (h : e.Fits agingStep) (hnow : e.now < 2 ^ 64) (c : Candidate) : c.Fits e.now agingStep := by
  have hlevel : c.base.level ≤ 2 := by cases c.base <;> decide
  unfold Candidate.Fits
  rcases h with h | h
  · have hdiv : (e.now - c.enqueuedTick) / agingStep ≤ (e.now - c.enqueuedTick) / 2 := Nat.div_le_div_left h two_pos
    omega
  · have hdiv := Nat.div_le_self (e.now - c.enqueuedTick) agingStep
    omega

/-- Candidates that may be picked before `c`. -/
def ahead (c : Candidate) (d : Candidate) : Bool := d ≠ c && d.enqueuedTick ≤ c.enqueuedTick

variable {q q' : ReadyQueue} {c : Candidate}

theorem remove_split (h : (ids entries).Nodup) (hd : d ∈ entries) :
    ∃ pre post, entries = pre ++ d :: post ∧ remove entries d.id = pre ++ post := by
  obtain ⟨a, pre, post, -, ha, hsplit, herase⟩ :=
    exists_of_eraseP (p := fun x : Candidate => x.id == d.id) hd (beq_self_eq_true d.id)
  have haid : a.id = d.id := beq_iff_eq.mp ha
  obtain rfl : a = d := inj_on_of_nodup_map h (by rw [hsplit]; simp) hd haid
  exact ⟨pre, post, hsplit, herase⟩

/-- What an event does while `c` has waited two steps: `c` is picked, or one ahead of it is picked and
nothing comes ahead of it, or nothing is picked. -/
theorem step_cases (hstep : 0 < agingStep) (hc : c ∈ q.entries)
    (hwait : c.enqueuedTick + 2 * agingStep ≤ q.now) (hfits : e.Fits agingStep)
    (h : q.step checks agingStep e = some (q', pick)) :
    q.now ≤ q'.now ∧ (pick = some c.id ∨ c ∈ q'.entries ∧ (∀ d ∈ q'.entries, ahead c d = true → d ∈ q.entries) ∧
      ((pick = none ∧ q'.entries.countP (ahead c) = q.entries.countP (ahead c)) ∨
        ∃ d ∈ q.entries, pick = some d.id ∧ ahead c d = true ∧
          q'.entries.countP (ahead c) + 1 = q.entries.countP (ahead c))) := by
  unfold step at h
  split at h
  · next hallow =>
    have hnow := hallow.1
    -- what is queued now is queued later than `c`
    have hlate : ∀ d : Candidate, d.enqueuedTick = e.now → ahead c d = false := by
      intro d hd
      simp only [ahead, Bool.and_eq_false_iff, decide_eq_false_iff_not]
      right
      omega
    have hnew : ∀ entries : List Candidate, ∀ ds : List Candidate, (∀ d ∈ ds, d.enqueuedTick = e.now) →
        (entries ++ ds).countP (ahead c) = entries.countP (ahead c) ∧ ∀ d ∈ entries ++ ds, ahead c d = true → d ∈ entries := by
      intro entries ds hds
      refine ⟨?_, fun d hd hahead => ?_⟩
      · have hzero : ds.countP (ahead c) = 0 :=
          countP_eq_zero.mpr fun d hd => by simp [hlate d (hds d hd)]
        rw [countP_append, hzero, Nat.add_zero]
      · rcases mem_append.mp hd with hd | hd
        · exact hd
        rw [hlate d (hds d hd)] at hahead
        exact absurd hahead Bool.false_ne_true
    cases e with
    | tick now =>
      cases h
      exact ⟨hnow, .inr ⟨hc, fun d hd _ => hd, .inl ⟨rfl, rfl⟩⟩⟩
    | push now id base =>
      cases h
      obtain ⟨hcount, hmem⟩ := hnew q.entries [⟨id, base, now⟩] (by simp [QueueEvent.now])
      exact ⟨hnow, .inr ⟨mem_append_left _ hc, hmem, .inl ⟨rfl, hcount⟩⟩⟩
    | switch now outgoing =>
      have hpick := pickNextWord_eq checks hstep fun d (_ : d ∈ q.entries) => fits hfits hallow.2.1 d
      have hwait' : c.enqueuedTick + 2 * agingStep ≤ now := hwait.trans hnow
      obtain ⟨m, hm, hnext, htick⟩ := pickNext_waited hc hstep hwait'
      simp only [QueueEvent.now] at hpick
      simp only [hpick, hnext, map_some] at h
      cases h
      refine ⟨hnow, ?_⟩
      by_cases hmc : m = c
      · exact .inl (by rw [hmc])
      obtain ⟨pre, post, hsplit, hremove⟩ := remove_split q.distinct hm
      have hahead : ahead c m = true := by simp [ahead, hmc, htick]
      obtain ⟨hcount, hmem⟩ := hnew (pre ++ post) (outgoing.toList.map fun o => ⟨o.1, o.2, now⟩) (by
        intro d hd
        obtain ⟨o, -, rfl⟩ := mem_map.mp hd
        rfl)
      simp only [switched, hremove]
      refine .inr ⟨?_, fun d hd ha => ?_, .inr ⟨m, hm, rfl, hahead, ?_⟩⟩
      · rw [hsplit] at hc
        have := (mem_append.mp hc).imp_right fun h => (mem_cons.mp h).resolve_left (Ne.symm hmc)
        exact mem_append_left _ (mem_append.mpr this)
      · rw [hsplit]
        rcases mem_append.mp (hmem d hd ha) with hd | hd
        · exact mem_append_left _ hd
        · exact mem_append_right _ (mem_cons_of_mem _ hd)
      · rw [hcount, hsplit, countP_append, countP_append, countP_cons_of_pos hahead]
        omega
  · cases h

/-- Along a run, the picks before `c` are of candidates that were ahead of it at the start, and there are
no more of them than of those. -/
theorem run_before (hstep : 0 < agingStep) (hc : c ∈ q.entries) (hwait : c.enqueuedTick + 2 * agingStep ≤ q.now)
    (hfits : ∀ e ∈ es, e.Fits agingStep) (hrun : q.run checks agingStep es = some (q', picks)) :
    (∀ id ∈ picks.takeWhile (· ≠ c.id), ∃ d ∈ q.entries, d.id = id ∧ ahead c d = true) ∧
      (picks.takeWhile (· ≠ c.id)).length ≤ q.entries.countP (ahead c) := by
  induction es generalizing q picks with
  | nil =>
    cases hrun
    exact ⟨fun id hid => absurd hid not_mem_nil, Nat.zero_le _⟩
  | cons e es ih =>
    obtain ⟨⟨q₁, pick⟩, hfirst, hrest⟩ := bind_eq_some_iff.mp hrun
    obtain ⟨⟨q₂, picks'⟩, hrun', heq⟩ := map_eq_some_iff.mp hrest
    cases heq
    obtain ⟨hnow, hpicked | ⟨hc', hsub, hcases⟩⟩ :=
      step_cases hstep hc hwait (hfits e mem_cons_self) hfirst
    · simp [hpicked]
    obtain ⟨hids, hlen⟩ := ih hc' (hwait.trans hnow) (fun e' he' => hfits e' (mem_cons_of_mem _ he')) hrun'
    have hids' : ∀ id ∈ picks'.takeWhile (· ≠ c.id), ∃ d ∈ q.entries, d.id = id ∧ ahead c d = true := by
      intro id hid
      obtain ⟨d, hd, hdid, hahead⟩ := hids id hid
      exact ⟨d, hsub d hd hahead, hdid, hahead⟩
    rcases hcases with ⟨hnone, hcount⟩ | ⟨d, hd, hpick, hahead, hcount⟩
    · simp only [hnone, toList_none, nil_append]
      exact ⟨hids', hcount ▸ hlen⟩
    have hne : d.id ≠ c.id := by
      intro h
      obtain rfl := inj_on_of_nodup_map q.distinct hd hc h
      simp [ahead] at hahead
    rw [hpick, toList_some, singleton_append, takeWhile_cons_of_pos (p := fun id => decide (id ≠ c.id)) (decide_eq_true hne)]
    exact ⟨forall_mem_cons.mpr ⟨⟨d, hd, rfl, hahead⟩, hids'⟩, (Nat.succ_le_succ hlen).trans hcount.le⟩

/-- Once `c` has waited two aging steps: whatever is pushed and requeued, it is overtaken only by
candidates queued no later, one of the first picks beyond their number is its own, and no switch panics. -/
theorem aging_bounds_overtaking (hstep : 0 < agingStep) {es : List QueueEvent} {picks : List TaskId}
    (hc : c ∈ q.entries) (hwait : c.enqueuedTick + 2 * agingStep ≤ q.now)
    (hfits : ∀ e ∈ es, e.Fits agingStep) (hrun : q.run checks agingStep es = some (q', picks)) :
    (∀ id ∈ picks.takeWhile (· ≠ c.id),
      ∃ d ∈ q.entries, d.id = id ∧ d ≠ c ∧ d.enqueuedTick ≤ c.enqueuedTick) ∧
    (q.entries.countP (fun d => d ≠ c && d.enqueuedTick ≤ c.enqueuedTick) < picks.length →
      c.id ∈ picks.take (q.entries.countP (fun d => d ≠ c && d.enqueuedTick ≤ c.enqueuedTick) + 1)) ∧
    ∀ e, q'.Allows e → e.Fits agingStep → (q'.step checks agingStep e).isSome := by
  obtain ⟨hids, hlen⟩ := run_before hstep hc hwait hfits hrun
  refine ⟨fun id hid => ?_, fun hmany => ?_, fun e hallow hfit => ?_⟩
  · obtain ⟨d, hd, hdid, hahead⟩ := hids id hid
    simp only [ahead, Bool.and_eq_true, decide_eq_true_eq] at hahead
    exact ⟨d, hd, hdid, hahead⟩
  · by_contra hnot
    -- none of them is `c`, so all of them come before it
    have hbefore : ∀ id ∈ picks.take (q.entries.countP (ahead c) + 1), decide (id ≠ c.id) = true := by
      intro id hid
      rw [decide_eq_true_eq]
      rintro rfl
      exact hnot hid
    rw [← take_append_drop (q.entries.countP (ahead c) + 1) picks, takeWhile_append_of_pos hbefore,
      length_append, length_take] at hlen
    change q.entries.countP (ahead c) < picks.length at hmany
    omega
  · unfold step
    rw [dif_pos hallow]
    cases e with
    | tick | push => rfl
    | switch now outgoing =>
      have hpick := pickNextWord_eq checks hstep fun d (_ : d ∈ q'.entries) => fits hfit hallow.2.1 d
      simp only [QueueEvent.now] at hpick
      simp [hpick]

/-- Task 1 has waited thirty ticks at ten to a level; task 2 is of high priority and new. -/
def oneWaiting : ReadyQueue where
  now := 30
  entries := [⟨2, .high, 29⟩, ⟨1, .low, 0⟩]
  distinct := by decide

theorem aging_bounds_overtaking_waited : ∃ q' picks,
    oneWaiting.run true 10 [.push 31 3 .high, .switch 32 (some (4, .high))] = some (q', picks) ∧
      1 ∈ picks.take 1 := by
  obtain ⟨⟨q', picks⟩, hrun, hmany⟩ := (any_eq_true _ _).mp
    (show (oneWaiting.run true 10 [.push 31 3 .high, .switch 32 (some (4, .high))]).any
      (fun r => decide (0 < r.2.length)) = true by decide)
  refine ⟨q', picks, hrun, ?_⟩
  exact (aging_bounds_overtaking (c := ⟨1, .low, 0⟩) (by decide) (by decide) (by decide)
    (fun e _ => .inl (by decide)) hrun).2.1 (of_decide_eq_true hmany)

/-- One tick to a level: task 1, of high priority, has waited since tick zero. -/
def longestWait : ReadyQueue where
  now := 2 ^ 64 - 1
  entries := [⟨1, .high, 0⟩, ⟨2, .high, 2 ^ 64 - 10⟩]
  distinct := by decide

/-- At the clock's last value its sum wraps to level one, and a task queued later overtakes it; a build
with overflow checks panics. -/
theorem overtaken_by_later :
    0 + 2 * 1 ≤ longestWait.now ∧ (⟨1, .high, 0⟩ : Candidate) ∈ longestWait.entries ∧
      (longestWait.run false 1 [.switch (2 ^ 64 - 1) none]).map (·.2) = some [2] ∧
      longestWait.Allows (.switch (2 ^ 64 - 1) none) ∧
      (longestWait.step true 1 (.switch (2 ^ 64 - 1) none)).isSome = false := by
  decide

end ReadyQueue

end SnitchOs.Sched
