import Mathlib.Order.Bounds.Basic
import Mathlib.Tactic.Ring

/-!
# The timer wheel

The scheduler's tick and the audio feed share one hardware timer. Each client has its next deadline, and a late poll
drops the deadlines it missed. Ticks are naturals, which the source's words are as long as no sum reaches `2 ^ 64`.
-/

namespace SnitchOs.Sched

open Set

structure TimerWheel where
  schedPeriod : Nat
  audioPeriod : Nat
  nextSched : Nat
  nextAudio : Option Nat

structure Due where
  audio : Bool
  sched : Bool

/-- For `deadline ≤ now`. -/
def rearmPast (deadline period now : Nat) : Nat := deadline + ((now - deadline) / period + 1) * period

namespace TimerWheel

variable (w : TimerWheel)

def new (now schedPeriod : Nat) : TimerWheel := ⟨schedPeriod, 0, now + schedPeriod, none⟩

def enableAudio (now period : Nat) : TimerWheel := { w with audioPeriod := period, nextAudio := some (now + period) }

def disableAudio : TimerWheel := { w with nextAudio := none }

def deadline : Nat :=
  match w.nextAudio with
  | some audio => min audio w.nextSched
  | none => w.nextSched

def poll (now : Nat) : Due × TimerWheel :=
  let sched := decide (w.nextSched ≤ now)
  let w := if sched then { w with nextSched := rearmPast w.nextSched w.schedPeriod now } else w
  let audio := w.nextAudio.any (· ≤ now)
  let w := if audio then { w with nextAudio := some (rearmPast (w.nextAudio.getD now) w.audioPeriod now) } else w
  (⟨audio, sched⟩, w)

/-- Runs over time, with the time of the last poll, the time now, and when audio was enabled, with its period. -/
inductive Reached (start period : Nat) : TimerWheel → (polled clock : Nat) → Option (Nat × Nat) → Prop
  | new : Reached start period (new start period) start start none
  | poll {w : TimerWheel} (h : Reached start period w polled clock stream) (hnow : clock ≤ now) :
    Reached start period (w.poll now).2 now now stream
  | enableAudio {w : TimerWheel} (h : Reached start period w polled clock stream) (hnow : clock ≤ now) (hpos : 0 < p) :
    Reached start period (w.enableAudio now p) polled now (some (now, p))
  | disableAudio {w : TimerWheel} (h : Reached start period w polled clock stream) :
    Reached start period w.disableAudio polled clock none

/-- The points of a clock with a start and a period that come after a time. -/
def later (clock : Option (Nat × Nat)) (since : Nat) : Set Nat :=
  {t | ∃ s ∈ clock, max since s.1 < t ∧ ∃ k ≥ 1, t = s.1 + k * s.2}

/-! ### One clock -/

/-- The deadline of a clock is its first point after the last poll. -/
def Armed (period : Nat) (next : Option Nat) (polled : Nat) : Option (Nat × Nat) → Prop
  | none => next = none
  | some s => period = s.2 ∧ 0 < s.2 ∧ ∃ d, next = some d ∧ IsLeast (later (some s) polled) d

theorem armed_start (hpos : 0 < p) (hle : polled ≤ now) : Armed p (some (now + p)) polled (some (now, p)) := by
  refine ⟨rfl, hpos, _, rfl, ⟨_, rfl, by grind, 1, le_refl 1, by grind⟩, ?_⟩
  rintro _ ⟨_, ⟨⟩, -, k, hk, rfl⟩
  exact Nat.add_le_add_left (Nat.le_mul_of_pos_left p hk) now

theorem isLeast_rearm (hpos : 0 < s.2) (h : IsLeast (later (some s) polled) d) (hle : polled ≤ now) :
    IsLeast (later (some s) now) (if d ≤ now then rearmPast d s.2 now else d) := by
  obtain ⟨⟨_, ⟨⟩, hd, k, hk, rfl⟩, hleast⟩ := h
  split
  · -- The new deadline is the point after the last one that was missed.
    generalize hm : (now - (s.1 + k * s.2)) / s.2 = m
    have hlow : m * s.2 ≤ now - (s.1 + k * s.2) := hm ▸ Nat.div_mul_le_self _ _
    have hhigh : now - (s.1 + k * s.2) < (m + 1) * s.2 := by
      rw [← hm]
      exact Nat.lt_mul_of_div_lt (Nat.lt_succ_self _) hpos
    have hnext : rearmPast (s.1 + k * s.2) s.2 now = s.1 + (k + m + 1) * s.2 := by
      rw [rearmPast, hm]
      ring
    rw [hnext]
    refine ⟨⟨_, rfl, by grind, k + m + 1, by omega, rfl⟩, ?_⟩
    rintro _ ⟨_, ⟨⟩, hlate, j, -, rfl⟩
    refine Nat.add_le_add_left (Nat.mul_le_mul_right _ ?_) _
    by_contra hj
    have := Nat.mul_le_mul_right s.2 (show j ≤ k + m by omega)
    grind
  · refine ⟨⟨_, rfl, by omega, k, hk, rfl⟩, ?_⟩
    rintro t ⟨_, ⟨⟩, hlate, ht⟩
    exact hleast ⟨_, rfl, by omega, ht⟩

theorem Armed.poll (h : Armed period next polled clock) (hle : polled ≤ now) :
    Armed period (next.map fun d => if d ≤ now then rearmPast d period now else d) now clock := by
  cases clock with
  | none => exact congrArg _ h
  | some s =>
    obtain ⟨rfl, hpos, d, rfl, hd⟩ := h
    exact ⟨rfl, hpos, _, rfl, isLeast_rearm hpos hd hle⟩

theorem Armed.due (h : Armed period next polled clock) : next.any (· ≤ now) ↔ ∃ t ∈ later clock polled, t ≤ now := by
  cases clock with
  | none =>
    cases h
    simp [later]
  | some s =>
    obtain ⟨-, -, d, rfl, hd⟩ := h
    rw [Option.any_some, decide_eq_true_iff]
    refine ⟨fun hdue => ⟨d, hd.1, hdue⟩, ?_⟩
    rintro ⟨t, ht, hdue⟩
    exact (hd.2 ht).trans hdue

/-! ### The wheel -/

variable {w}

theorem poll_eq : w.poll now = (⟨w.nextAudio.any (· ≤ now), decide (w.nextSched ≤ now)⟩, { w with
    nextSched := if w.nextSched ≤ now then rearmPast w.nextSched w.schedPeriod now else w.nextSched
    nextAudio := w.nextAudio.map fun d => if d ≤ now then rearmPast d w.audioPeriod now else d }) := by
  obtain ⟨_, _, sched, audio⟩ := w
  by_cases hsched : sched ≤ now
  all_goals
    cases audio with
    | none => simp [poll, hsched]
    | some d => by_cases hd : d ≤ now <;> simp [poll, hsched, hd]

theorem Reached.armed (hpos : 0 < period) (h : Reached start period w polled clock stream) : polled ≤ clock ∧
    Armed w.schedPeriod (some w.nextSched) polled (some (start, period)) ∧ Armed w.audioPeriod w.nextAudio polled stream := by
  induction h with
  | new => exact ⟨le_refl start, armed_start hpos (le_refl start), rfl⟩
  | poll _ hnow ih =>
    obtain ⟨hle, hsched, haudio⟩ := ih
    rw [poll_eq]
    exact ⟨le_refl _, hsched.poll (hle.trans hnow), haudio.poll (hle.trans hnow)⟩
  | enableAudio _ hnow hp ih => exact ⟨ih.1.trans hnow, ih.2.1, armed_start hp (ih.1.trans hnow)⟩
  | disableAudio _ ih => exact ⟨ih.1, ih.2.1, rfl⟩

theorem isLeast_deadline (hsched : Armed w.schedPeriod (some w.nextSched) now (some s))
    (haudio : Armed w.audioPeriod w.nextAudio now stream) : IsLeast (later (some s) now ∪ later stream now) w.deadline := by
  obtain ⟨-, -, _, ⟨⟩, hsched⟩ := hsched
  cases stream with
  | none =>
    have hnone : later none now = ∅ := by simp [later]
    rwa [deadline, haudio, hnone, union_empty]
  | some _ =>
    obtain ⟨-, -, d, hd, haudio⟩ := haudio
    rw [deadline, hd, union_comm]
    exact haudio.union hsched

/-- A poll reports each client whose clock had a point since the last poll, the scheduler's whatever audio does,
and leaves the timer at the first point to come. -/
theorem poll_reports (hpos : 0 < period) (h : Reached start period w polled clock stream) (hnow : clock ≤ now) :
    ((w.poll now).1.sched ↔ ∃ t ∈ later (some (start, period)) polled, t ≤ now) ∧
    ((w.poll now).1.audio ↔ ∃ t ∈ later stream polled, t ≤ now) ∧
    IsLeast (later (some (start, period)) now ∪ later stream now) (w.poll now).2.deadline := by
  obtain ⟨-, hsched, haudio⟩ := h.armed hpos
  obtain ⟨-, hsched', haudio'⟩ := (h.poll hnow).armed hpos
  refine ⟨?_, ?_, isLeast_deadline hsched' haudio'⟩
  · rw [← hsched.due, poll_eq, Option.any_some]
  · rw [← haudio.due, poll_eq]

/-- Audio starts at 5 with period 4; a stall until 23 misses two ticks of the scheduler's 10. -/
theorem poll_reports_stall : ((((new 0 10).enableAudio 5 4).poll 23).1.sched ↔ ∃ t ∈ later (some (0, 10)) 0, t ≤ 23) ∧
    (((new 0 10).enableAudio 5 4).poll 23).2.deadline = 25 :=
  ⟨(poll_reports (by decide) (Reached.new.enableAudio (by decide) (by decide)) (by decide)).1, by decide⟩

end TimerWheel

end SnitchOs.Sched
