import Mathlib.Algebra.Order.Ring.Nat

/-!
# Restarting a service

The decision about one incarnation that has exited. The wait before the restart doubles with each failure, by a shift
that is checked for its amount only: the bits it moves out of the word are lost.
-/

namespace SnitchOs.Supervision

inductive RestartPolicy where
  | never | onFailure | always
deriving DecidableEq

inductive ExitOutcome where
  | clean
  | failed (code : Int32)
deriving DecidableEq

/-- The times are ticks of the clock. -/
structure RestartLimits where
  maxRestarts : UInt32
  window : UInt64
  backoffBase : UInt64
  backoffCap : UInt64

structure RestartHistory where
  consecutiveFailures : UInt32
  recent : List UInt64

inductive RestartAction where
  | restart (after : UInt64)
  | stop
  | escalate
deriving DecidableEq

def checkedShl (x : UInt64) (amount : UInt32) : Option UInt64 :=
  if amount < 64 then some (x <<< amount.toUInt64) else none

def saturatingSub (a b : UInt64) : UInt64 := if b ≤ a then a - b else 0

def restartDecision (policy : RestartPolicy) (outcome : ExitOutcome) (history : RestartHistory)
    (limits : RestartLimits) (now : UInt64) : RestartAction :=
  let wantsRestart := match policy with
    | .never => false
    | .onFailure => match outcome with
      | .failed _ => true
      | .clean => false
    | .always => true
  if !wantsRestart then .stop
  else
    -- the count is cut to 32 bits
    let recentInWindow := UInt32.ofNat
      (history.recent.filter fun t => saturatingSub now t < limits.window).length
    if recentInWindow ≥ limits.maxRestarts then .escalate
    else .restart <| match outcome with
      | .clean => 0
      | .failed _ =>
        min ((checkedShl limits.backoffBase history.consecutiveFailures).getD limits.backoffCap) limits.backoffCap

namespace RestartLimits

variable (limits : RestartLimits) (n : Nat)

/-- The wait after `n` failures, over the natural numbers. -/
def exponential : Nat := min (limits.backoffBase.toNat * 2 ^ n) limits.backoffCap.toNat

/-- No bit that matters is shifted out, and a shift past the word is not the shift of a zero. -/
def BackoffFits : Prop :=
  if n < 64 then limits.backoffBase.toNat * 2 ^ n < 2 ^ 64 ∨
    limits.backoffCap.toNat ≤ limits.backoffBase.toNat * 2 ^ n % 2 ^ 64
  else limits.backoffBase ≠ 0 ∨ limits.backoffCap = 0

theorem exponential_mono (hk : n ≤ k) : limits.exponential n ≤ limits.exponential k :=
  min_le_min_right _ (Nat.mul_le_mul_left _ (Nat.pow_le_pow_right (by decide) hk))

theorem exponential_pos (hbase : limits.backoffBase ≠ 0) (hcap : limits.backoffCap ≠ 0) : 0 < limits.exponential n := by
  have hpos : ∀ x : UInt64, x ≠ 0 → 0 < x.toNat := by
    intro x hx
    by_contra h0
    exact hx (UInt64.toNat_inj.mp (by simpa using h0))
  exact lt_min (Nat.mul_pos (hpos _ hbase) (Nat.two_pow_pos n)) (hpos _ hcap)

end RestartLimits

/-- The shift, with the bits that it loses. -/
theorem checkedShl_getD (x cap : UInt64) (amount : UInt32) : ((checkedShl x amount).getD cap).toNat =
    if amount.toNat < 64 then x.toNat * 2 ^ amount.toNat % 2 ^ 64 else cap.toNat := by
  have hlt : amount < 64 ↔ amount.toNat < 64 := UInt32.lt_iff_toNat_lt
  unfold checkedShl
  by_cases h : amount.toNat < 64
  · rw [if_pos (hlt.mpr h), if_pos h]
    simp [Nat.shiftLeft_eq, Nat.mod_eq_of_lt h]
  · rw [if_neg (mt hlt.mp h), if_neg h]
    rfl

section Backoff

variable {history : RestartHistory} {limits : RestartLimits}
  {now after : UInt64} (h : restartDecision policy (.failed code) history limits now = .restart after)
include h

theorem restartDecision_failed : after = min ((checkedShl limits.backoffBase history.consecutiveFailures).getD limits.backoffCap)
      limits.backoffCap := by
  unfold restartDecision at h
  extract_lets wantsRestart recentInWindow at h
  split at h
  · cases h
  split at h
  · cases h
  · exact (RestartAction.restart.inj h).symm

theorem after_eq_exponential_iff : after.toNat = limits.exponential history.consecutiveFailures.toNat ↔
      limits.BackoffFits history.consecutiveFailures.toNat := by
  have hmin : ∀ a b : UInt64, (min a b).toNat = min a.toNat b.toNat := by
    intro a b
    rw [UInt64.min_def, Nat.min_def, apply_ite UInt64.toNat]
    rfl
  have hcap : limits.backoffCap.toNat < 2 ^ 64 := limits.backoffCap.toNat_lt
  have hzero : ∀ x : UInt64, x = 0 ↔ x.toNat = 0 := fun x => UInt64.toNat_inj.symm
  rw [restartDecision_failed h, hmin, checkedShl_getD]
  unfold RestartLimits.exponential RestartLimits.BackoffFits
  split
  · -- a product past the word is past the cap
    generalize limits.backoffBase.toNat * 2 ^ history.consecutiveFailures.toNat = wait
    omega
  rename_i hn
  have hpow : 2 ^ 64 ≤ 2 ^ history.consecutiveFailures.toNat := Nat.pow_le_pow_right (by decide) (by omega)
  rw [Ne, hzero, hzero, min_self]
  by_cases hbase : limits.backoffBase.toNat = 0
  · simp [hbase, eq_comm]
  have hwait := Nat.mul_le_mul (Nat.pos_of_ne_zero hbase) hpow
  omega

end Backoff

/-- The wait is the capped exponential exactly when the shift loses nothing that matters; where it does for two
histories, the one with more failures waits no less, and a non-zero base and cap give a non-zero wait. -/
theorem restart_backoff_exponential {policy : RestartPolicy} {code : Int32} {history : RestartHistory}
    {limits : RestartLimits} {now after : UInt64}
    (h : restartDecision policy (.failed code) history limits now = .restart after) :
    (after.toNat = limits.exponential history.consecutiveFailures.toNat ↔
      limits.BackoffFits history.consecutiveFailures.toNat) ∧
    (limits.BackoffFits history.consecutiveFailures.toNat →
      (limits.backoffBase ≠ 0 → limits.backoffCap ≠ 0 → after ≠ 0) ∧ ∀ policy' code' history' now' after',
        restartDecision policy' (.failed code') history' limits now' = .restart after' →
        limits.BackoffFits history'.consecutiveFailures.toNat →
        history.consecutiveFailures ≤ history'.consecutiveFailures → after ≤ after') := by
  refine ⟨after_eq_exponential_iff h, fun hfit => ?_⟩
  have hafter := (after_eq_exponential_iff h).mpr hfit
  refine ⟨fun hbase hcap h0 => ?_, fun policy' code' history' now' after' h' hfit' hle => ?_⟩
  · have hpos := limits.exponential_pos history.consecutiveFailures.toNat hbase hcap
    rw [← hafter, h0] at hpos
    exact absurd hpos (by decide)
  · have hafter' := (after_eq_exponential_iff h').mpr hfit'
    rw [UInt64.le_iff_toNat_le, hafter, hafter']
    exact limits.exponential_mono _ (UInt32.le_iff_toNat_le.mp hle)

theorem restart_backoff_exponential_doubled :
    RestartLimits.BackoffFits ⟨5, 100, 10, 1000⟩ 3 ∧ (80 : UInt64).toNat = RestartLimits.exponential ⟨5, 100, 10, 1000⟩ 3 := by
  have hfit : RestartLimits.BackoffFits ⟨5, 100, 10, 1000⟩ 3 := by simp [RestartLimits.BackoffFits]
  have h : restartDecision .onFailure (.failed 1) ⟨3, [7]⟩ ⟨5, 100, 10, 1000⟩ 50 = .restart 80 := by decide
  exact ⟨hfit, (restart_backoff_exponential h).1.mpr hfit⟩

/-- One failure more, and the bit of the base leaves the word: the service is restarted at once. -/
theorem backoff_bit_lost :
    restartDecision .onFailure (.failed 1) ⟨0, []⟩ ⟨5, 100, 0x8000000000000000, 1000⟩ 50 = .restart 1000 ∧
    restartDecision .onFailure (.failed 1) ⟨1, []⟩ ⟨5, 100, 0x8000000000000000, 1000⟩ 50 = .restart 0 ∧
    RestartLimits.exponential ⟨5, 100, 0x8000000000000000, 1000⟩ 1 = 1000 := by
  decide

end SnitchOs.Supervision
