import Mathlib.Algebra.Group.Nat.Defs
import Mathlib.Tactic.Common

/-!
# Machine arithmetic

Results of unchecked additions and multiplications of 64-bit words, kept as `Nat`. A build may check
for overflow, and then an overflow panics; or not, and then the result wraps.
-/

namespace Machine

/-- An arithmetic result in a build with or without overflow checks; `none` is a panic. -/
def usize (checks : Bool) (n : Nat) : Option Nat :=
  if n < 2 ^ 64 then some n else if checks then none else some (n % 2 ^ 64)

theorem usize_of_lt (checks : Bool) (h : n < 2 ^ 64) : usize checks n = some n := by
  simp only [usize, h, if_true]

theorem usize_eq (h : usize checks n = some r) : r = n % 2 ^ 64 := by
  unfold usize at h
  split at h
  · next hlt =>
    cases h
    exact (Nat.mod_eq_of_lt hlt).symm
  · split at h
    · cases h
    cases h
    rfl

end Machine
