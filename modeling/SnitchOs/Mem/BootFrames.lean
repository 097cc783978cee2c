import SnitchOs.Mem.Bitmap

/-!
# The frames that are free at boot

`release_unreserved` goes over the frames of a fresh bitmap and releases those whose first byte is in no
reserved range.
-/

namespace SnitchOs.Mem

open Machine List Option

namespace Bitmap

variable (checks : Bool) (ramBase frameSize : Nat) (reserved : List (Nat × Nat))

def releaseUnreservedFrom : List Nat → Bitmap → Option Bitmap
  | [], b => some b
  | f :: fs, b => do
    let pa ← usize checks (ramBase + (← usize checks (f * frameSize)))
    let reservedHit := reserved.any fun r => decide (r.1 ≤ pa) && decide (pa < r.2)
    releaseUnreservedFrom fs (← if !reservedHit then b.releaseRange checks f 1 else some b)

/-- `none` is a panic. -/
def releaseUnreserved (b : Bitmap) : Option Bitmap :=
  releaseUnreservedFrom checks ramBase frameSize reserved (List.range b.capacity) b

def Reserved (reserved : List (Nat × Nat)) (pa : Nat) : Prop := ∃ r ∈ reserved, r.1 ≤ pa ∧ pa < r.2

variable {checks ramBase frameSize reserved} {b : Bitmap}

theorem releaseRange_one (hf : f < b.capacity) (hlt : f + 1 < 2 ^ 64) : b.releaseRange checks f 1 = some (b.setBitTracked f) := by
  have hstop : min (f + 1) b.capacity - f = 1 := by omega
  simp only [releaseRange, Nat.not_le.mpr hf, if_false, usize_of_lt checks hlt, bind_eq_bind, bind_some, hstop]
  rfl

theorem Inv.releaseUnreservedFrom (h : b.Inv) (checks : Bool) (reserved : List (Nat × Nat))
    (hram : ramBase + b.capacity * frameSize ≤ 2 ^ 64) (hpos : 0 < frameSize) (hcap : b.capacity < 2 ^ 64)
    (hfs : ∀ f ∈ fs, f < b.capacity) : ∃ b', Bitmap.releaseUnreservedFrom checks ramBase frameSize reserved fs b = some b' ∧
      ∀ i, i ∈ b'.freeSet ↔ i ∈ b.freeSet ∨ i ∈ fs ∧ ¬ Reserved reserved (ramBase + i * frameSize) := by
  induction fs generalizing b with
  | nil => exact ⟨b, rfl, by simp⟩
  | cons f fs ih =>
    obtain ⟨hf, hfs⟩ := forall_mem_cons.mp hfs
    have hend : (f + 1) * frameSize ≤ b.capacity * frameSize := Nat.mul_le_mul_right _ hf
    rw [Nat.succ_mul] at hend
    have hbase : ramBase + f * frameSize < 2 ^ 64 := by omega
    have hhit : (reserved.any fun r => decide (r.1 ≤ ramBase + f * frameSize) &&
        decide (ramBase + f * frameSize < r.2)) = true ↔ Reserved reserved (ramBase + f * frameSize) := by
      simp [Reserved]
    simp only [Bitmap.releaseUnreservedFrom, usize_of_lt checks (by omega : f * frameSize < 2 ^ 64),
      usize_of_lt checks hbase, bind_eq_bind, bind_some]
    by_cases hr : Reserved reserved (ramBase + f * frameSize)
    · obtain ⟨b', hrun, hfree⟩ := ih h hram hcap hfs
      refine ⟨b', by simpa [hhit.mpr hr] using hrun, fun i => ?_⟩
      rw [hfree, mem_cons]
      constructor
      · exact Or.imp_right fun hi => ⟨.inr hi.1, hi.2⟩
      rintro (hi | ⟨rfl | hi, hno⟩)
      · exact .inl hi
      · exact absurd hr hno
      · exact .inr ⟨hi, hno⟩
    · obtain ⟨hinv, hset⟩ := h.setBitTracked hf
      have hsame := b.capacity_setBitTracked f
      obtain ⟨b', hrun, hfree⟩ := ih hinv (hsame ▸ hram) (hsame ▸ hcap) (hsame ▸ hfs)
      refine ⟨b', ?_, fun i => ?_⟩
      · simpa [Bool.eq_false_iff.mpr (mt hhit.mp hr), releaseRange_one hf (by omega)] using hrun
      rw [hfree, hset, Finset.mem_insert, mem_cons]
      constructor
      · rintro ((rfl | hi) | hi)
        · exact .inr ⟨.inl rfl, hr⟩
        · exact .inl hi
        · exact .inr ⟨.inr hi.1, hi.2⟩
      · rintro (hi | ⟨rfl | hi, hno⟩)
        · exact .inl (.inr hi)
        · exact .inl (.inl rfl)
        · exact .inr ⟨hi, hno⟩

end Bitmap

end SnitchOs.Mem
