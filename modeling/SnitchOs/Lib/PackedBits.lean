import Mathlib.Data.Finset.Card
import Mathlib.Order.Bounds.Basic

/-!
# Sets of numbers packed into words

Number `f` is bit `f % w` of word `f / w`. The numbers whose bit is set are the support; setting a bit
inserts into it, clearing erases, and the trailing zeros of a word give its least member.
-/

namespace PackedBits

open Nat

variable {w : Nat} (ws : List (BitVec w))

def word (i : Nat) : BitVec w := ws.getD i 0#w

def mask (f : Nat) : BitVec w := 1#w <<< (f % w)

def test (f : Nat) : Bool := word ws (f / w) &&& mask f != 0#w

def set (f : Nat) : List (BitVec w) := ws.set (f / w) (word ws (f / w) ||| mask f)

def clear (f : Nat) : List (BitVec w) := ws.set (f / w) (word ws (f / w) &&& ~~~ mask f)

/-- The numbers whose bit is set. -/
def support : Finset Nat := (Finset.range (w * ws.length)).filter fun f => test ws f = true

@[simp] theorem length_set (f : Nat) : (set ws f).length = ws.length := by simp [set]

@[simp] theorem length_clear (f : Nat) : (clear ws f).length = ws.length := by simp [clear]

variable {i f : Nat}

theorem getLsbD_mask (f : Nat) (hi : i < w) : (mask f : BitVec w).getLsbD i = decide (i = f % w) := by
  have hw : 0 < w := zero_lt_of_lt hi
  simp only [mask, BitVec.getLsbD_shiftLeft, BitVec.getLsbD_one, hi, hw, decide_true, Bool.true_and]
  by_cases hlt : i < f % w
  · simp [hlt, hlt.ne]
  simp only [hlt, decide_false, Bool.not_false, Bool.true_and, decide_eq_decide]
  omega

theorem test_eq (hw : 0 < w) (f : Nat) : test ws f = (word ws (f / w)).getLsbD (f % w) := by
  have hlt : f % w < w := mod_lt _ hw
  unfold test
  cases hbit : (word ws (f / w)).getLsbD (f % w) with
  | true =>
    rw [bne_iff_ne]
    intro hzero
    have := congrArg (·.getLsbD (f % w)) hzero
    simp [hbit, getLsbD_mask f hlt] at this
  | false =>
    rw [bne_eq_false_iff_eq]
    apply BitVec.eq_of_getLsbD_eq
    intro i hi
    rw [BitVec.getLsbD_and, getLsbD_mask f hi]
    by_cases hif : i = f % w
    · simp [hif, hbit]
    · simp [hif]

theorem test_of_ge (hw : 0 < w) (h : w * ws.length ≤ f) : test ws f = false := by
  have hlen : ws.length ≤ f / w := (Nat.le_div_iff_mul_le hw).mpr (by rwa [Nat.mul_comm])
  simp [test_eq ws hw, word, List.getElem?_eq_none hlen]

theorem mem_support (hw : 0 < w) : f ∈ support ws ↔ test ws f = true := by
  simp only [support, Finset.mem_filter, Finset.mem_range, and_iff_right_iff_imp]
  intro h
  by_contra hge
  rw [test_of_ge ws hw (not_lt.mp hge)] at h
  exact Bool.false_ne_true h

theorem eq_iff_div_mod : g = f ↔ g / w = f / w ∧ g % w = f % w := by
  constructor
  · rintro rfl
    exact ⟨rfl, rfl⟩
  · rintro ⟨hdiv, hmod⟩
    rw [← div_add_mod g w, hdiv, hmod, div_add_mod]

theorem word_set (hi : i < ws.length) (v : BitVec w) (j : Nat) : word (ws.set i v) j = if j = i then v else word ws j := by
  by_cases h : j = i
  · subst h
    simp [word, hi]
  · simp [word, List.getD, h, Ne.symm h]

variable (hw : 0 < w)
include hw

theorem test_set (hf : f < w * ws.length) (g : Nat) : test (set ws f) g = (test ws g || decide (g = f)) := by
  have hi : f / w < ws.length := (Nat.div_lt_iff_lt_mul hw).mpr (by rwa [Nat.mul_comm])
  have hlt : g % w < w := mod_lt _ hw
  rw [test_eq _ hw, test_eq _ hw, set, word_set ws hi]
  by_cases hdiv : g / w = f / w
  · rw [if_pos hdiv, BitVec.getLsbD_or, getLsbD_mask f hlt, hdiv]
    simp [eq_iff_div_mod (w := w) (f := f) (g := g), hdiv, true_and]
  · have hne : g ≠ f := fun h => hdiv (h ▸ rfl)
    simp [hdiv, hne]

theorem test_clear (f g : Nat) : test (clear ws f) g = (test ws g && decide (g ≠ f)) := by
  have hlt : g % w < w := mod_lt _ hw
  by_cases hi : f / w < ws.length
  · rw [test_eq _ hw, test_eq _ hw, clear, word_set ws hi]
    by_cases hdiv : g / w = f / w
    · rw [if_pos hdiv, BitVec.getLsbD_and, BitVec.getLsbD_not, getLsbD_mask f hlt, hdiv]
      simp [eq_iff_div_mod (w := w) (f := f) (g := g), hdiv, hlt]
    · have hne : g ≠ f := fun h => hdiv (h ▸ rfl)
      simp [hdiv, hne]
  · have hsame : clear ws f = ws := List.set_eq_of_length_le (not_lt.mp hi)
    have hout : test ws f = false :=
      test_of_ge ws hw (by rw [Nat.mul_comm]; exact (Nat.le_div_iff_mul_le hw).mp (not_lt.mp hi))
    rw [hsame]
    by_cases hg : g = f
    · simp [hg, hout]
    · simp [hg]

theorem support_set (hf : f < w * ws.length) : support (set ws f) = insert f (support ws) := by
  ext g
  rw [mem_support _ hw, test_set ws hw hf, Finset.mem_insert, mem_support _ hw]
  simp [or_comm]

theorem support_clear (f : Nat) : support (clear ws f) = (support ws).erase f := by
  ext g
  rw [mem_support _ hw, test_clear ws hw, Finset.mem_erase, mem_support _ hw]
  simp [and_comm]

theorem support_replicate (n : Nat) : support (List.replicate n 0#w) = ∅ := by
  ext f
  have hzero : word (List.replicate n 0#w) (f / w) = 0#w := by
    by_cases h : f / w < n <;> simp [word, h]
  simp [mem_support _ hw, test, hzero]

theorem word_eq_zero_iff : word ws i = 0#w ↔ ∀ f ∈ support ws, f / w ≠ i := by
  constructor
  · rintro h f hf rfl
    rw [mem_support _ hw, test_eq _ hw, h] at hf
    simp at hf
  intro h
  apply BitVec.eq_of_getLsbD_eq
  intro j hj
  have hdiv : (w * i + j) / w = i := by
    rw [mul_add_div hw, div_eq_of_lt hj, Nat.add_zero]
  have hmod : (w * i + j) % w = j := by rw [mul_add_mod, mod_eq_of_lt hj]
  by_contra hbit
  refine h (w * i + j) ((mem_support ws hw).mpr ?_) hdiv
  rw [test_eq _ hw, hdiv, hmod]
  simpa using hbit

theorem le_div_of_mem (hbelow : ∀ j < i, word ws j = 0#w) (hf : f ∈ support ws) : i ≤ f / w := by
  by_contra hlt
  exact (word_eq_zero_iff ws hw).mp (hbelow _ (not_le.mp hlt)) f hf rfl

omit hw

/-- The least number of the set in word `i`. -/
def lowest (i : Nat) : Nat := i * w + (word ws i).ctz.toNat

variable (h : word ws i ≠ 0#w)
include h

theorem ctz_lt : (word ws i).ctz.toNat < w := by
  by_contra hge
  have hbit := BitVec.getLsbD_true_ctz_of_ne_zero h
  rw [BitVec.getLsbD_of_ge _ _ (not_lt.mp hge)] at hbit
  exact Bool.false_ne_true hbit

theorem lowest_div : lowest ws i / w = i := by
  have hlt := ctz_lt ws h
  rw [lowest, Nat.mul_comm, mul_add_div (zero_lt_of_lt hlt), div_eq_of_lt hlt, Nat.add_zero]

theorem lowest_mod : lowest ws i % w = (word ws i).ctz.toNat := by
  rw [lowest, Nat.mul_comm, mul_add_mod, mod_eq_of_lt (ctz_lt ws h)]

theorem isLeast_lowest (hbelow : ∀ j < i, word ws j = 0#w) : IsLeast (support ws : Set Nat) (lowest ws i) := by
  have hw : 0 < w := zero_lt_of_lt (ctz_lt ws h)
  constructor
  · rw [Finset.mem_coe, mem_support _ hw, test_eq _ hw, lowest_div ws h, lowest_mod ws h]
    exact BitVec.getLsbD_true_ctz_of_ne_zero h
  intro f hf
  rw [Finset.mem_coe] at hf
  rcases Nat.lt_or_eq_of_le (le_div_of_mem ws hw hbelow hf) with hgt | heq
  · have := div_mul_le_self f w
    have hlt := ctz_lt ws h
    calc lowest ws i ≤ i * w + w := Nat.add_le_add_left hlt.le _
      _ = (i + 1) * w := (succ_mul i w).symm
      _ ≤ f / w * w := Nat.mul_le_mul_right w hgt
      _ ≤ f := this
  · rw [mem_support _ hw, test_eq _ hw, ← heq] at hf
    have hctz : (word ws i).ctz.toNat ≤ f % w := by
      by_contra hlt
      rw [BitVec.getLsbD_false_of_lt_ctz (not_le.mp hlt)] at hf
      exact Bool.false_ne_true hf
    calc lowest ws i ≤ i * w + f % w := Nat.add_le_add_left hctz _
      _ = f := by rw [heq, Nat.mul_comm, div_add_mod]

end PackedBits
