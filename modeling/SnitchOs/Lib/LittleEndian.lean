import Mathlib.Data.Nat.Bitwise

/-!
# Little-endian bytes

Numbers of a fixed width as bytes, lowest first, and two's complement on them.
-/

namespace LittleEndian

open List

def toBytes : Nat → Nat → List UInt8
  | 0, _ => []
  | k + 1, n => UInt8.ofNat n :: toBytes k (n / 256)

def ofBytes : List UInt8 → Nat
  | [] => 0
  | b :: bytes => b.toNat + 256 * ofBytes bytes

@[simp] theorem length_toBytes (k n : Nat) : (toBytes k n).length = k := by
  induction k generalizing n with
  | zero => rfl
  | succ k ih => rw [toBytes, length_cons, ih]

theorem ofBytes_lt (bytes : List UInt8) : ofBytes bytes < 256 ^ bytes.length := by
  induction bytes with
  | nil => decide
  | cons b bytes ih =>
    have hb := b.toNat_lt
    rw [ofBytes, length_cons, Nat.pow_succ]
    omega

theorem ofBytes_toBytes (k n : Nat) : ofBytes (toBytes k n) = n % 256 ^ k := by
  induction k generalizing n with
  | zero => rw [Nat.pow_zero, Nat.mod_one]; rfl
  | succ k ih =>
    have hlow : (UInt8.ofNat n).toNat = n % 256 := UInt8.toNat_ofNat'
    rw [toBytes, ofBytes, ih, hlow, Nat.pow_succ, Nat.mul_comm (256 ^ k) 256, Nat.mod_mul]

theorem toBytes_ofBytes (bytes : List UInt8) : toBytes bytes.length (ofBytes bytes) = bytes := by
  induction bytes with
  | nil => rfl
  | cons b bytes ih =>
    have hb := b.toNat_lt
    have hlow : (b.toNat + 256 * ofBytes bytes) % 256 = b.toNat := by omega
    have hhigh : (b.toNat + 256 * ofBytes bytes) / 256 = ofBytes bytes := by omega
    rw [length_cons, toBytes, ofBytes, hhigh, ih]
    congr 1
    apply UInt8.toNat_inj.mp
    rw [UInt8.toNat_ofNat', hlow]

theorem take_toBytes (h : j ≤ k) (n : Nat) : (toBytes k n).take j = toBytes j n := by
  induction j generalizing k n with
  | zero => rfl
  | succ j ih =>
    obtain ⟨k, rfl⟩ : ∃ k', k = k' + 1 := ⟨k - 1, by omega⟩
    rw [toBytes, take_succ_cons, ih (by omega), toBytes]

theorem ofBytes_append (a b : List UInt8) : ofBytes (a ++ b) = ofBytes a + 256 ^ a.length * ofBytes b := by
  induction a with
  | nil => simp [ofBytes]
  | cons x a ih =>
    rw [cons_append, ofBytes, ofBytes, ih, length_cons, Nat.pow_succ, Nat.mul_comm (256 ^ a.length) 256,
      Nat.mul_assoc, Nat.mul_add, Nat.add_assoc]

/-! ### Sign extension -/

/-- What widening fills with. -/
def signFill (bytes : List UInt8) : UInt8 := if bytes.getD (bytes.length - 1) 0 &&& 0x80 ≠ 0 then 0xFF else 0x00

theorem ofBytes_replicate_zero (j : Nat) : ofBytes (List.replicate j 0x00) = 0 := by
  induction j with
  | zero => rfl
  | succ j ih => rw [replicate_succ, ofBytes, ih]; rfl

theorem ofBytes_replicate_ones (j : Nat) : ofBytes (List.replicate j 0xFF) + 1 = 256 ^ j := by
  induction j with
  | zero => rfl
  | succ j ih =>
    have hff : (0xFF : UInt8).toNat = 255 := rfl
    rw [replicate_succ, ofBytes, hff, Nat.pow_succ, ← ih]
    omega

theorem and_0x80_ne_zero (b : UInt8) : b &&& 0x80 ≠ 0 ↔ 128 ≤ b.toNat := by
  have hb := b.toNat_lt
  have hand : (b &&& 0x80).toNat = (b.toNat.testBit 7).toNat * 2 ^ 7 := by
    rw [UInt8.toNat_and]
    exact Nat.and_two_pow b.toNat 7
  have hbit : b.toNat.testBit 7 = decide (b.toNat / 2 ^ 7 % 2 = 1) := Nat.testBit_eq_decide_div_mod_eq
  rw [ne_eq, ← UInt8.toNat_inj, hand, hbit]
  by_cases h : b.toNat / 2 ^ 7 % 2 = 1
  · rw [decide_eq_true h]
    exact ⟨fun _ => by omega, fun _ => by decide⟩
  · rw [decide_eq_false h]
    exact ⟨fun hne => absurd rfl hne, fun _ => by omega⟩

theorem signFill_eq (h : bytes ≠ []) : signFill bytes = if 2 * ofBytes bytes < 256 ^ bytes.length then 0x00 else 0xFF := by
  obtain ⟨low, top, rfl⟩ : ∃ low top, bytes = low ++ [top] :=
    ⟨bytes.dropLast, bytes.getLast h, (dropLast_concat_getLast h).symm⟩
  have htop : (low ++ [top]).getD ((low ++ [top]).length - 1) 0 = top := by simp
  have hlow := ofBytes_lt low
  have hvalue : ofBytes (low ++ [top]) = ofBytes low + 256 ^ low.length * top.toNat := by
    rw [ofBytes_append]
    simp [ofBytes]
  have hlength : 256 ^ (low ++ [top]).length = 2 * (256 ^ low.length * 128) := by
    rw [length_append, length_singleton, Nat.pow_succ]
    omega
  rw [signFill, htop, hvalue, hlength]
  by_cases h128 : 128 ≤ top.toNat
  · have := Nat.mul_le_mul_left (256 ^ low.length) h128
    rw [if_pos ((and_0x80_ne_zero top).mpr h128), if_neg (by omega)]
  · have := Nat.mul_le_mul_left (256 ^ low.length) (Nat.le_of_lt_succ (Nat.lt_of_not_ge h128) : top.toNat ≤ 127)
    rw [if_neg (mt (and_0x80_ne_zero top).mp h128), if_pos (by omega)]

theorem ofBytes_signExtend (h : bytes ≠ []) (hle : bytes.length ≤ w) :
    ofBytes (bytes ++ List.replicate (w - bytes.length) (signFill bytes)) =
      if 2 * ofBytes bytes < 256 ^ bytes.length then ofBytes bytes else ofBytes bytes + (256 ^ w - 256 ^ bytes.length) := by
  rw [ofBytes_append, signFill_eq h]
  split
  · rw [ofBytes_replicate_zero, Nat.mul_zero, Nat.add_zero]
  have hpow : 256 ^ w = 256 ^ bytes.length * 256 ^ (w - bytes.length) := by
    rw [← Nat.pow_add, Nat.add_sub_cancel' hle]
  rw [hpow, ← ofBytes_replicate_ones (w - bytes.length), Nat.mul_add, Nat.mul_one, Nat.add_sub_cancel]

end LittleEndian
