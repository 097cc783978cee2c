import SnitchOs.Mem.Translate

/-!
# Buffers of the user half

`range_mapped` looks at one address of every page of a buffer and answers for all its bytes.
-/

namespace SnitchOs.Mem

namespace PhysMem

variable (m : PhysMem) {va : Nat} {root : Pa} {required : PtePerms}

theorem translate_congr (root : Pa) (h : va / pageSize = va' / pageSize) : m.translate root va = m.translate root va' := by
  have hpage : va / 4096 = va' / 4096 := h
  have h2 : (splitVa va).vpn2 = (splitVa va').vpn2 := by rw [splitVa_vpn2, splitVa_vpn2]; omega
  have h1 : (splitVa va).vpn1 = (splitVa va').vpn1 := by rw [splitVa_vpn1, splitVa_vpn1]; omega
  have h0 : (splitVa va).vpn0 = (splitVa va').vpn0 := by rw [splitVa_vpn0, splitVa_vpn0]; omega
  simp [translate, walkLeafTable, h2, h1, h0]

def allows (root : Pa) (va : Nat) (required : PtePerms) : Bool :=
  match m.translate root va with
  | some leaf => leaf.perms &&& required == required
  | none => false

def rangeMappedLoop (root : Pa) (va len : Nat) (required : PtePerms) : Nat → Nat → Bool
  | 0, _ => true
  | fuel + 1, done =>
    if done < len then
      m.allows root (va + done) required &&
        rangeMappedLoop root va len required fuel
          (done + min (pageSize - (va + done) % pageSize) (len - done))
    else true

/-- `range_mapped`. Every round advances, so `len` of them are enough. -/
def rangeMapped (root : Pa) (va len : Nat) (required : PtePerms) : Bool :=
  len == 0 || userRangeOk va len && m.rangeMappedLoop root va len required len 0

theorem allows_iff : m.allows root va required = true ↔
      ∃ leaf, m.translate root va = some leaf ∧ leaf.perms &&& required = required := by
  unfold allows
  cases m.translate root va with
  | none | some leaf => simp

theorem rangeMappedLoop_iff : ∀ {done : Nat}, len ≤ done + fuel → (m.rangeMappedLoop root va len required fuel done = true ↔
      ∀ k, done ≤ k → k < len → m.allows root (va + k) required = true) := by
  induction fuel with
  | zero =>
    intro done hfuel
    exact ⟨fun _ k hk hlt => by omega, fun _ => rfl⟩
  | succ fuel ih =>
    intro done hfuel
    unfold rangeMappedLoop
    by_cases hlt : done < len
    · have hmod : (va + done) % pageSize < pageSize := Nat.mod_lt _ (by decide)
      rw [if_pos hlt, Bool.and_eq_true, ih (by omega)]
      constructor
      · rintro ⟨hhere, hrest⟩ k hk hkl
        by_cases hin : k < done + min (pageSize - (va + done) % pageSize) (len - done)
        · -- still on the page of `done`
          have hpage : (va + k) / pageSize = (va + done) / pageSize := by
            simp only [pageSize] at *
            omega
          rw [allows, m.translate_congr root hpage]
          exact hhere
        · exact hrest k (by omega) hkl
      · intro hall
        exact ⟨hall done le_rfl hlt, fun k hk hkl => hall k (by omega) hkl⟩
    · rw [if_neg hlt]
      exact ⟨fun _ k hk hkl => by omega, fun _ => rfl⟩

/-- A buffer that is not empty is accepted if and only if it is in the user half and every byte of it
translates to a page with the required permissions. -/
theorem rangeMapped_iff (root : Pa) (va len : Nat) (required : PtePerms) :
    m.rangeMapped root va len required = true ↔
      len = 0 ∨ userRangeOk va len = true ∧
        ∀ k < len, ∃ leaf, m.translate root (va + k) = some leaf ∧ leaf.perms &&& required = required := by
  rw [rangeMapped, Bool.or_eq_true, Bool.and_eq_true, m.rangeMappedLoop_iff (Nat.zero_add len).ge, beq_iff_eq]
  simp [m.allows_iff]

end PhysMem

end SnitchOs.Mem
