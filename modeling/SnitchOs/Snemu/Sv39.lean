import SnitchOs.Snemu.Mmu

/-!
# What Sv39 asks for

The translation of the architecture, written down beside that of the emulated hart. It refuses an address that is not
the extension of its low 39 bits, an entry that is writable and not readable, and a large page that is not aligned. The
emulated walk looks at none of these; otherwise the two are the same.
-/

namespace SnitchOs.Snemu

open BitVec List

def ppnOf (pte : U64) : U64 := (pte >>> 10) &&& ppnMask

/-- Bits 63 to 39 are bit 38. -/
def canonical (va : U64) : Bool := (va.setWidth 39).signExtend 64 == va

def reserved (pte : U64) : Bool := pte &&& Pte.r == 0 && pte &&& Pte.w != 0

def isLeaf (pte : U64) : Bool := pte &&& (Pte.r ||| Pte.x) != 0

/-- User code on user pages; supervisor code on its own, or to read and write under SUM. -/
def permits (pte : U64) (access : Access) (user sum : Bool) : Bool :=
  pte &&& access.bit != 0 && (if pte &&& Pte.u != 0 then user || (sum && access != .fetch) else !user)

section Translation

variable (mem : Memory) (va : U64) (access : Access) (user sum : Bool)

def sv39From : Nat → U64 → Option U64
  | 0, _ => none
  | level + 1, table =>
    match mem.read .d (table + vpn va level * 8) with
    | .error _ => none
    | .ok pte =>
      if pte &&& Pte.v = 0 ∨ reserved pte then none
      else if isLeaf pte = false then sv39From level (ppnOf pte <<< 12)
      else if permits pte access user sum ∧ (ppnOf pte).toNat % 2 ^ (9 * level) = 0 then
        some (.ofNat 64 ((ppnOf pte).toNat * 2 ^ 12 + va.toNat % 2 ^ (12 + 9 * level)))
      else none

def sv39 (satp : U64) : Option U64 :=
  if canonical va then sv39From mem va access user sum 3 ((satp &&& ppnMask) <<< 12) else none

/-- The entries that a walk reads, with their levels. -/
def pathFrom : Nat → U64 → List (Nat × U64)
  | 0, _ => []
  | level + 1, table =>
    match mem.read .d (table + vpn va level * 8) with
    | .error _ => []
    | .ok pte => (level, pte) :: if pte &&& Pte.v = 0 ∨ isLeaf pte then [] else pathFrom level (ppnOf pte <<< 12)

end Translation

/-- Not reserved, and aligned if it is a leaf. -/
def lawful (entry : Nat × U64) : Bool :=
  !reserved entry.2 && (!isLeaf entry.2 || (ppnOf entry.2).toNat % 2 ^ (9 * entry.1) == 0)

/-- Where the emulated walk asks for no less than the architecture. -/
def lawfulWalk (satp va : U64) (mem : Memory) : Bool :=
  canonical va && (pathFrom mem va 3 ((satp &&& ppnMask) <<< 12)).all lawful

variable {pte va : U64} {access : Access} {user sum : Bool} {mem : Memory}

theorem checkPerms_eq_permits : checkPerms pte access user sum = permits pte access user sum := by
  unfold checkPerms permits
  cases pte &&& Pte.u != 0 <;> cases user <;> cases sum <;> cases access <;> simp [Bool.and_comm]

theorem ppnOf_lt (pte : U64) : (ppnOf pte).toNat < 2 ^ 44 := by
  rw [ppnOf, toNat_and]
  exact Nat.and_lt_two_pow _ (by decide)

theorem toNat_offsetMask (hl : level < 3) : (offsetMask level).toNat = 2 ^ (12 + 9 * level) - 1 := by
  rcases level with _ | _ | _ | level
  · rfl
  · rfl
  · rfl
  · omega

theorem and_not_of_and_eq_zero {x m : U64} (h : x &&& m = 0) : x &&& ~~~m = x := by
  apply eq_of_getLsbD_eq
  intro i hi
  have hbit := congrArg (getLsbD · i) h
  simp only [getLsbD_and, getLsbD_not] at hbit ⊢
  revert hbit
  cases x.getLsbD i <;> cases m.getLsbD i <;> simp [hi]

theorem walked_pa (hl : level < 3) (ha : (ppnOf pte).toNat % 2 ^ (9 * level) = 0) :
    ((ppnOf pte <<< 12) &&& ~~~offsetMask level) ||| (va &&& offsetMask level) =
      .ofNat 64 ((ppnOf pte).toNat * 2 ^ 12 + va.toNat % 2 ^ (12 + 9 * level)) := by
  have hppn := ppnOf_lt pte
  have hpage : (ppnOf pte <<< 12).toNat = 2 ^ (12 + 9 * level) * ((ppnOf pte).toNat / 2 ^ (9 * level)) := by
    have hdiv := Nat.div_add_mod (ppnOf pte).toNat (2 ^ (9 * level))
    rw [ha, Nat.add_zero] at hdiv
    rw [toNat_shiftLeft, Nat.shiftLeft_eq, Nat.mod_eq_of_lt (by omega), Nat.pow_add, Nat.mul_assoc, hdiv, Nat.mul_comm]
  have hlow : (ppnOf pte <<< 12) &&& offsetMask level = 0 := by
    apply eq_of_toNat_eq
    rw [toNat_and, hpage, toNat_offsetMask hl, Nat.and_two_pow_sub_one_eq_mod, Nat.mul_mod_right]
    rfl
  apply eq_of_toNat_eq
  rw [and_not_of_and_eq_zero hlow, toNat_or, toNat_and, toNat_offsetMask hl, Nat.and_two_pow_sub_one_eq_mod, hpage,
    ← Nat.two_pow_add_eq_or_of_lt (Nat.mod_lt _ (Nat.two_pow_pos _)), ← hpage, toNat_ofNat, toNat_shiftLeft,
    Nat.shiftLeft_eq]
  rcases level with _ | _ | _ | level <;> omega

theorem sv39From_eq (hl : level ≤ 3) (table : U64) : sv39From mem va access user sum level table =
    if (pathFrom mem va level table).all lawful then
      (walkFrom mem va level table).bind fun w => if checkPerms w.pte access user sum then some w.pa else none else none := by
  induction level generalizing table with
  | zero => rfl
  | succ level ih =>
    unfold sv39From pathFrom walkFrom
    cases mem.read .d (table + vpn va level * 8) with
    | error e => rfl
    | ok pte =>
      have hleaf : pte &&& (Pte.r ||| Pte.x) ≠ 0 ↔ isLeaf pte = true := by simp [isLeaf]
      simp only [hleaf, all_cons, lawful]
      by_cases hv : pte &&& Pte.v = 0
      · simp [hv]
      simp only [hv, false_or, if_false]
      cases hr : reserved pte with
      | true => simp
      | false =>
        cases hk : isLeaf pte with
        | false => exact ih (by omega) (ppnOf pte <<< 12)
        | true =>
          have hpa := @walked_pa pte va level hl
          rw [ppnOf] at hpa ⊢
          generalize hn : ((pte >>> 10) &&& ppnMask).toNat % 2 ^ (9 * level) = n at hpa
          by_cases ha : n = 0
          · simp [ha, checkPerms_eq_permits, hpa]
          · simp [ha]

/-- Sv39 refuses what the hart refuses and every walk that is not lawful; where both give an address it is the same. -/
theorem translate_refuses_as_sv39 (satp va : U64) (access : Access) (mem : Memory) (user sum : Bool)
    (hsv : isSv39 satp = true) : sv39 mem va access user sum satp =
      (if lawfulWalk satp va mem then translate satp va access mem user sum else none) ∧
    ((∀ pa, translate satp va access mem user sum = some pa → sv39 mem va access user sum satp = some pa) ↔
      lawfulWalk satp va mem = true ∨ translate satp va access mem user sum = none) := by
  have heq : sv39 mem va access user sum satp =
      if lawfulWalk satp va mem then translate satp va access mem user sum else none := by
    rw [sv39, lawfulWalk, sv39From_eq (Nat.le_refl 3), translate, if_pos hsv, walkLeaf, walk]
    cases canonical va with
    | false => rfl
    | true =>
      rw [if_pos rfl, Bool.true_and]
      congr 1
      cases walkFrom mem va 3 ((satp &&& ppnMask) <<< 12) <;> rfl
  refine ⟨heq, ?_⟩
  rw [heq]
  cases lawfulWalk satp va mem <;> cases translate satp va access mem user sum <;> simp

def everyEntry (pte : U64) : Memory := ⟨0x1000, by decide, fun i => .ofNat (pte.toNat >>> (8 * (i % 8))), 0x1000, none⟩

def firstRoot : U64 := 0x8000000000080000

theorem translate_refuses_as_sv39_gigapage : sv39 (everyEntry 0x2000000f) 0x1234 .load false false firstRoot = some 0x80001234 :=
  (translate_refuses_as_sv39 firstRoot 0x1234 .load (everyEntry 0x2000000f) false false (by decide)).1.trans (by decide)

/-- An address that is not canonical, an entry that is writable and not readable, and a large page that is not aligned
are all translated. -/
theorem unlawful_walks_translated :
    translate firstRoot 0x8000000000 .load (everyEntry 0x2000000f) false false = some 0x80000000 ∧
      canonical 0x8000000000 = false ∧
    translate firstRoot 0 .store (everyEntry 0x2000000d) false false = some 0x80000000 ∧ reserved 0x2000000d = true ∧
    translate firstRoot 0 .load (everyEntry 0x2000040f) false false = some 0x80000000 ∧
      ppnOf 0x2000040f = 0x80001 := by
  decide

end SnitchOs.Snemu
