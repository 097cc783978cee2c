import SnitchOs.Mem.PageTable

/-!
# Reading and changing one page's translation

The walks that follow existing tables only: `translate`, `remap`, `unmap`, and the split of a 2 MiB leaf
into 512 pages.
-/

namespace SnitchOs.Mem

namespace Pte

variable (p : Pte)

def leafPa : Pa := (p >>> 10) <<< 12

def perms : PtePerms := p &&& 0b111110#64

end Pte

/-- A 4 KiB page as a walk finds it. -/
structure Leaf where
  pa : Pa
  perms : PtePerms
  deriving DecidableEq

def pageSize : Nat := 4096

namespace PhysMem

variable (m : PhysMem)

/-- Descends one level through an existing branch. -/
def walkExisting (table : Pa) (idx : Nat) : Except MapError Pa :=
  let pte := m.readEntry table idx
  if pte.isBranch then .ok pte.childPa else .error .notMapped

def walkLeafTable (root : Pa) (va : Nat) : Except MapError Pa :=
  match m.walkExisting root (splitVa va).vpn2 with
  | .error e => .error e
  | .ok mid => m.walkExisting mid (splitVa va).vpn1

def translate (root : Pa) (va : Nat) : Option Leaf :=
  match m.walkLeafTable root va with
  | .error _ => none
  | .ok leafTable =>
    let pte := m.readEntry leafTable (splitVa va).vpn0
    if pte.isLeaf then some ⟨pte.leafPa, pte.perms⟩ else none

def remap (root : Pa) (va : Nat) (newPa : Pa) (perms : PtePerms) : PhysMem × Except MapError Unit :=
  match m.walkLeafTable root va with
  | .error e => (m, .error e)
  | .ok leafTable =>
    if (m.readEntry leafTable (splitVa va).vpn0).isLeaf then
      (m.writeEntry leafTable (splitVa va).vpn0 (Pte.leaf newPa perms), .ok ())
    else (m, .error .notMapped)

def unmap (root : Pa) (va : Nat) : PhysMem × Except MapError Pa :=
  match m.walkLeafTable root va with
  | .error e => (m, .error e)
  | .ok leafTable =>
    let existing := m.readEntry leafTable (splitVa va).vpn0
    if existing.isLeaf then (m.writeEntry leafTable (splitVa va).vpn0 Pte.invalid, .ok existing.leafPa)
    else (m, .error .notMapped)

def splitHugeLeaf (root : Pa) (va : Nat) : PhysMem × Except MapError Unit :=
  match m.walkExisting root (splitVa va).vpn2 with
  | .error e => (m, .error e)
  | .ok mid =>
    let midEntry := m.readEntry mid (splitVa va).vpn1
    if midEntry.isLeaf then
      match m.allocZeroed with
      | none => (m, .error .outOfFrames)
      | some (l0, m) =>
        let m := (List.range 512).foldl (fun m i =>
          m.writeEntry l0 i (Pte.leaf (midEntry.leafPa + BitVec.ofNat 64 (i * pageSize)) midEntry.perms)) m
        (m.writeEntry mid (splitVa va).vpn1 (Pte.branch l0), .ok ())
    else (m, .error .notMapped)

/-- Installs a 2 MiB leaf in `mid`, and `mid` in the root where the root has no table yet. -/
def map2mib (root mid : Pa) (va : Nat) (pa : Pa) (perms : PtePerms) : PhysMem × Bool :=
  let existingRoot := m.readEntry root (splitVa va).vpn2
  if existingRoot.isValid ∧ existingRoot ≠ Pte.branch mid then (m, false)
  else
    let m := if existingRoot.isValid then m else m.writeEntry root (splitVa va).vpn2 (Pte.branch mid)
    let newLeaf := Pte.leaf pa perms
    let existingLeaf := m.readEntry mid (splitVa va).vpn1
    if existingLeaf = newLeaf then (m, true)
    else if existingLeaf.isValid then (m, false)
    else (m.writeEntry mid (splitVa va).vpn1 newLeaf, true)

end PhysMem

/-- The `satp` value of the address space under a root. -/
def satpFor (root : Pa) : BitVec 64 := (8#64 <<< 60) ||| (root >>> 12)

/-! ### User buffers -/

def maxUserStrLen : Nat := 256

/-- `[ptr, ptr + len)` is a buffer of the user half; an end that wraps is above it as well. -/
def userRangeOk (ptr len : Nat) : Bool :=
  ptr != 0 && decide (len ≤ maxUserStrLen) && decide (ptr + len ≤ userVaEnd)

end SnitchOs.Mem
