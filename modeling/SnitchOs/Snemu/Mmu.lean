import SnitchOs.Snemu.Memory

/-!
# Sv39 translation

The walk of the emulated hart and its permission check.
-/

namespace SnitchOs.Snemu

namespace Pte

def v : U64 := 1 <<< 0
def r : U64 := 1 <<< 1
def w : U64 := 1 <<< 2
def x : U64 := 1 <<< 3
def u : U64 := 1 <<< 4

end Pte

def ppnMask : U64 := (1#64 <<< 44) - 1

inductive Access
  | fetch | load | store
  deriving DecidableEq

/-- Not the identity. -/
def isSv39 (satp : U64) : Bool := satp >>> 60 == 8

/-- Where a walk ends: the leaf, its level and the address it gives. -/
structure Walked where
  level : Nat
  pte : U64
  pa : U64
  deriving DecidableEq

def offsetMask (level : Nat) : U64 := (1#64 <<< (12 + 9 * level)) - 1

def vpn (va : U64) (level : Nat) : U64 := (va >>> (12 + 9 * level)) &&& 0x1ff

/-- From a table of the level below `levels` down; `none` is a page fault. -/
def walkFrom (mem : Memory) (va : U64) : Nat → U64 → Option Walked
  | 0, _ => none
  | level + 1, table =>
    match mem.read .d (table + vpn va level * 8) with
    | .error _ => none
    | .ok pte =>
      if pte &&& Pte.v = 0 then none
      else
        let ppn := (pte >>> 10) &&& ppnMask
        if pte &&& (Pte.r ||| Pte.x) ≠ 0 then
          some ⟨level, pte, ((ppn <<< 12) &&& ~~~offsetMask level) ||| (va &&& offsetMask level)⟩
        else walkFrom mem va level (ppn <<< 12)

/-- With the level, which `walk_leaf` does not return. -/
def walk (satp va : U64) (mem : Memory) : Option Walked := walkFrom mem va 3 ((satp &&& ppnMask) <<< 12)

def walkLeaf (satp va : U64) (mem : Memory) : Option (U64 × U64) := (walk satp va mem).map fun w => (w.pte, w.pa)

def Access.bit : Access → U64
  | .fetch => Pte.x
  | .load => Pte.r
  | .store => Pte.w

def checkPerms (pte : U64) (access : Access) (user sum : Bool) : Bool :=
  let userPage := pte &&& Pte.u != 0
  let privilegeOk :=
    if user then userPage
    -- Supervisor code reads and writes user pages under SUM and never runs them.
    else if userPage then access != .fetch && sum
    else true
  privilegeOk && pte &&& access.bit != 0

def translate (satp va : U64) (access : Access) (mem : Memory) (user sum : Bool) : Option U64 :=
  if isSv39 satp then
    match walkLeaf satp va mem with
    | none => none
    | some (pte, pa) => if checkPerms pte access user sum then some pa else none
  else some va

end SnitchOs.Snemu
