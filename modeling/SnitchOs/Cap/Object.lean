import Mathlib.Data.Nat.Bitwise
import Mathlib.Tactic

/-!
# Capabilities and handles

A capability is an object with rights over it, and a process names one by a `Handle`: a `u32` with a slot index in its
low 16 bits and the slot's generation in the high 16. The slot keeps a full `u32` generation and the table has no
bound on its length, so packing is faithful only for indices and generations below `2 ^ 16` (`Handle.index_new`,
`Handle.generation_new`).
-/

namespace SnitchOs

/-- `TaskId`; the kernel hands ids out in order and never recycles one. -/
abbrev TaskId := Nat

abbrev EndpointId := Nat

abbrev NotificationId := Nat

/-- Number of a `Call`, in the order calls are accepted. Ghost: no kernel code reads it. -/
abbrev CallNo := Nat

namespace Cap

structure Rights where
  bits : UInt32
deriving DecidableEq

namespace Rights

def none : Rights := ⟨0⟩
def emit : Rights := ⟨0b0001⟩
def send : Rights := ⟨0b0010⟩
def recv : Rights := ⟨0b0100⟩
def mint : Rights := ⟨0b1000⟩
def signal : Rights := ⟨0b1_0000⟩
def wait : Rights := ⟨0b10_0000⟩
def kill : Rights := ⟨0b100_0000⟩
def audio : Rights := ⟨0b1000_0000⟩
def display : Rights := ⟨0b1_0000_0000⟩

def contains (r other : Rights) : Bool := r.bits &&& other.bits == other.bits

def union (r other : Rights) : Rights := ⟨r.bits ||| other.bits⟩

end Rights

/-- What a capability points at. A `reply` object carries, besides the caller it answers, the ghost
number of the call it was minted for. -/
inductive Object
  | telemetrySink
  | spanSink
  | endpoint (id : EndpointId) (badge : UInt64)
  | reply (caller : TaskId) (call : CallNo)
  | notification (id : NotificationId)
  | process (id : TaskId)
  | audioSink
  | displaySink
deriving DecidableEq

structure Capability where
  object : Object
  rights : Rights
deriving DecidableEq

/-- How many times a grant may be invoked: a property of the table slot, not of the capability. -/
inductive Multiplicity
  | persistent
  | once
deriving DecidableEq

inductive CapError
  | outOfBounds
  | stale
  | notDelegable
deriving DecidableEq

inductive Denied
  | noSuchCapability
  | missingRight
  | wrongObject
deriving DecidableEq

/-! ### Handles -/

structure Handle where
  raw : UInt32
deriving DecidableEq

namespace Handle

def indexBits : UInt32 := 16
def indexMask : UInt32 := (1 <<< indexBits) - 1

def new (index generation : UInt32) : Handle :=
  ⟨(generation <<< indexBits) ||| (index &&& indexMask)⟩

/-- Any `u32` is a syntactically valid handle; the table decides whether it names anything. -/
def fromRaw (raw : UInt32) : Handle := ⟨raw⟩

def index (h : Handle) : UInt32 := h.raw &&& indexMask

def generation (h : Handle) : UInt32 := h.raw >>> indexBits

theorem toNat_raw_new (i g : UInt32) : (new i g).raw.toNat = 2 ^ 16 * (g.toNat % 2 ^ 16) + i.toNat % 2 ^ 16 := by
  have hmask : (i &&& indexMask).toNat = i.toNat % 2 ^ 16 := by
    rw [UInt32.toNat_and]
    exact Nat.and_two_pow_sub_one_eq_mod i.toNat 16
  have hshift : (g <<< indexBits).toNat = 2 ^ 16 * (g.toNat % 2 ^ 16) := by
    rw [UInt32.toNat_shiftLeft]
    change g.toNat <<< 16 % 2 ^ 32 = _
    rw [Nat.shiftLeft_eq]
    omega
  change ((g <<< indexBits) ||| (i &&& indexMask)).toNat = _
  rw [UInt32.toNat_or, hmask, hshift, Nat.two_pow_add_eq_or_of_lt (Nat.mod_lt _ (Nat.two_pow_pos 16))]

theorem toNat_index (h : Handle) : h.index.toNat = h.raw.toNat % 2 ^ 16 := by
  rw [index, UInt32.toNat_and]
  exact Nat.and_two_pow_sub_one_eq_mod h.raw.toNat 16

theorem toNat_generation (h : Handle) : h.generation.toNat = h.raw.toNat / 2 ^ 16 := by
  rw [generation, UInt32.toNat_shiftRight]
  exact Nat.shiftRight_eq_div_pow h.raw.toNat 16

@[simp] theorem index_new (i g : UInt32) : (new i g).index.toNat = i.toNat % 2 ^ 16 := by
  rw [toNat_index, toNat_raw_new]
  omega

@[simp] theorem generation_new (i g : UInt32) : (new i g).generation.toNat = g.toNat % 2 ^ 16 := by
  rw [toNat_generation, toNat_raw_new]
  omega

theorem ext_parts {h h' : Handle} (hi : h.index.toNat = h'.index.toNat)
    (hg : h.generation.toNat = h'.generation.toNat) : h = h' := by
  rw [toNat_index, toNat_index] at hi
  rw [toNat_generation, toNat_generation] at hg
  have hraw : h.raw = h'.raw := UInt32.toNat_inj.mp (by omega)
  cases h
  cases h'
  exact congrArg Handle.mk hraw

end Handle

end Cap

end SnitchOs
