import SnitchOs.Lib.LittleEndian

/-!
# Guest RAM

A flat array of bytes from `RAM_BASE` on. In the stress mode the frames of the guest are stored in another order, and an
access that crosses a page is split.
-/

namespace SnitchOs.Snemu

open LittleEndian List

abbrev U64 := BitVec 64

def ramBase : U64 := 0x80000000

def page : Nat := 0x1000

inductive BusError
  | outOfRange (addr : U64)
  deriving DecidableEq

inductive Width
  | b | h | w | d
  deriving DecidableEq

namespace Width

def len : Width → Nat
  | b => 1
  | h => 2
  | w => 4
  | d => 8

@[reducible] def bits : Width → Nat
  | b => 8
  | h => 16
  | w => 32
  | d => 64

end Width

/-- `byte` is the storage; offsets from `size` on are not there. No allocation is larger than `isize::MAX`. -/
structure Memory where
  size : Nat
  sizeLt : size < 2 ^ 63
  byte : Nat → UInt8
  highWater : Nat
  /-- The multiplier of the stress mode. -/
  scramble : Option Nat

/-- Odd and coprime to the number of frames; at most `fuel` steps from the middle. -/
def coprimeFrom (n : Nat) : Nat → Nat → Nat
  | 0, k => k
  | fuel + 1, k => if Nat.gcd k n = 1 then k else coprimeFrom n fuel (k + 2)

def scrambleMultiplier (n : Nat) : Option Nat :=
  if n ≤ 2 then none else some (coprimeFrom n n (n / 2 ||| 1))

namespace Memory

def new (size : Nat) (h : size < 2 ^ 63) : Memory := ⟨size, h, fun _ => 0, 0, none⟩

variable (m : Memory)

def setScramble (on : Bool) : Memory :=
  { m with scramble := if on then scrambleMultiplier (m.size / page) else none }

def storageOffset (raw : Nat) : Nat :=
  match m.scramble with
  | none => raw
  | some k => raw / page * k % 2 ^ 64 % (m.size / page) * page + raw % page

def rawOffset (addr : U64) (len : Nat) : Except BusError Nat :=
  if ramBase ≤ addr ∧ (addr - ramBase).toNat + len ≤ m.size then .ok (addr - ramBase).toNat
  else .error (.outOfRange addr)

/-- Where the access starts in storage. -/
def span (addr : U64) (len : Nat) : Except BusError Nat :=
  match m.rawOffset addr len with
  | .error e => .error e
  | .ok raw => if m.storageOffset raw + len ≤ m.size then .ok (m.storageOffset raw) else .error (.outOfRange addr)

def needsSplit (addr : U64) (len : Nat) : Bool := m.scramble.isSome && decide (page < addr.toNat % page + len)

/-- The stored bytes from an offset on. -/
def slice (start len : Nat) : List UInt8 := (List.range len).map fun i => m.byte (start + i)

/-- As far as the access stays on a page. -/
def chunk (addr : U64) (len : Nat) : Nat := min (page - addr.toNat % page) len

def readSplit : Nat → U64 → Nat → Except BusError (List UInt8)
  | 0, _, _ => .ok []
  | fuel + 1, addr, len =>
    if len = 0 then .ok []
    else
      match m.span addr (chunk addr len) with
      | .error e => .error e
      | .ok start =>
        match readSplit fuel (addr + BitVec.ofNat 64 (chunk addr len)) (len - chunk addr len) with
        | .error e => .error e
        | .ok rest => .ok (m.slice start (chunk addr len) ++ rest)

def readBytes (addr : U64) (len : Nat) : Except BusError (List UInt8) :=
  if m.needsSplit addr len then
    match m.rawOffset addr len with
    | .error e => .error e
    | .ok _ => m.readSplit len addr len
  else
    match m.span addr len with
    | .error e => .error e
    | .ok start => .ok (m.slice start len)

def read (width : Width) (addr : U64) : Except BusError (BitVec width.bits) :=
  (m.readBytes addr width.len).map fun bytes => BitVec.ofNat _ (ofBytes bytes)

end Memory

end SnitchOs.Snemu
