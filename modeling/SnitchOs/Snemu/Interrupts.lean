import Mathlib.Data.List.MinMax
import Mathlib.Data.Prod.Lex
import SnitchOs.Lib.Runs
import SnitchOs.Snemu.Memory

/-!
# The UART's interrupt line

The interrupt controller keeps its own copy of the line, which the bus renews on writes to the UART. The level itself
also follows the receive queue: the host fills it, and reads of the receive buffer empty it.
-/

namespace SnitchOs.Snemu

open List

/-! ### UART -/

structure Uart where
  out : List UInt8
  rx : List UInt8
  ier : UInt8

namespace Uart

variable (d : Uart)

def new : Uart := ⟨[], [], 0⟩

/-- Offset 0 takes a byte of the input. -/
def read (offset : Nat) : UInt8 × Uart :=
  match offset with
  | 0 => (d.rx.headD 0, { d with rx := d.rx.tail })
  | 1 => (d.ier, d)
  | 5 => (0x20 ||| 0x40 ||| (if d.rx.isEmpty then 0 else 0x01), d)
  | _ => (0, d)

def write (offset : Nat) (value : UInt8) : Uart :=
  match offset with
  | 0 => { d with out := d.out ++ [value] }
  | 1 => { d with ier := value }
  | _ => d

def interruptAsserted : Bool := d.ier &&& 0x02 != 0 || (d.ier &&& 0x01 != 0 && !d.rx.isEmpty)

def pushInput (bytes : List UInt8) : Uart := { d with rx := d.rx ++ bytes }

end Uart

/-! ### PLIC -/

/-- Priorities, then enable bits, then a threshold and a claim register for each context. -/
inductive PlicReg
  | priority (source : Nat)
  | threshold (context : Nat)
  | claim (context : Nat)
  | enable (context word : Nat)
  | unused

structure Plic where
  priority : Nat → BitVec 32
  threshold : Nat → BitVec 32
  enable : Nat → Nat → BitVec 32
  line : Nat → Bool
  /-- Claimed and not completed. -/
  inProgress : Nat → Bool

namespace Plic

def sources : Nat := 64
def contexts : Nat := 4

variable (d : Plic)

def new : Plic := ⟨fun _ => 0, fun _ => 0, fun _ _ => 0, fun _ => false, fun _ => false⟩

def setSource (source : Nat) (asserted : Bool) : Plic :=
  { d with line := fun s => if s = source ∧ s < sources then asserted else d.line s }

def forwarding (source : Nat) : Bool := d.line source && !d.inProgress source

def enabled (context source : Nat) : Bool := (d.enable context (source / 32)).getLsbD (source % 32)

def deliverable (context source : Nat) : Bool :=
  d.forwarding source && d.enabled context source && decide (d.threshold context < d.priority source)

/-- Among equals the lowest id ranks highest. -/
def rank (source : Nat) : Nat ×ₗ Natᵒᵈ := toLex ((d.priority source).toNat, OrderDual.toDual source)

def topPending (context : Nat) : Option Nat :=
  if contexts ≤ context then none else ((range' 1 (sources - 1)).filter (d.deliverable context)).argmax d.rank

def seip (context : Nat) : Bool := (d.topPending context).isSome

def claim (context : Nat) : BitVec 32 × Plic :=
  match d.topPending context with
  | some source => (BitVec.ofNat 32 source, { d with inProgress := fun s => decide (s = source) || d.inProgress s })
  | none => (0, d)

def complete (source : BitVec 32) : Plic :=
  { d with inProgress := fun s => d.inProgress s && !decide (s = source.toNat ∧ s < sources) }

/-- What `read` and `write` decode an offset to. -/
def regAt (offset : Nat) : PlicReg :=
  if offset < 0x2000 then .priority (offset / 4)
  else if 0x200000 ≤ offset then
    if (offset - 0x200000) % 0x1000 = 0 then .threshold ((offset - 0x200000) / 0x1000)
    else if (offset - 0x200000) % 0x1000 = 4 then .claim ((offset - 0x200000) / 0x1000)
    else .unused
  else .enable ((offset - 0x2000) / 0x80) ((offset - 0x2000) % 0x80 / 4)

def read (reg : PlicReg) : BitVec 32 × Plic :=
  match reg with
  | .priority source => (if source < sources then d.priority source else 0, d)
  | .threshold context => (if context < contexts then d.threshold context else 0, d)
  | .claim context => d.claim context
  | .enable context word => (if context < contexts ∧ word < 2 then d.enable context word else 0, d)
  | .unused => (0, d)

def write (reg : PlicReg) (value : BitVec 32) : Plic :=
  match reg with
  | .priority source => { d with priority := fun s => if s = source ∧ s < sources then value else d.priority s }
  | .threshold context =>
    { d with threshold := fun c => if c = context ∧ c < contexts then value else d.threshold c }
  | .claim _ => d.complete value
  | .enable context word =>
    { d with
      enable := fun c w => if c = context ∧ w = word ∧ c < contexts ∧ w < 2 then value else d.enable c w }
  | .unused => d

/-- Asserted, enabled, above the threshold and not claimed. -/
def Ready (context source : Nat) : Prop :=
  context < contexts ∧ 1 ≤ source ∧ source < sources ∧ d.deliverable context source = true

/-- The ready source of the highest priority, of the lowest id among these. -/
def First (context source : Nat) : Prop :=
  d.Ready context source ∧ ∀ s, d.Ready context s →
    d.priority s < d.priority source ∨ d.priority s = d.priority source ∧ source ≤ s

variable {d}

theorem mem_filter_ready : s ∈ (range' 1 (sources - 1)).filter (d.deliverable context) ↔
    1 ≤ s ∧ s < sources ∧ d.deliverable context s = true := by
  rw [mem_filter, mem_range'_1, and_assoc]
  rfl

theorem topPending_some (h : d.topPending context = some source) : d.First context source := by
  unfold topPending at h
  split at h
  · cases h
  rename_i hc
  obtain ⟨hmem, hmax, -⟩ := argmax_eq_some_iff.1 h
  refine ⟨⟨not_le.1 hc, mem_filter_ready.1 hmem⟩, fun s hs => ?_⟩
  have hrank := Prod.Lex.toLex_le_toLex.1 (hmax s (mem_filter_ready.2 hs.2))
  exact hrank.imp id fun he => ⟨BitVec.eq_of_toNat_eq he.1, he.2⟩

theorem topPending_none (h : d.topPending context = none) (s : Nat) : ¬ d.Ready context s := by
  intro hs
  unfold topPending at h
  rw [if_neg (not_le.2 hs.1), argmax_eq_none] at h
  exact not_mem_nil (h ▸ mem_filter_ready.2 hs.2)

theorem read_line (d : Plic) (reg : PlicReg) : (d.read reg).2.line = d.line := by
  cases reg with
  | claim context =>
    simp only [read, claim]
    split <;> rfl
  | _ => rfl

theorem read_inProgress : (d.read reg).2.inProgress s = true ↔
    d.inProgress s = true ∨ ∃ context, reg = .claim context ∧ d.topPending context = some s := by
  cases reg with
  | claim context =>
    cases ht : d.topPending context with
    | none => simp [read, claim, ht]
    | some source => simp [read, claim, ht, or_comm, @eq_comm _ s]
  | _ => simp [read]

theorem write_line (d : Plic) (reg : PlicReg) (value : BitVec 32) : (d.write reg value).line = d.line := by
  cases reg <;> rfl

theorem write_inProgress (hs : s < sources) : (d.write reg value).inProgress s = true ↔
    d.inProgress s = true ∧ ¬ ((∃ context, reg = .claim context) ∧ value.toNat = s) := by
  cases reg with
  | claim context => simp [write, complete, hs, @eq_comm _ s]
  | _ => simp [write]

end Plic

/-! ### The bus -/

structure Bus where
  uart : Uart
  plic : Plic

def uartPlicSource : Nat := 10

def windowOffset (base size addr : U64) : Option Nat :=
  if base ≤ addr ∧ addr < base + size then some (addr - base).toNat else none

def uartOffset : U64 → Option Nat := windowOffset 0x10000000 0x100

def plicOffset : U64 → Option Nat := windowOffset 0x0c000000 0x600000

inductive BusOp
  | read (width : Width) (addr : U64)
  | write (width : Width) (addr : U64) (value : BitVec width.bits)
  | pushConsoleInput (bytes : List UInt8)

namespace Bus

variable (b : Bus)

def new : Bus := ⟨.new, .new⟩

def syncUartLine : Bus := { b with plic := b.plic.setSource uartPlicSource b.uart.interruptAsserted }

def externalPending (context : Nat) : Bool := b.plic.seip context

/-- Only a 32-bit access reaches the interrupt controller. -/
def plicAt (width : Width) (addr : U64) : Option PlicReg :=
  if width = .w then (plicOffset addr).map Plic.regAt else none

/-- `read_u8` to `read_u64`; no result where neither device answers. -/
def read (width : Width) (addr : U64) : Option U64 × Bus :=
  match plicAt width addr, uartOffset addr with
  | some reg, _ => (some ((b.plic.read reg).1.setWidth 64), { b with plic := (b.plic.read reg).2 })
  | none, some off => (some ((b.uart.read off).1.toBitVec.setWidth 64), { b with uart := (b.uart.read off).2 })
  | none, none => (none, b)

def write (width : Width) (addr : U64) (value : BitVec width.bits) : Bus :=
  match plicAt width addr, uartOffset addr with
  | some reg, _ => { b with plic := b.plic.write reg (value.setWidth 32) }
  | none, some off => syncUartLine { b with uart := b.uart.write off ⟨value.setWidth 8⟩ }
  | none, none => b

def step : BusOp → Bus
  | .read width addr => (b.read width addr).2
  | .write width addr value => b.write width addr value
  | .pushConsoleInput bytes => { b with uart := b.uart.pushInput bytes }

def stateAt (ops : List BusOp) (k : Nat) : Bus := (ops.take k).foldl step new

/-- The controller's copy of the line is the level. -/
def LineTrue : Prop := b.plic.line uartPlicSource = b.uart.interruptAsserted

/-- A read or an input that does not move the level. -/
def Quiet : BusOp → Prop
  | .write .. => True
  | op => (b.step op).uart.interruptAsserted = b.uart.interruptAsserted

/-- The access at a position reads a context's claim register and gets a source, or 0. -/
def ClaimAt (ops : List BusOp) (k context source : Nat) : Prop :=
  ∃ width addr, ops[k]? = some (.read width addr) ∧ plicAt width addr = some (.claim context) ∧
    ((stateAt ops k).read width addr).1.map BitVec.toNat = some source

def Completes (source : Nat) : BusOp → Prop
  | .write width addr value =>
    (∃ context, plicAt width addr = some (.claim context)) ∧ (value.setWidth 32).toNat = source
  | _ => False

/-- A source was claimed before a position and not completed since. -/
def Outstanding (ops : List BusOp) (k source : Nat) : Prop :=
  ∃ i context, i < k ∧ ClaimAt ops i context source ∧
    ∀ j op, i < j → j < k → ops[j]? = some op → ¬ Completes source op

variable {b}

theorem read_line (b : Bus) (width : Width) (addr : U64) : (b.read width addr).2.plic.line = b.plic.line := by
  unfold read
  split
  · exact b.plic.read_line _
  · rfl
  · rfl

theorem write_lineTrue (h : b.LineTrue) : (b.write width addr value).LineTrue := by
  unfold write
  split
  · unfold LineTrue
    rw [Plic.write_line]
    exact h
  · simp [LineTrue, syncUartLine, Plic.setSource, uartPlicSource, Plic.sources]
  · exact h

theorem step_lineTrue_iff (op : BusOp) (h : b.LineTrue) : (b.step op).LineTrue ↔ b.Quiet op := by
  cases op with
  | read width addr =>
    show (b.read width addr).2.plic.line uartPlicSource = _ ↔ _
    rw [read_line, h]
    exact eq_comm
  | write width addr value => exact iff_of_true (write_lineTrue h) trivial
  | pushConsoleInput bytes => exact ⟨fun h' => h'.symm.trans h, fun h' => h.trans h'.symm⟩

theorem step_line (op : BusOp) (hs : s ≠ uartPlicSource) : (b.step op).plic.line s = b.plic.line s := by
  cases op with
  | read width addr => exact congrFun (b.read_line width addr) s
  | write width addr value =>
    show (b.write width addr value).plic.line s = _
    unfold write
    split
    · exact congrFun (Plic.write_line _ _ _) s
    · exact if_neg fun hc => hs hc.1
    · rfl
  | pushConsoleInput bytes => rfl

theorem line_stateAt (ops : List BusOp) (k : Nat) (s : Nat) (hs : s ≠ uartPlicSource) : (stateAt ops k).plic.line s = false :=
  Runs.invariant_take (I := fun b : Bus => b.plic.line s = false) (C := fun _ _ => True) rfl
    (fun _ op h _ => (step_line op hs).trans h) (fun _ _ _ => trivial) k

theorem externalPending_iff (h : ∀ s ≠ uartPlicSource, b.plic.line s = false) :
    b.externalPending context = true ↔ b.plic.Ready context uartPlicSource := by
  unfold externalPending Plic.seip
  cases ht : b.plic.topPending context with
  | none => exact iff_of_false nofun (Plic.topPending_none ht _)
  | some source =>
    refine iff_of_true rfl ?_
    have hready := (Plic.topPending_some ht).1
    obtain rfl : source = uartPlicSource := by
      by_contra hne
      simpa [Plic.deliverable, Plic.forwarding, h source hne] using hready.2.2.2
    exact hready

theorem claimAt_iff : ClaimAt ops k context source ↔ (∃ width addr, ops[k]? = some (.read width addr) ∧
    plicAt width addr = some (.claim context)) ∧ ((stateAt ops k).plic.topPending context).getD 0 = source := by
  have hget : ((stateAt ops k).plic.claim context).1.toNat = ((stateAt ops k).plic.topPending context).getD 0 := by
    unfold Plic.claim
    cases ht : (stateAt ops k).plic.topPending context with
    | none => rfl
    | some top =>
      have hlt : top < 64 := (Plic.topPending_some ht).1.2.2.1
      exact Nat.mod_eq_of_lt (by omega)
  have hread : ∀ {width addr}, plicAt width addr = some (.claim context) →
      ((stateAt ops k).read width addr).1.map BitVec.toNat = some (((stateAt ops k).plic.topPending context).getD 0) := by
    intro width addr hreg
    simp only [read, hreg, Plic.read, Option.map_some]
    rw [BitVec.toNat_setWidth_of_le (by decide), hget]
  constructor
  · rintro ⟨width, addr, hop, hreg, hv⟩
    exact ⟨⟨width, addr, hop, hreg⟩, Option.some.inj ((hread hreg).symm.trans hv)⟩
  · rintro ⟨⟨width, addr, hop, hreg⟩, rfl⟩
    exact ⟨width, addr, hop, hreg, hread hreg⟩

theorem ClaimAt.first (h : ClaimAt ops k context source) :
    (source = 0 ∧ ∀ s, ¬ (stateAt ops k).plic.Ready context s) ∨ (stateAt ops k).plic.First context source := by
  obtain ⟨-, rfl⟩ := claimAt_iff.1 h
  cases ht : (stateAt ops k).plic.topPending context with
  | none => exact .inl ⟨rfl, Plic.topPending_none ht⟩
  | some source => exact .inr (Plic.topPending_some ht)

/-- Only a claim puts a source in progress, and only a completion ends that. -/
theorem stateAt_inProgress (hs : s ≠ 0 ∧ s < Plic.sources) (hop : ops[k]? = some op) :
    (stateAt ops (k + 1)).plic.inProgress s = true ↔ (∃ context, ClaimAt ops k context s) ∨
      (stateAt ops k).plic.inProgress s = true ∧ ¬ Completes s op := by
  rw [show stateAt ops (k + 1) = (stateAt ops k).step op from Runs.foldl_take_of_some hop]
  have htop : ∀ o : Option Nat, o.getD 0 = s ↔ o = some s := by
    intro o
    cases o with
    | none => exact iff_of_false hs.1.symm nofun
    | some a => exact Option.some_inj.symm
  simp only [claimAt_iff, hop, htop, Option.some.injEq]
  cases op with
  | read width addr =>
    cases hreg : plicAt width addr with
    | none => cases hoff : uartOffset addr <;> simp [step, read, Completes, hreg, hoff]
    | some reg => simp [step, read, Completes, hreg, Plic.read_inProgress, or_comm]
  | write width addr value =>
    cases hreg : plicAt width addr with
    | none => cases hoff : uartOffset addr <;> simp [step, write, syncUartLine, Plic.setSource, Completes, hreg, hoff]
    | some reg => simp [step, write, Completes, hreg, Plic.write_inProgress hs.2]
  | pushConsoleInput bytes => simp [step, Completes]

theorem inProgress_iff (hs : s ≠ 0 ∧ s < Plic.sources) (k : Nat) :
    (stateAt ops k).plic.inProgress s = true ↔ Outstanding ops k s := by
  induction k with
  | zero => exact iff_of_false nofun fun ⟨_, _, hi, _⟩ => absurd hi (Nat.not_lt_zero _)
  | succ k ih =>
    have hlast : Outstanding ops (k + 1) s ↔ (∃ context, ClaimAt ops k context s) ∨
        Outstanding ops k s ∧ ∀ op, ops[k]? = some op → ¬ Completes s op := by
      constructor
      · rintro ⟨i, context, hi, hclaim, hno⟩
        obtain rfl | hik := Nat.eq_or_lt_of_le (Nat.le_of_lt_succ hi)
        · exact .inl ⟨context, hclaim⟩
        refine .inr ⟨⟨i, context, hik, hclaim, fun j op hij hj => hno j op hij (by omega)⟩, fun op => ?_⟩
        exact hno k op hik (Nat.lt_succ_self k)
      · rintro (⟨context, hclaim⟩ | ⟨⟨i, context, hi, hclaim, hno⟩, hk⟩)
        · exact ⟨k, context, Nat.lt_succ_self k, hclaim, fun j op hkj hj => by omega⟩
        refine ⟨i, context, by omega, hclaim, fun j op hij hj => ?_⟩
        obtain rfl | hjk := Nat.eq_or_lt_of_le (Nat.le_of_lt_succ hj)
        · exact hk op
        · exact hno j op hij hjk
    rw [hlast, ← ih]
    cases hop : ops[k]? with
    | none =>
      rw [stateAt, Runs.foldl_take_of_none hop]
      simp [claimAt_iff, hop, stateAt]
    | some op =>
      rw [stateAt_inProgress hs hop]
      simp

end Bus

end SnitchOs.Snemu
