import SnitchOs.Lib.Machine
import Mathlib.Algebra.Ring.Nat
import Mathlib.Data.List.Basic

/-!
# The ELF front-end of the loader

An image is parsed into a plan: the entry point and the `PT_LOAD` segments. The plan is turned into the set of pages
to map, each with the union of the permissions of the segments that touch it, and into the byte ranges to copy.

Addresses are 64-bit words kept as `Nat`. Additions the source leaves unchecked panic (`none`) when the build checks
for overflow (`checks`) and wrap when it does not.
-/

namespace SnitchOs.Proc

open Machine List Option

/-! ### Plans -/

structure SegmentPerms where
  read : Bool
  write : Bool
  exec : Bool
  deriving DecidableEq

/-- Copy `fileSize` bytes from `fileOffset` to `vaddr`; the rest of `memSize` is zero. -/
structure LoadSegment where
  vaddr : Nat
  fileOffset : Nat
  fileSize : Nat
  memSize : Nat
  perms : SegmentPerms
  deriving DecidableEq

inductive FloatAbi where
  | soft
  | single
  | double
  | quad
  deriving DecidableEq

namespace FloatAbi

def usesHardwareFp (abi : FloatAbi) : Bool := abi != soft

/-- The float ABI in bits 2:1 of `e_flags`. -/
def fromEFlags (eFlags : Nat) : FloatAbi :=
  match eFlags &&& 0x6 with
  | 0x2 => single
  | 0x4 => double
  | 0x6 => quad
  | _ => soft

end FloatAbi

structure LoadPlan where
  entry : Nat
  segments : List LoadSegment
  floatAbi : FloatAbi
  deriving DecidableEq

inductive ElfError where
  | tooShort
  | badMagic
  | notElf64
  | notRiscv
  | notExecutable
  | badProgramHeaders
  | segmentOutOfBounds
  | fileSizeExceedsMemSize
  | imageTooLarge
  deriving DecidableEq

def maxImageMemSize : Nat := 64 * 1024 * 1024

/-! ### Parsing -/

/-- A computation that fails with an error or panics. -/
abbrev Fallible (ε : Type) := ExceptT ε Option

namespace Fallible

variable {ε α β : Type}

theorem bind_ok {f : α → Fallible ε β} : x >>= f = some (.ok b) ↔ ∃ a, x = some (.ok a) ∧ f a = some (.ok b) := by
  constructor
  · intro h
    cases x with
    | none => cases h
    | some r =>
      cases r with
      | error e => cases h
      | ok a => exact ⟨a, rfl, h⟩
  · rintro ⟨a, rfl, h⟩
    exact h

theorem lift_ok : (liftM o : Fallible ε α) = some (.ok a) ↔ o = some a := by
  cases o with
  | none => exact ⟨fun h => (by cases h), fun h => (by cases h)⟩
  | some b =>
    constructor
    · intro h
      cases h
      rfl
    · rintro ⟨⟩
      rfl

theorem pure_ok : (pure a : Fallible ε α) = some (.ok b) ↔ a = b := by
  constructor
  · intro h
    cases h
    rfl
  · rintro rfl
    rfl

/-- An early return with `e` unless `c` holds. -/
def require (c : Prop) [Decidable c] (e : ε) : Fallible ε Unit := if c then pure () else throw e

theorem require_ok {c : Prop} [Decidable c] : require c e = some (.ok u) ↔ c := by
  unfold require
  split
  · exact ⟨fun _ => ‹c›, fun _ => rfl⟩
  · exact ⟨fun h => (by cases h), fun h => absurd h ‹¬ c›⟩

end Fallible

/-- The bytes `lo..hi`, when that is a range inside the image. -/
def getRange (image : List UInt8) (lo hi : Nat) : Option (List UInt8) :=
  if lo ≤ hi ∧ hi ≤ image.length then some ((image.drop lo).take (hi - lo)) else none

def fromLeBytes : List UInt8 → Nat
  | [] => 0
  | b :: bs => b.toNat + 256 * fromLeBytes bs

section Parse

open Fallible (require)

variable (checks : Bool) (image : List UInt8)

def readLe (n off : Nat) : Fallible ElfError Nat := do
  let hi ← usize checks (off + n)
  match getRange image off hi with
  | none => throw .tooShort
  | some bytes => pure (fromLeBytes bytes)

def readU16 (off : Nat) : Fallible ElfError Nat := readLe checks image 2 off

def readU32 (off : Nat) : Fallible ElfError Nat := readLe checks image 4 off

def readU64 (off : Nat) : Fallible ElfError Nat := readLe checks image 8 off

/-- One program header at `base`: the segments so far and the memory they declare. -/
def parseHeader (st : List LoadSegment × Nat) (base : Nat) :
    Fallible ElfError (List LoadSegment × Nat) := do
  let pType ← readU32 checks image base
  if pType ≠ 1 then return st
  let flags ← readU32 checks image (← usize checks (base + 4))
  let fileOffset ← readU64 checks image (← usize checks (base + 8))
  let fileSize ← readU64 checks image (← usize checks (base + 32))
  let memSize ← readU64 checks image (← usize checks (base + 40))
  require (fileSize ≤ memSize) .fileSizeExceedsMemSize
  require (fileOffset + fileSize < 2 ^ 64) .segmentOutOfBounds
  require (fileOffset + fileSize ≤ image.length) .segmentOutOfBounds
  require (st.2 + memSize < 2 ^ 64) .imageTooLarge
  require (st.2 + memSize ≤ maxImageMemSize) .imageTooLarge
  let vaddr ← readU64 checks image (← usize checks (base + 16))
  let perms : SegmentPerms :=
    { read := flags &&& 4 != 0, write := flags &&& 2 != 0, exec := flags &&& 1 != 0 }
  return (st.1 ++ [⟨vaddr, fileOffset, fileSize, memSize, perms⟩], st.2 + memSize)

/-- The program headers `i..`, each `phentsize` bytes after the one before. -/
def parseHeaders (phoff phentsize : Nat) :
    List Nat → List LoadSegment × Nat → Fallible ElfError (List LoadSegment × Nat)
  | [], st => pure st
  | i :: is, st => do
    let base ← usize checks (phoff + i * phentsize)
    parseHeaders phoff phentsize is (← parseHeader checks image st base)

def elfMagic : List UInt8 := [0x7f, 0x45, 0x4c, 0x46]

def parse : Fallible ElfError LoadPlan := do
  require (image.take 4 = elfMagic) .badMagic
  require (4 < image.length) .tooShort
  require (image[4]? = some 2) .notElf64
  require ((← readU16 checks image 16) = 2) .notExecutable
  require ((← readU16 checks image 18) = 243) .notRiscv
  let entry ← readU64 checks image 24
  let floatAbi := FloatAbi.fromEFlags (← readU32 checks image 48)
  let phoff ← readU64 checks image 32
  let phentsize ← readU16 checks image 54
  let phnum ← readU16 checks image 56
  let st ← parseHeaders checks image phoff phentsize (List.range phnum) ([], 0)
  return { entry, segments := st.1, floatAbi }

end Parse

/-! ### What a parsed segment satisfies -/

/-- The file part is inside the image and no longer than the memory part. -/
structure LoadSegment.Fits (image : List UInt8) (seg : LoadSegment) : Prop where
  file_le_mem : seg.fileSize ≤ seg.memSize
  offset_lt : seg.fileOffset + seg.fileSize < 2 ^ 64
  in_image : seg.fileOffset + seg.fileSize ≤ image.length

/-- The segments of the headers parsed so far, and the memory they declare. -/
structure Planned (image : List UInt8) (st : List LoadSegment × Nat) : Prop where
  fits : ∀ s ∈ st.1, s.Fits image
  declared : (st.1.map (·.memSize)).sum = st.2
  bounded : st.2 ≤ maxImageMemSize

variable {plan : LoadPlan} {seg : LoadSegment} {l : List (Nat × SegmentPerms)} {start p va k : Nat}
  {perms : SegmentPerms} {byPage : List (Nat × SegmentPerms)} {segs : List LoadSegment}
  {image : List UInt8}

section

theorem parseHeader_planned {base : Nat}
    (h : parseHeader checks image st base = some (.ok st')) (hst : Planned image st) : Planned image st' := by
  obtain ⟨pType, -, h⟩ := Fallible.bind_ok.mp h
  split at h
  · obtain rfl := Fallible.pure_ok.mp h
    exact hst
  simp only [Fallible.bind_ok, Fallible.pure_ok, Fallible.require_ok] at h
  obtain ⟨_, -, flags, -, _, -, fileOffset, -, _, -, fileSize, -, _, -, memSize, -, _, hle, _, hlt,
    _, hin, _, -, _, hsum, _, -, vaddr, -, rfl⟩ := h
  refine ⟨fun s hs => ?_, by simp [hst.declared], hsum⟩
  obtain hs | hs := mem_append.mp hs
  · exact hst.fits s hs
  obtain rfl := mem_singleton.mp hs
  exact ⟨hle, hlt, hin⟩

theorem parseHeaders_planned {phoff phentsize : Nat} : ∀ {is : List Nat} {st st' : List LoadSegment × Nat},
      parseHeaders checks image phoff phentsize is st = some (.ok st') → Planned image st → Planned image st' := by
  intro is
  induction is with
  | nil =>
    intro st st' h hst
    obtain rfl := Fallible.pure_ok.mp h
    exact hst
  | cons i is ih =>
    intro st st' h hst
    obtain ⟨base, -, h⟩ := Fallible.bind_ok.mp h
    obtain ⟨mid, hmid, h⟩ := Fallible.bind_ok.mp h
    exact ih h (parseHeader_planned hmid hst)

/-- Every segment of a parsed image has its file bytes in the image, and together they are not too
large. -/
theorem parse_planned (h : parse checks image = some (.ok plan)) : ∃ total, Planned image (plan.segments, total) := by
  simp only [parse, Fallible.bind_ok, Fallible.pure_ok, Fallible.require_ok] at h
  obtain ⟨_, -, _, -, _, -, _, -, _, -, _, -, _, -, _, -, _, -, _, -, _, -, _, -, st, hst, rfl⟩ := h
  exact ⟨st.2, parseHeaders_planned hst ⟨by simp, rfl, Nat.zero_le _⟩⟩

theorem parse_fits (h : parse checks image = some (.ok plan)) :
    ∀ s ∈ plan.segments, s.Fits image := (parse_planned h).elim fun _ hp => hp.fits

end

/-! ### Pages -/

inductive PlanError where
  | wxViolation (pageVa : Nat)
  deriving DecidableEq

namespace SegmentPerms

def union (p q : SegmentPerms) : SegmentPerms where
  read := p.read || q.read
  write := p.write || q.write
  exec := p.exec || q.exec

def isWx (p : SegmentPerms) : Bool := p.write && p.exec

end SegmentPerms

/-- `start..end` in steps of `step`. -/
def stepBy (start stop step : Nat) : List Nat :=
  (List.range ((stop - start + step - 1) / step)).map (start + step * ·)

def pagesOf (checks : Bool) (seg : LoadSegment) (pageSize : Nat) : Option (List Nat) := do
  let start := seg.vaddr &&& (2 ^ 64 - pageSize)
  let top ← usize checks (seg.vaddr + seg.memSize)
  let stop ← usize checks ((top + pageSize - 1) / pageSize * pageSize)
  pure (stepBy start stop pageSize)

/-- The permissions of page `va` become the union with `perms`; pages are kept in ascending order. -/
def unionAt (va : Nat) (perms : SegmentPerms) :
    List (Nat × SegmentPerms) → List (Nat × SegmentPerms)
  | [] => [(va, perms)]
  | (v, q) :: rest =>
    if va < v then (va, perms) :: (v, q) :: rest
    else if va = v then (v, q.union perms) :: rest
    else (v, q) :: unionAt va perms rest

def addSegment (perms : SegmentPerms) (pages : List Nat) (byPage : List (Nat × SegmentPerms)) :
    List (Nat × SegmentPerms) :=
  pages.foldl (fun acc va => unionAt va perms acc) byPage

def collectPages (checks : Bool) (pageSize : Nat) :
    List LoadSegment → List (Nat × SegmentPerms) → Option (List (Nat × SegmentPerms))
  | [], byPage => some byPage
  | seg :: segs, byPage => do
    let pages ← pagesOf checks seg pageSize
    collectPages checks pageSize segs (addSegment seg.perms pages byPage)

def pagePerms (checks : Bool) (plan : LoadPlan) (pageSize : Nat) :
    Fallible PlanError (List (Nat × SegmentPerms)) := do
  let byPage ← collectPages checks pageSize plan.segments []
  match byPage.find? (fun e => e.2.isWx) with
  | some (pageVa, _) => throw (.wxViolation pageVa)
  | none => pure byPage

/-! ### Which pages are mapped, and how -/

/-- Page number `n` holds a part of the segment. -/
def LoadSegment.Touches (seg : LoadSegment) (n : Nat) : Prop :=
  seg.vaddr / 4096 ≤ n ∧ n < (seg.vaddr + seg.memSize + 4095) / 4096

theorem and_page_mask (h : v < 2 ^ 64) : v &&& (2 ^ 64 - 4096) = v / 4096 * 4096 := by
  have hshift : v / 4096 * 4096 = (v >>> 12) <<< 12 := by
    rw [Nat.shiftLeft_eq, Nat.shiftRight_eq_div_pow]
  have hmask : ∀ i, (2 ^ 64 - 4096).testBit i = (decide (i < 64) && !decide (i < 12)) := by
    intro i
    have h := Nat.testBit_two_pow_sub_succ (by decide : 2 ^ 12 - 1 < 2 ^ 64) i
    rwa [Nat.testBit_two_pow_sub_one] at h
  rw [hshift]
  apply Nat.eq_of_testBit_eq
  intro i
  rw [Nat.testBit_and, hmask, Nat.testBit_shiftLeft, Nat.testBit_shiftRight]
  by_cases hlow : 12 ≤ i
  · have hi : 12 + (i - 12) = i := by omega
    by_cases hhigh : i < 64
    · simp [hlow, hhigh, hi]
    have hzero : v.testBit i = false := by
      apply Nat.testBit_lt_two_pow
      exact Nat.lt_of_lt_of_le h (Nat.pow_le_pow_right Nat.two_pos (Nat.not_lt.mp hhigh))
    simp [hzero, hi]
  · have hlt : i < 12 := Nat.not_le.mp hlow
    simp [hlow, hlt]

theorem mem_stepBy : p ∈ stepBy start stop 4096 ↔ ∃ k, p = start + 4096 * k ∧ p < stop := by
  simp only [stepBy, List.mem_map, mem_range]
  constructor
  · rintro ⟨k, hk, rfl⟩
    exact ⟨k, rfl, by omega⟩
  · rintro ⟨k, rfl, hlt⟩
    exact ⟨k, by omega, rfl⟩

def LoadSegment.pages (seg : LoadSegment) : List Nat :=
  stepBy (seg.vaddr / 4096 * 4096) ((seg.vaddr + seg.memSize + 4095) / 4096 * 4096) 4096

theorem LoadSegment.mem_pages : p ∈ seg.pages ↔ ∃ n, p = 4096 * n ∧ seg.Touches n := by
  rw [LoadSegment.pages, mem_stepBy]
  constructor
  · rintro ⟨k, rfl, hlt⟩
    exact ⟨seg.vaddr / 4096 + k, by omega, by omega, by omega⟩
  · rintro ⟨n, rfl, hlo, hhi⟩
    exact ⟨n - seg.vaddr / 4096, by omega, by omega⟩

/-- The page after the last one has an address. -/
abbrev LoadSegment.BelowTop (seg : LoadSegment) : Prop := seg.vaddr + seg.memSize + 4096 ≤ 2 ^ 64

theorem pagesOf_eq (checks : Bool) (h : seg.BelowTop) : pagesOf checks seg 4096 = some seg.pages := by
  have htop : usize checks (seg.vaddr + seg.memSize) = some (seg.vaddr + seg.memSize) :=
    usize_of_lt checks (by omega)
  have hstop : usize checks ((seg.vaddr + seg.memSize + 4096 - 1) / 4096 * 4096) =
      some ((seg.vaddr + seg.memSize + 4096 - 1) / 4096 * 4096) := usize_of_lt checks (by omega)
  simp only [pagesOf, htop, bind_eq_bind, bind_some, hstop, and_page_mask (by omega : seg.vaddr < 2 ^ 64)]
  rfl

def Ascending (l : List (Nat × SegmentPerms)) : Prop := l.Pairwise (fun a b => a.1 < b.1)

theorem unionAt_lower (hva : k < va) (hl : ∀ e ∈ l, k < e.1) : ∀ e ∈ unionAt va perms l, k < e.1 := by
  induction l with
  | nil => simpa [unionAt] using hva
  | cons e l ih =>
    obtain ⟨v, q⟩ := e
    have hv : k < v := hl (v, q) mem_cons_self
    have htail : ∀ e ∈ l, k < e.1 := fun e he => hl e (mem_cons_of_mem _ he)
    unfold unionAt
    split
    · exact forall_mem_cons.mpr ⟨hva, hl⟩
    split
    · exact forall_mem_cons.mpr ⟨hv, htail⟩
    · exact forall_mem_cons.mpr ⟨hv, ih htail⟩

theorem Ascending.unionAt (h : Ascending l) (va : Nat) (perms : SegmentPerms) : Ascending (unionAt va perms l) := by
  induction l with
  | nil => exact pairwise_singleton _ _
  | cons e l ih =>
    obtain ⟨v, q⟩ := e
    obtain ⟨hv, hl⟩ := pairwise_cons.mp h
    unfold Proc.unionAt
    split
    · next hlt =>
      refine pairwise_cons.mpr ⟨?_, h⟩
      exact forall_mem_cons.mpr ⟨hlt, fun e he => Nat.lt_trans hlt (hv e he)⟩
    · split
      · exact pairwise_cons.mpr ⟨hv, hl⟩
      · exact pairwise_cons.mpr ⟨unionAt_lower (by omega) hv, ih hl⟩

/-- The page map after the permissions `cs` were requested, one after the other: its pages are those
of `cs`, and each grants exactly what is requested for it. -/
structure Collects (cs : List (Nat × SegmentPerms)) (byPage : List (Nat × SegmentPerms)) : Prop where
  ascending : Ascending byPage
  pages : ∀ va, (∃ q, (va, q) ∈ byPage) ↔ ∃ p, (va, p) ∈ cs
  grants : ∀ bit : SegmentPerms → Bool, (∀ p q, bit (p.union q) = (bit p || bit q)) →
    ∀ va q, (va, q) ∈ byPage → (bit q = true ↔ ∃ p, (va, p) ∈ cs ∧ bit p = true)

theorem mem_unionAt (h : Ascending l) : (k, q) ∈ unionAt va perms l ↔ k ≠ va ∧ (k, q) ∈ l ∨
      k = va ∧ ((∀ r, (va, r) ∉ l) ∧ q = perms ∨ ∃ r, (va, r) ∈ l ∧ q = r.union perms) := by
  induction l with
  | nil =>
    simp [unionAt, Prod.mk.injEq, not_mem_nil, and_false, false_or,
      not_false_eq_true, implies_true, true_and, false_and, exists_false, or_false]
  | cons e l ih =>
    obtain ⟨v, r⟩ := e
    obtain ⟨hv, hl⟩ := pairwise_cons.mp h
    have ih := ih hl
    unfold unionAt
    split
    · next hlt =>
      grind
    · split
      · grind
      · grind

theorem Collects.nil : Collects [] [] :=
  ⟨List.Pairwise.nil, by simp, by simp⟩

theorem Collects.unionAt (h : Collects cs byPage) (va : Nat)
    (perms : SegmentPerms) : Collects (cs ++ [(va, perms)]) (unionAt va perms byPage) := by
  refine ⟨h.ascending.unionAt va perms, ?_, ?_⟩
  · intro k
    by_cases hk : k = va
    · subst hk
      refine ⟨fun _ => ⟨perms, by simp⟩, fun _ => ?_⟩
      by_cases hold : ∃ r, (k, r) ∈ byPage
      · obtain ⟨r, hr⟩ := hold
        exact ⟨_, (mem_unionAt h.ascending).mpr (.inr ⟨rfl, .inr ⟨r, hr, rfl⟩⟩)⟩
      · exact ⟨perms, (mem_unionAt h.ascending).mpr (.inr ⟨rfl, .inl ⟨fun r hr => hold ⟨r, hr⟩, rfl⟩⟩)⟩
    · simp [mem_unionAt h.ascending, hk, ne_eq, not_false_eq_true, true_and, false_and, or_false,
        h.pages, mem_append, Prod.mk.injEq]
  · intro bit hbit k q hq
    have hold := h.grants bit hbit k
    simp only [mem_append, mem_singleton, Prod.mk.injEq]
    obtain ⟨hk, hq⟩ | ⟨rfl, ⟨hnew, rfl⟩ | ⟨r, hr, rfl⟩⟩ := (mem_unionAt h.ascending).mp hq
    · simp [hk, hold q hq]
    · have hnone : ∀ p, (k, p) ∉ cs := by
        intro p hp
        obtain ⟨r, hr⟩ := (h.pages k).mpr ⟨p, hp⟩
        exact hnew r hr
      simp [hnone]
    · rw [hbit, Bool.or_eq_true, hold r hr]
      constructor
      · rintro (⟨p, hp, hb⟩ | hb)
        · exact ⟨p, .inl hp, hb⟩
        · exact ⟨perms, .inr ⟨rfl, rfl⟩, hb⟩
      · rintro ⟨p, hp | ⟨-, rfl⟩, hb⟩
        · exact .inl ⟨p, hp, hb⟩
        · exact .inr hb

theorem Collects.addSegment (perms : SegmentPerms) (pages : List Nat) :
    ∀ {cs byPage : List (Nat × SegmentPerms)}, Collects cs byPage →
      Collects (cs ++ pages.map (·, perms)) (addSegment perms pages byPage) := by
  induction pages with
  | nil =>
    intro cs byPage h
    rwa [map_nil, append_nil]
  | cons va pages ih =>
    intro cs byPage h
    have hstep := ih (h.unionAt va perms)
    rwa [append_assoc] at hstep

def requests (segs : List LoadSegment) : List (Nat × SegmentPerms) :=
  segs.flatMap (fun seg => seg.pages.map (·, seg.perms))

theorem mem_requests {p : SegmentPerms} : (va, p) ∈ requests segs ↔
      ∃ seg ∈ segs, p = seg.perms ∧ ∃ n, va = 4096 * n ∧ seg.Touches n := by
  simp only [requests, mem_flatMap, List.mem_map, Prod.mk.injEq, LoadSegment.mem_pages]
  constructor
  · rintro ⟨seg, hseg, _, ⟨n, rfl, hn⟩, rfl, rfl⟩
    exact ⟨seg, hseg, rfl, n, rfl, hn⟩
  · rintro ⟨seg, hseg, rfl, n, rfl, hn⟩
    exact ⟨seg, hseg, _, ⟨n, rfl, hn⟩, rfl, rfl⟩

theorem collectPages_collects (checks : Bool) (h : ∀ seg ∈ segs, seg.BelowTop) :
    ∀ {cs byPage : List (Nat × SegmentPerms)}, Collects cs byPage →
      ∃ byPage', collectPages checks 4096 segs byPage = some byPage' ∧ Collects (cs ++ requests segs) byPage' := by
  induction segs with
  | nil =>
    intro cs byPage hc
    exact ⟨byPage, rfl, by rwa [requests, flatMap_nil, append_nil]⟩
  | cons seg segs ih =>
    intro cs byPage hc
    obtain ⟨byPage', hrun, hc'⟩ := ih (fun s hs => h s (mem_cons_of_mem _ hs)) (Collects.addSegment seg.perms seg.pages hc)
    refine ⟨byPage', ?_, ?_⟩
    · simp [collectPages, pagesOf_eq checks (h seg mem_cons_self), bind_eq_bind, bind_some, hrun]
    · rwa [append_assoc] at hc'

/-- The planned pages are those the segments touch, each with the permissions they request, unless one of
them is both writable and executable. -/
theorem pagePerms_cases (checks : Bool) (h : ∀ seg ∈ plan.segments, seg.BelowTop) :
    ∃ byPage, Collects (requests plan.segments) byPage ∧
      ((∀ e ∈ byPage, e.2.isWx = false) ∧ pagePerms checks plan 4096 = some (.ok byPage) ∨
        ∃ e ∈ byPage, e.2.isWx = true ∧ pagePerms checks plan 4096 = some (.error (.wxViolation e.1))) := by
  obtain ⟨byPage, hcollect, hc⟩ := collectPages_collects checks h Collects.nil
  refine ⟨byPage, hc, ?_⟩
  have hrun : pagePerms checks plan 4096 = match byPage.find? (fun e => e.2.isWx) with
      | some (pageVa, _) => some (.error (.wxViolation pageVa))
      | none => some (.ok byPage) := by
    unfold pagePerms
    rw [hcollect]
    show (match byPage.find? (fun e => e.2.isWx) with
      | some (pageVa, _) => throw (.wxViolation pageVa)
      | none => pure byPage : Fallible PlanError _) = _
    split <;> rfl
  cases hfind : byPage.find? (fun e => e.2.isWx) with
  | none =>
    rw [hfind] at hrun
    exact .inl ⟨fun e he => by simpa using find?_eq_none.mp hfind e he, hrun⟩
  | some e =>
    rw [hfind] at hrun
    exact .inr ⟨e, mem_of_find?_eq_some hfind, find?_some (p := fun e : Nat × SegmentPerms => e.2.isWx) hfind, hrun⟩

theorem pagePerms_collects (h : ∀ seg ∈ plan.segments, seg.BelowTop)
    (hrun : pagePerms checks plan 4096 = some (.ok byPage)) : Collects (requests plan.segments) byPage := by
  obtain ⟨byPage', hc, ⟨-, hok⟩ | ⟨e, -, -, herr⟩⟩ := pagePerms_cases checks h
  · cases hrun.symm.trans hok
    exact hc
  · cases hrun.symm.trans herr

theorem pagePerms_ok (checks : Bool) (h : ∀ seg ∈ plan.segments, seg.BelowTop)
    (hwx : ∀ s ∈ plan.segments, ∀ t ∈ plan.segments, s.perms.write = true → t.perms.exec = true → ∀ n, s.Touches n → ¬ t.Touches n) :
    ∃ byPage, pagePerms checks plan 4096 = some (.ok byPage) := by
  obtain ⟨byPage, hc, ⟨-, hok⟩ | ⟨⟨va, q⟩, he, hq, -⟩⟩ := pagePerms_cases checks h
  · exact ⟨byPage, hok⟩
  obtain ⟨hw, hx⟩ := Bool.and_eq_true_iff.mp hq
  obtain ⟨p, hp, hpw⟩ := (hc.grants (·.write) (fun _ _ => rfl) va q he).mp hw
  obtain ⟨p', hp', hpx⟩ := (hc.grants (·.exec) (fun _ _ => rfl) va q he).mp hx
  obtain ⟨s, hs, rfl, n, rfl, hn⟩ := mem_requests.mp hp
  obtain ⟨t, ht, rfl, n', hn', htn⟩ := mem_requests.mp hp'
  obtain rfl : n = n' := by omega
  exact absurd htn (hwx s hs t ht hpw hpx n hn)

/-! ### Copy windows -/

/-- Copy `len` bytes from `srcOff` of the image to `pageOff` of the page's frame. -/
structure CopyWindow where
  pageVa : Nat
  pageOff : Nat
  srcOff : Nat
  len : Nat
  deriving DecidableEq

def copyWindow (checks : Bool) (seg : LoadSegment) (pageSize fileHi pageVa : Nat) :
    Option (Option CopyWindow) := do
  let lo := max seg.vaddr pageVa
  let hi := min fileHi (← usize checks (pageVa + pageSize))
  if lo ≥ hi then return none
  let srcOff ← usize checks (seg.fileOffset + (lo - seg.vaddr))
  return some { pageVa, pageOff := lo - pageVa, srcOff, len := hi - lo }

def copyWindowsOf (checks : Bool) (seg : LoadSegment) (pageSize fileHi : Nat) :
    List Nat → Option (List CopyWindow)
  | [] => some []
  | pageVa :: pages => do
    let w ← copyWindow checks seg pageSize fileHi pageVa
    let ws ← copyWindowsOf checks seg pageSize fileHi pages
    return w.toList ++ ws

def copyWindows (checks : Bool) (seg : LoadSegment) (pageSize : Nat) : Option (List CopyWindow) := do
  let fileHi ← usize checks (seg.vaddr + seg.fileSize)
  let pages ← pagesOf checks seg pageSize
  copyWindowsOf checks seg pageSize fileHi pages

/-- The window of a page, if the segment has file bytes there. -/
def LoadSegment.window (seg : LoadSegment) (pageVa : Nat) : Option CopyWindow :=
  let lo := max seg.vaddr pageVa
  let hi := min (seg.vaddr + seg.fileSize) (pageVa + 4096)
  if lo ≥ hi then none
  else some { pageVa, pageOff := lo - pageVa, srcOff := seg.fileOffset + (lo - seg.vaddr), len := hi - lo }

def LoadSegment.windows (seg : LoadSegment) : List CopyWindow := seg.pages.filterMap seg.window

theorem copyWindow_eq (checks : Bool) (hfit : seg.Fits image) (h : seg.BelowTop) (hpage : pageVa ∈ seg.pages) :
    copyWindow checks seg 4096 (seg.vaddr + seg.fileSize) pageVa = some (seg.window pageVa) := by
  obtain ⟨n, rfl, hlo, hhi⟩ := LoadSegment.mem_pages.mp hpage
  have hlt := hfit.offset_lt
  have hstop : usize checks (4096 * n + 4096) = some (4096 * n + 4096) :=
    usize_of_lt checks (by omega)
  simp only [copyWindow, LoadSegment.window, hstop, bind_eq_bind, bind_some]
  split
  · rfl
  have hsrc : usize checks (seg.fileOffset + (max seg.vaddr (4096 * n) - seg.vaddr)) =
      some (seg.fileOffset + (max seg.vaddr (4096 * n) - seg.vaddr)) :=
    usize_of_lt checks (by omega)
  rw [hsrc]
  rfl

theorem copyWindows_eq (checks : Bool) (hfit : seg.Fits image)
    (h : seg.BelowTop) : copyWindows checks seg 4096 = some seg.windows := by
  have hwalk : ∀ pages : List Nat, (∀ p ∈ pages, p ∈ seg.pages) →
      copyWindowsOf checks seg 4096 (seg.vaddr + seg.fileSize) pages = some (pages.filterMap seg.window) := by
    intro pages
    induction pages with
    | nil => exact fun _ => rfl
    | cons p pages ih =>
      intro hsub
      obtain ⟨hp, hsub⟩ := forall_mem_cons.mp hsub
      simp only [copyWindowsOf, copyWindow_eq checks hfit h hp, ih hsub, bind_eq_bind, bind_some, filterMap_cons]
      cases seg.window p <;> rfl
  have hle := hfit.file_le_mem
  have hhi : usize checks (seg.vaddr + seg.fileSize) = some (seg.vaddr + seg.fileSize) :=
    usize_of_lt checks (by omega)
  simp only [copyWindows, hhi, pagesOf_eq checks h, bind_eq_bind, bind_some]
  exact hwalk seg.pages fun _ hp => hp

/-- Not empty, within one page and within the image. -/
structure CopyWindow.Inside (image : List UInt8) (w : CopyWindow) : Prop where
  pos : 0 < w.len
  in_page : w.pageOff + w.len ≤ 4096
  in_image : w.srcOff + w.len ≤ image.length

theorem LoadSegment.mem_windows (hfit : seg.Fits image) (hw : w ∈ seg.windows) : w.pageVa ∈ seg.pages ∧ w.Inside image := by
  obtain ⟨p, hp, hw⟩ := mem_filterMap.mp hw
  have hin := hfit.in_image
  simp only [window] at hw
  split at hw
  · cases hw
  cases hw
  exact ⟨hp, by dsimp only; omega, by dsimp only; omega, by dsimp only; omega⟩

/-- `n` bytes from address `va` on, from offset `src` on. -/
def spread (va src n : Nat) : List (Nat × Nat) := (List.range n).map fun k => (va + k, src + k)

theorem spread_append (va src m n : Nat) : spread va src m ++ spread (va + m) (src + m) n = spread va src (m + n) := by
  simp [spread, range_add, Nat.add_assoc]

/-- The addresses the window writes, each with the offset it reads. -/
def CopyWindow.bytes (w : CopyWindow) : List (Nat × Nat) := spread (w.pageVa + w.pageOff) w.srcOff w.len

theorem LoadSegment.spread_window (seg : LoadSegment) (p : Nat) :
    spread seg.vaddr seg.fileOffset (min (seg.vaddr + seg.fileSize) p - seg.vaddr) ++
        (seg.window p).toList.flatMap CopyWindow.bytes =
      spread seg.vaddr seg.fileOffset (min (seg.vaddr + seg.fileSize) (p + 4096) - seg.vaddr) := by
  simp only [window]
  split
  · simp only [toList_none, flatMap_nil, append_nil]
    congr 1
    omega
  simp only [toList_some, flatMap_singleton, CopyWindow.bytes]
  have hlo : p + (max seg.vaddr p - p) = seg.vaddr + (max seg.vaddr p - seg.vaddr) := by omega
  have hfirst : min (seg.vaddr + seg.fileSize) p - seg.vaddr = max seg.vaddr p - seg.vaddr := by omega
  rw [hlo, hfirst, spread_append]
  congr 1
  omega

theorem LoadSegment.bytes_filterMap_window (hstart : start ≤ seg.vaddr) (n : Nat) :
    (((List.range n).map (start + 4096 * ·)).filterMap seg.window).flatMap CopyWindow.bytes =
      spread seg.vaddr seg.fileOffset (min (seg.vaddr + seg.fileSize) (start + 4096 * n) - seg.vaddr) := by
  induction n with
  | zero =>
    rw [show min (seg.vaddr + seg.fileSize) (start + 4096 * 0) - seg.vaddr = 0 by omega]
    rfl
  | succ n ih =>
    have hone : ∀ p, [p].filterMap seg.window = (seg.window p).toList := by
      intro p
      cases h : seg.window p <;> simp [h]
    rw [range_succ, map_append, filterMap_append, flatMap_append, ih, map_singleton, hone,
      seg.spread_window, Nat.mul_succ, Nat.add_assoc]

theorem LoadSegment.bytes_windows (hfit : seg.Fits image) :
    seg.windows.flatMap CopyWindow.bytes = spread seg.vaddr seg.fileOffset seg.fileSize := by
  have hle := hfit.file_le_mem
  refine (bytes_filterMap_window (by omega) _).trans ?_
  congr 1
  omega

end SnitchOs.Proc
