import SnitchOs.Proc.Load

/-!
# Anonymous memory

`MapAnon` maps fresh zeroed pages at the top of the calling process's heap. A request that the cap refuses
changes nothing. One that runs out of frames part-way leaves the pages it has mapped, below a heap top that
has not moved.
-/

namespace SnitchOs.Proc

open Machine Mem List PtePerms

def heapBase : Nat := 0x20000000

def heapMax : Nat := 16 * 1024 * 1024

def mapAnonPages (root : Pa) : Nat → Nat → PhysMem → PhysMem × Bool
  | 0, _, m => (m, true)
  | n + 1, va, m =>
    match m.allocZeroed with
    | none => (m, false)
    | some (f, m) =>
      match m.map root va f (u ||| r ||| w) with
      | (m, .error _) => (m, false)
      | (m, .ok ()) => mapAnonPages root n (va + frameSize) m

/-- `handle_map_anon` for a request of `a0` bytes: the memory and the heap top it leaves, and the base of the
new region unless it refuses. `none` is a panic. -/
def handleMapAnon (checks : Bool) (m : PhysMem) (root : Pa) (heapTop a0 : Nat) :
    Option (PhysMem × Nat × Option Nat) := do
  let bytes ← usize checks ((a0 + frameSize - 1) / frameSize * frameSize)
  let stop := min (heapTop + bytes) (2 ^ 64 - 1)
  if bytes = 0 ∨ heapBase + heapMax < stop then return (m, heapTop, none)
  match mapAnonPages root (bytes / frameSize) heapTop m with
  | (m, false) => return (m, heapTop, none)
  | (m, true) => return (m, stop, some heapTop)

def anonPages (n va : Nat) : List (Nat × SegmentPerms) :=
  (List.range n).map fun k => (va + frameSize * k, ⟨true, true, false⟩)

theorem mem_anonPages (h : e ∈ anonPages n va) : ∃ k < n, e = (va + 4096 * k, ⟨true, true, false⟩) := by
  obtain ⟨k, hk, rfl⟩ := mem_map.mp h
  exact ⟨k, mem_range.mp hk, rfl⟩

theorem permsFor_rw : permsFor ⟨true, true, false⟩ = u ||| r ||| w := by decide

theorem mapAnonPages_eq (root : Pa) (n : Nat) : ∀ (va : Nat) (m : PhysMem),
    mapAnonPages root n va m = ((mapPages root (anonPages n va) m).1, (mapPages root (anonPages n va) m).2.isOk) := by
  induction n with
  | zero => exact fun _ _ => rfl
  | succ n ih =>
    intro va m
    have hcons : anonPages (n + 1) va = (va, ⟨true, true, false⟩) :: anonPages n (va + frameSize) := by
      simp only [anonPages, range_succ_eq_map, map_cons, map_map, Nat.mul_zero, Nat.add_zero]
      refine congrArg _ (map_congr_left fun k _ => ?_)
      simp only [Function.comp, Nat.succ_eq_add_one, Prod.mk.injEq, and_true]
      simp only [frameSize]
      omega
    rw [hcons, mapAnonPages, mapPages]
    cases m.allocZeroed with
    | none => rfl
    | some p =>
      obtain ⟨f, m₁⟩ := p
      simp only [permsFor_rw]
      rcases m₁.map root va f (u ||| r ||| w) with ⟨m₂, e | u⟩
      · rfl
      simp only [ih (va + frameSize) m₂]
      rcases mapPages root (anonPages n (va + frameSize)) m₂ with ⟨m₃, e | dst⟩ <;> rfl

/-! ### What a request can end in -/

def pageCount (a0 : Nat) : Nat := (a0 + 4095) / 4096

/-- The pages from `base` on, and no others, are mapped: R, W and U, to zeroed frames of their own. -/
def MapsAnon (m m' : PhysMem) (root : Pa) (base n : Nat) : Prop :=
  ∃ frame : Nat → Pa, (∀ j < n, ∀ k < n, frame j = frame k → j = k) ∧
    (∀ k < n, frame k ∈ m.free ∧ ∀ i, m'.word (frame k) i = 0) ∧
    ∀ va < userVaEnd, m'.translate root va = if base ≤ va ∧ va < base + 4096 * n then
      some ⟨frame ((va - base) / 4096), u ||| r ||| w⟩ else m.translate root va

/-- A page of the region is mapped, or there may be too few frames for `n` pages and their tables. -/
def Blocked (m : PhysMem) (page : Nat → Nat → Nat → Pte) (base n : Nat) : Prop :=
  m.free.length ≤ 3 * n ∨ ∃ k < n, (entryOf page (base + 4096 * k)).isValid = true

/-- A request is refused without a change, or stops with frames taken, or is granted; granted it is if it
is within the cap and not blocked. A size that cannot be rounded up panics if the build checks for overflow. -/
inductive AnonOutcome (checks : Bool) (m : PhysMem) (root : Pa) (page : Nat → Nat → Nat → Pte) (heapTop a0 : Nat) :
    Option (PhysMem × Nat × Option Nat) → Prop
  | panics (hchecks : checks = true) (hsize : 2 ^ 64 ≤ pageCount a0 * 4096) :
      AnonOutcome checks m root page heapTop a0 none
  | refused (hwhy : a0 = 0 ∨ heapBase + heapMax < heapTop + pageCount a0 * 4096 ∨
        Blocked m page heapTop (pageCount a0)) :
      AnonOutcome checks m root page heapTop a0 (some (m, heapTop, none))
  | stopped {m' : PhysMem} (hfree : m'.free.length < m.free.length)
      (hwhy : Blocked m page heapTop (pageCount a0)) :
      AnonOutcome checks m root page heapTop a0 (some (m', heapTop, none))
  | mapped {m' : PhysMem} (h : MapsAnon m m' root heapTop (pageCount a0)) :
      AnonOutcome checks m root page heapTop a0 (some (m', heapTop + pageCount a0 * 4096, some heapTop))

section

variable {kernel : Pa → Prop} {m : PhysMem} {root : Pa} {tables : Node → Option Pa}
  {page : Nat → Nat → Nat → Pte} {heapTop : Nat}

theorem MapsFresh.mapsAnon (h : MapsFresh m m' root (anonPages n base) dst) (halign : ∀ p ∈ m.free, Aligned p) (hbase : base % 4096 = 0) :
    MapsAnon m m' root base n := by
  have hfound : ∀ k < n, ∃ d ∈ dst, d.1 = base + 4096 * k ∧ ∀ va, va / 4096 * 4096 = base + 4096 * k →
      m'.translate root va = some ⟨d.2, u ||| r ||| w⟩ := by
    intro k hk
    obtain ⟨d, hd, hat, htrans⟩ := h.found _ (mem_map.mpr ⟨k, mem_range.mpr hk, rfl⟩)
    refine ⟨d, hd, hat, fun va hva => (htrans va hva).trans ?_⟩
    rw [permsFor_rw]
    exact Pte.toLeaf_leaf (halign _ (h.fresh d hd)) (by decide) (by decide)
  choose! d hd hat htrans using hfound
  refine ⟨fun k => (d k).2, fun j hj k hk heq => ?_, fun k hk => ⟨h.fresh _ (hd k hk), h.zero _ (hd k hk)⟩, fun va hva => ?_⟩
  · have hsame := inj_on_of_nodup_map h.nodup (hd j hj) (hd k hk) heq
    have := hat j hj
    rw [hsame, hat k hk] at this
    omega
  · split
    · exact htrans ((va - base) / 4096) (by omega) va (by omega)
    refine h.other va hva fun e he => ?_
    obtain ⟨k, hk, rfl⟩ := mem_anonPages he
    dsimp only
    omega

/-- The loop over the pages: all of them are mapped, or it stops because the region is blocked. -/
theorem mapAnonPages_cases (htree : UserTree m kernel tables page) (hroot : tables .root = some root)
    (htop : heapTop % 4096 = 0) (hlow : heapTop + n * 4096 ≤ userVaEnd) :
    ∃ m' ok, mapAnonPages root n heapTop m = (m', ok) ∧ (ok = true ∧ MapsAnon m m' root heapTop n ∨
      ok = false ∧ (m' = m ∨ m'.free.length < m.free.length) ∧ Blocked m page heapTop n) := by
  have huser : ∀ e ∈ anonPages n heapTop, e.1 < userVaEnd ∧ e.1 % 4096 = 0 := by
    intro e he
    obtain ⟨k, hk, rfl⟩ := mem_anonPages he
    dsimp only
    omega
  have hasc : Ascending (anonPages n heapTop) :=
    pairwise_map.mpr (pairwise_lt_range.imp fun hlt => by simp only [frameSize]; omega)
  obtain ⟨m', r, hrun, -, hr⟩ := mapPages_run htree hroot hasc huser
  rw [mapAnonPages_eq, hrun]
  obtain ⟨dst, rfl, hdst⟩ | ⟨hfree, e, rfl, he⟩ := hr
  · exact ⟨m', true, rfl, .inl ⟨rfl, hdst.mapsAnon htree.free_aligned htop⟩⟩
  refine ⟨m', false, rfl, .inr ⟨rfl, hfree, he.imp ?_ ?_⟩⟩
  · rintro ⟨-, hle⟩
    simpa [anonPages] using hle
  · rintro ⟨-, d, hd, hv⟩
    obtain ⟨k, hk, rfl⟩ := mem_anonPages hd
    exact ⟨k, hk, hv⟩

end

end SnitchOs.Proc
