import SnitchOs.Copy.Transfer
import SnitchOs.Mem.UserRange

/-!
# The bytes a cross-space copy moves

`copy_across` calls back once per run of bytes that stays within a page on both sides. Byte by byte, the
calls move the buffer from where the source's page table has it to where the destination's has it.
-/

namespace SnitchOs.Mem

namespace PhysMem

variable (m : PhysMem)

def byteAt (root : Pa) (va : Nat) (required : PtePerms) : Option Pa :=
  match m.translate root va with
  | some leaf =>
    if leaf.perms &&& required = required then some (leaf.pa + BitVec.ofNat 64 (va % pageSize)) else none
  | none => none

theorem byteAt_eq_some : m.byteAt root va required = some pa ↔ ∃ leaf, m.translate root va = some leaf ∧
      leaf.perms &&& required = required ∧ leaf.pa + BitVec.ofNat 64 (va % pageSize) = pa := by
  unfold byteAt
  cases m.translate root va with
  | none | some leaf => simp

theorem byteAt_add (h : m.byteAt root va required = some pa)
    (hi : va % pageSize + i < pageSize) : m.byteAt root (va + i) required = some (pa + BitVec.ofNat 64 i) := by
  obtain ⟨leaf, hleaf, hgrant, rfl⟩ := m.byteAt_eq_some.mp h
  have hpage : (va + i) / pageSize = va / pageSize ∧ (va + i) % pageSize = va % pageSize + i := by
    simp only [pageSize] at *
    omega
  refine m.byteAt_eq_some.mpr ⟨leaf, (m.translate_congr root hpage.1).trans hleaf, hgrant, ?_⟩
  rw [hpage.2, BitVec.ofNat_add, BitVec.add_assoc]

/-- Pages are aligned, so the offset in the page is that of the address. -/
theorem byteAt_offset (h : m.byteAt root va required = some pa) : pa.toNat % pageSize = va % pageSize := by
  obtain ⟨leaf, hleaf, -, rfl⟩ := m.byteAt_eq_some.mp h
  obtain ⟨p, hp⟩ : ∃ p : Pte, leaf.pa = p.leafPa := by
    unfold translate at hleaf
    split at hleaf
    · cases hleaf
    dsimp only at hleaf
    split at hleaf
    · cases hleaf
      exact ⟨_, rfl⟩
    · cases hleaf
  simp only [hp, Pte.leafPa, pageSize, BitVec.toNat_add, BitVec.toNat_shiftLeft, BitVec.toNat_ofNat, Nat.shiftLeft_eq]
  omega

end PhysMem

end SnitchOs.Mem

namespace SnitchOs.Copy

open Mem List PtePerms

namespace Across

variable (a : Across) (m : PhysMem)

/-- The calls of the loop with `done` bytes copied, under page tables that stay as they are. -/
def callsFrom : Nat → Nat → List Chunk × Except CopyError Unit
  | 0, _ => ([], .ok ())
  | fuel + 1, done =>
    if done < a.len then
      match a.chunk m done with
      | .ok c => (c :: (callsFrom fuel (done + c.len)).1, (callsFrom fuel (done + c.len)).2)
      | .error e => ([], .error e)
    else ([], .ok ())

def calls : List Chunk × Except CopyError Unit :=
  if a.rangesOk then a.callsFrom m a.len 0 else ([], .error .badRange)

/-- The writes of `copyAcross` are those of the calls. -/
theorem loop_eq_callsFrom (fuel : Nat) : ∀ done,
    ((a.loop (fun _ => m) fuel done).1.map (·.2), (a.loop (fun _ => m) fuel done).2) =
      ((a.callsFrom m fuel done).1.map (·.len), (a.callsFrom m fuel done).2) := by
  induction fuel with
  | zero => exact fun _ => rfl
  | succ fuel ih =>
    intro done
    unfold loop callsFrom
    split
    · cases a.chunk m done with
      | error e => rfl
      | ok c =>
        obtain ⟨hlens, hres⟩ := Prod.mk.inj (ih (done + c.len))
        simp [map_cons, hlens, hres]
    · rfl

/-- From where to where byte `k` of the buffer goes. -/
def byteMove (k : Nat) : Option (Pa × Pa) :=
  match m.byteAt a.srcRoot (a.srcVa + k) (r ||| u),
    m.byteAt a.dstRoot (a.dstVa + k) (w ||| u) with
  | some src, some dst => some (src, dst)
  | _, _ => none

theorem chunk_toOption (done : Nat) :
    (a.chunk m done).toOption = (a.byteMove m done).map fun p => ⟨p.1, p.2, a.chunkLen done⟩ := by
  unfold chunk byteMove PhysMem.byteAt
  cases m.translate a.srcRoot (a.srcVa + done) with
  | none => rfl
  | some src =>
    cases m.translate a.dstRoot (a.dstVa + done) with
    | none =>
      dsimp only
      split <;> simp_all [Except.toOption]
    | some dst =>
      by_cases hsrc : src.perms &&& (r ||| u) = r ||| u
      · by_cases hdst : dst.perms &&& (w ||| u) = w ||| u
        · simp [hsrc, hdst, Except.toOption]
        · simp [hdst, Except.toOption]
      · simp [hsrc, Except.toOption]

theorem chunkLen_pos (h : done < a.len) : 0 < a.chunkLen done := by
  have hsrc : (a.srcVa + done) % pageSize < pageSize := Nat.mod_lt _ (by decide)
  have hdst : (a.dstVa + done) % pageSize < pageSize := Nat.mod_lt _ (by decide)
  unfold chunkLen
  omega

end Across

namespace Chunk

variable (c : Chunk)

def bytes : List (Pa × Pa) :=
  (List.range c.len).map fun i => (c.srcPa + BitVec.ofNat 64 i, c.dstPa + BitVec.ofNat 64 i)

/-- It crosses a page on neither side. -/
def InPages : Prop := c.srcPa.toNat % pageSize + c.len ≤ pageSize ∧ c.dstPa.toNat % pageSize + c.len ≤ pageSize

end Chunk

namespace Across

variable {a : Across} {m : PhysMem}

theorem chunk_moves (h : a.chunk m done = .ok c) :
    c.bytes.map some = (List.range' done c.len).map (a.byteMove m) ∧ c.InPages := by
  obtain ⟨⟨src, dst⟩, hmove, hc⟩ : ∃ p, a.byteMove m done = some p ∧ Chunk.mk p.1 p.2 (a.chunkLen done) = c := by
    rw [← Option.map_eq_some_iff, ← chunk_toOption, h]
    rfl
  have hat : m.byteAt a.srcRoot (a.srcVa + done) (r ||| u) = some src ∧
      m.byteAt a.dstRoot (a.dstVa + done) (w ||| u) = some dst := by
    unfold byteMove at hmove
    split at hmove
    · next hsrc hdst =>
      cases hmove
      exact ⟨hsrc, hdst⟩
    · cases hmove
  subst hc
  have hlen : a.chunkLen done ≤ pageSize - (a.srcVa + done) % pageSize ∧
      a.chunkLen done ≤ pageSize - (a.dstVa + done) % pageSize := by
    unfold chunkLen
    omega
  have hsrc : (a.srcVa + done) % pageSize < pageSize := Nat.mod_lt _ (by decide)
  have hdst : (a.dstVa + done) % pageSize < pageSize := Nat.mod_lt _ (by decide)
  refine ⟨?_, ?_, ?_⟩
  · rw [List.range'_eq_map_range, Chunk.bytes, map_map, map_map]
    refine map_congr_left fun i hi => ?_
    have hi : i < a.chunkLen done := mem_range.mp hi
    simp [Function.comp, byteMove, ← Nat.add_assoc, m.byteAt_add hat.1 (i := i) (by omega),
      m.byteAt_add hat.2 (i := i) (by omega)]
  · rw [m.byteAt_offset hat.1]
    exact Nat.add_le_of_le_sub' hsrc.le hlen.1
  · rw [m.byteAt_offset hat.2]
    exact Nat.add_le_of_le_sub' hdst.le hlen.2

/-- Where the loop from `done` on ends: at the end of the buffer, or at a byte that may not be moved. -/
theorem callsFrom_moves : ∀ {done : Nat}, a.len ≤ done + fuel → done ≤ a.len →
    ∃ n, ((a.callsFrom m fuel done).1.flatMap Chunk.bytes).map some = (List.range' done n).map (a.byteMove m) ∧
      ((a.callsFrom m fuel done).2 = .ok () ∧ done + n = a.len ∨
        (a.callsFrom m fuel done).2 ≠ .ok () ∧ done + n < a.len ∧ a.byteMove m (done + n) = none) ∧
      ∀ c ∈ (a.callsFrom m fuel done).1, c.InPages := by
  induction fuel with
  | zero => exact fun hfuel hdone => ⟨0, rfl, .inl ⟨rfl, by omega⟩, by simp [callsFrom]⟩
  | succ fuel ih =>
    intro done hfuel hdone
    unfold callsFrom
    by_cases hlt : done < a.len
    · rw [if_pos hlt]
      cases hchunk : a.chunk m done with
      | error e =>
        refine ⟨0, rfl, .inr ⟨by simp, hlt, ?_⟩, by simp⟩
        have hnone := a.chunk_toOption m done
        rw [hchunk] at hnone
        exact Option.map_eq_none_iff.mp hnone.symm
      | ok c =>
        obtain ⟨hbytes, hpages⟩ := chunk_moves hchunk
        have hpos := a.chunkLen_pos hlt
        have hle := a.chunkLen_le done
        rw [← a.chunk_len hchunk] at hpos hle
        obtain ⟨n, hrest, hend, hall⟩ := @ih (done + c.len) (by omega) (by omega)
        refine ⟨c.len + n, ?_, by rwa [← Nat.add_assoc], forall_mem_cons.mpr ⟨hpages, hall⟩⟩
        rw [flatMap_cons, map_append, hbytes, hrest, ← map_append, List.range'_append_1]
    · rw [if_neg hlt]
      exact ⟨0, rfl, .inl ⟨rfl, by omega⟩, by simp⟩

/-- For all roots, addresses, lengths and page tables: a copy succeeds if and only if both ranges are
ranges of the user half and every byte may be moved; the calls move the bytes of the buffer in order, from
the first on and all of them if it succeeds; and no call crosses a page. -/
theorem calls_move_buffer (a : Across) (m : PhysMem) :
    ((a.calls m).2 = .ok () ↔ (userRangeOk a.srcVa a.len = true ∧ userRangeOk a.dstVa a.len = true) ∧
      ∀ k < a.len, ∃ move, a.byteMove m k = some move) ∧
    (∃ n ≤ a.len, ((a.calls m).1.flatMap Chunk.bytes).map some = (List.range n).map (a.byteMove m) ∧
      ((a.calls m).2 = .ok () → n = a.len)) ∧
    ∀ c ∈ (a.calls m).1, c.InPages := by
  unfold calls
  rw [rangesOk, ← Bool.and_eq_true]
  split
  · next hok =>
    obtain ⟨n, hbytes, hend, hpages⟩ := callsFrom_moves (a := a) (m := m) (Nat.zero_add a.len).ge (Nat.zero_le _)
    rw [← range_eq_range'] at hbytes
    simp only [Nat.zero_add] at hend
    refine ⟨?_, ⟨n, by omega, hbytes, fun h => hend.elim (·.2) fun hno => absurd h hno.1⟩, hpages⟩
    rcases hend with ⟨hres, rfl⟩ | ⟨hres, hlt, hnone⟩
    · refine ⟨fun _ => ⟨hok, fun k hk => ?_⟩, fun _ => hres⟩
      obtain ⟨move, -, hmove⟩ : ∃ move, move ∈ _ ∧ some move = a.byteMove m k :=
        mem_map.mp (hbytes ▸ mem_map_of_mem (mem_range.mpr hk))
      exact ⟨move, hmove.symm⟩
    · refine ⟨fun h => absurd h hres, fun h => ?_⟩
      obtain ⟨move, hmove⟩ := h.2 n hlt
      rw [hnone] at hmove
      cases hmove
  · next hno =>
    refine ⟨⟨fun h => ?_, fun h => absurd h.1 hno⟩, ⟨0, Nat.zero_le _, rfl, fun h => ?_⟩, by simp⟩
    · cases h
    · cases h

end Across

end SnitchOs.Copy
