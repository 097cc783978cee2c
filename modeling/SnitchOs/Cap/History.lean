import SnitchOs.Lib.Runs
import SnitchOs.Cap.Table

/-!
# One table over a whole run

A `History` runs the six table operations and keeps beside the table what the grants promised: the live holdings with
the handle each grant returned, every handle returned so far, and the handles whose holding is gone and that no later
grant returned again. A handle has 16 bits for the index and 16 for the generation, so a grant keeps its promise
exactly as long as it lands in a slot that fits.
-/

namespace SnitchOs.Cap

open CapTable Option Handle Handle

/-- One operation on a capability table; `consume` may be handed any `u32`. -/
inductive Op
  | insert (cap : Capability)
  | insertWithId (cap : Capability) (capId parentCapId : Nat)
  | insertOnce (cap : Capability)
  | insertOnceWithId (cap : Capability) (capId parentCapId : Nat)
  | consume (raw : UInt32)
  | revokeByCapId (capId : Nat)
deriving DecidableEq

def Op.IsGrant : Op → Prop
  | .insert _ | .insertWithId .. | .insertOnce _ | .insertOnceWithId .. => True
  | .consume _ | .revokeByCapId _ => False

/-- What one grant handed out: the slot it filled, the handle it returned and what it recorded. -/
structure Holding where
  slot : Nat
  handle : Handle
  cap : Capability
  multiplicity : Multiplicity
  capId : Nat
  parentCapId : Nat
deriving DecidableEq

structure History where
  table : CapTable := .new
  live : List Holding := []
  returned : List Handle := []
  dead : List Handle := []
deriving DecidableEq

namespace History

/-- Enter a grant that answered `r`. A dead handle that is returned again is no longer dead. -/
def record (s : History) (r : Handle × CapTable) (cap : Capability) (m : Multiplicity)
    (capId parentCapId : Nat) : History where
  table := r.2
  live := ⟨s.table.freeIndex, r.1, cap, m, capId, parentCapId⟩ :: s.live
  returned := r.1 :: s.returned
  dead := s.dead.filter (· ≠ r.1)

def drop (s : History) (t : CapTable) (i : Nat) : History where
  table := t
  live := s.live.filter (·.slot ≠ i)
  returned := s.returned
  dead := (s.live.filter (·.slot = i)).map (·.handle) ++ s.dead

def step (s : History) : Op → History
  | .insert cap => s.record (s.table.insert cap) cap .persistent 0 0
  | .insertWithId cap capId parent =>
    s.record (s.table.insertWithId cap capId parent) cap .persistent capId parent
  | .insertOnce cap => s.record (s.table.insertOnce cap) cap .once 0 0
  | .insertOnceWithId cap capId parent =>
    s.record (s.table.insertOnceWithId cap capId parent) cap .once capId parent
  | .consume raw =>
    match s.table.consume (.fromRaw raw) with
    | (true, t) => s.drop t (fromRaw raw).index.toNat
    | (false, _) => s
  | .revokeByCapId capId =>
    match s.table.revokeByCapId capId with
    | (some _, t) => s.drop t (s.table.indexOfCapId capId)
    | (none, _) => s

/-- The run of `ops` from an empty table. -/
def run (ops : List Op) : History := ops.foldl step {}

/-- Every operation is a grant into `freeIndex`, the freeing of one live slot, or nothing at all. -/
theorem step_cases (s : History) (op : Op) :
    (∃ cap m id par, op.IsGrant ∧ s.step op = s.record (s.table.grant cap m id par) cap m id par) ∨
      (∃ i slot, s.table.slots[i]? = some slot ∧ slot.cap.isSome ∧ ¬ op.IsGrant ∧
        s.step op = s.drop (s.table.freeAt i) i) ∨ (¬ op.IsGrant ∧ s.step op = s) := by
  cases op with
  | insert cap | insertWithId cap id par | insertOnce cap | insertOnceWithId cap id par =>
    exact .inl ⟨_, _, _, _, trivial, rfl⟩
  | consume raw =>
    right
    rcases s.table.consume_cases (.fromRaw raw) with ⟨slot, cap, hlook, hc⟩ | ⟨-, hc⟩
    · obtain ⟨hslot, -, hcap⟩ := lookup_eq_ok_iff.mp hlook
      exact .inl ⟨_, slot, hslot, by rw [hcap]; rfl, id, by simp only [step, hc]⟩
    · exact .inr ⟨id, by simp only [step, hc]⟩
  | revokeByCapId capId =>
    right
    rcases s.table.revokeByCapId_cases capId with ⟨slot, cap, hslot, hcap, -, -, hr⟩ | ⟨-, hr⟩
    · exact .inl ⟨_, slot, hslot, by rw [hcap]; rfl, id, by simp only [step, hr]⟩
    · exact .inr ⟨id, by simp only [step, hr]⟩

/-! ### The bookkeeping follows the table -/

/-- The live holdings are the occupied slots, each with the record its grant made and the handle
packed from its slot and generation. -/
structure Tracks (s : History) : Prop where
  held : ∀ x ∈ s.live, ∃ g, x.handle = new (.ofNat x.slot) g ∧
    s.table.slots[x.slot]? = some ⟨g, x.multiplicity, some x.cap, x.capId, x.parentCapId⟩
  covers : ∀ j slot, s.table.slots[j]? = some slot → slot.cap.isSome → ∃ x ∈ s.live, x.slot = j
  apart : s.live.Pairwise (fun x y => x.slot ≠ y.slot)

theorem Tracks.empty : Tracks {} where
  held := by simp
  covers := by simp [CapTable.new]
  apart := .nil

variable {s : History} {x : Holding} {op : Op} {t : CapTable} {i n : Nat} {g : UInt32}

theorem Tracks.slot_ne_freeIndex (hs : s.Tracks) (hx : x ∈ s.live) : x.slot ≠ s.table.freeIndex := by
  intro heq
  obtain ⟨g, -, hslot⟩ := hs.held x hx
  rw [heq] at hslot
  cases cap_of_freeIndex hslot

theorem Tracks.record (hs : s.Tracks) (cap : Capability) (m : Multiplicity)
    (id par : Nat) : (s.record (s.table.grant cap m id par) cap m id par).Tracks where
  held := by
    intro x hx
    rcases List.mem_cons.mp hx with rfl | hx
    · exact ⟨s.table.landingGeneration, grant_fst .., by simp [History.record, getElem?_grant]⟩
    obtain ⟨g, hg, hslot⟩ := hs.held x hx
    exact ⟨g, hg, by simp [History.record, getElem?_grant, hs.slot_ne_freeIndex hx, hslot]⟩
  covers := by
    intro j slot hj hlive
    by_cases hjf : j = s.table.freeIndex
    · exact ⟨_, List.mem_cons_self, hjf.symm⟩
    simp only [History.record, getElem?_grant, hjf, if_false] at hj
    obtain ⟨x, hx, hxj⟩ := hs.covers j slot hj hlive
    exact ⟨x, List.mem_cons_of_mem _ hx, hxj⟩
  apart := List.pairwise_cons.mpr ⟨fun _ hx => (hs.slot_ne_freeIndex hx).symm, hs.apart⟩

theorem Tracks.drop (hs : s.Tracks) (i : Nat) : (s.drop (s.table.freeAt i) i).Tracks where
  held := by
    intro x hx
    simp only [History.drop, List.mem_filter, decide_eq_true_eq] at hx
    obtain ⟨g, hg, hslot⟩ := hs.held x hx.1
    exact ⟨g, hg, by simp [History.drop, getElem?_freeAt, hx.2, hslot]⟩
  covers := by
    intro j slot hj hlive
    simp only [History.drop, getElem?_freeAt] at hj
    by_cases hji : j = i
    · -- the freed slot holds nothing
      rw [if_pos hji, map_eq_some_iff] at hj
      obtain ⟨old, -, rfl⟩ := hj
      cases hlive
    · rw [if_neg hji] at hj
      obtain ⟨x, hx, hxj⟩ := hs.covers j slot hj hlive
      exact ⟨x, by simp [History.drop, hx, hxj, hji], hxj⟩
  apart := hs.apart.filter _

theorem Tracks.step (hs : s.Tracks) (op : Op) : (s.step op).Tracks := by
  rcases s.step_cases op with ⟨cap, m, id, par, -, h⟩ | ⟨i, slot, -, -, -, h⟩ | ⟨-, h⟩
  · rw [h]; exact hs.record cap m id par
  · rw [h]; exact hs.drop i
  · rwa [h]

/-! ### Handles of live holdings -/

/-- Every grant so far still holds: the handle it returned reads back exactly what it recorded, and
no two live holdings share a handle. -/
def Faithful (s : History) : Prop :=
  (∀ x ∈ s.live,
    s.table.resolve (.fromRaw x.handle.raw) = .ok x.cap ∧
    s.table.multiplicityOf (.fromRaw x.handle.raw) = .ok x.multiplicity ∧
    s.table.capIdOf (.fromRaw x.handle.raw) = .ok x.capId ∧
    s.table.parentCapIdOf (.fromRaw x.handle.raw) = .ok x.parentCapId) ∧
  (s.live.map (·.handle)).Nodup

/-- The next grant would land in a slot whose index and generation fit the 16 bits a handle has for
each. -/
def Fits (s : History) : Prop :=
  s.table.freeIndex < 2 ^ 16 ∧ s.table.landingGeneration.toNat < 2 ^ 16

/-- Every occupied slot has an index and a generation that fit a handle. -/
def Packed (s : History) : Prop :=
  ∀ j slot, s.table.slots[j]? = some slot → slot.cap.isSome →
    j < 2 ^ 16 ∧ slot.generation.toNat < 2 ^ 16

theorem Packed.step (hs : s.Packed) (hfit : op.IsGrant → s.Fits) : (s.step op).Packed := by
  rcases s.step_cases op with ⟨cap, m, id, par, hop, h⟩ | ⟨i, slot, -, -, -, h⟩ | ⟨-, h⟩
  · rw [h]
    intro j slot hj hlive
    simp only [History.record, getElem?_grant] at hj
    split at hj
    · next heq =>
      cases hj
      rw [heq]
      exact hfit hop
    · exact hs j slot hj hlive
  · rw [h]
    intro j slot hj hlive
    simp only [History.drop, getElem?_freeAt] at hj
    split at hj
    · rw [map_eq_some_iff] at hj
      obtain ⟨old, -, rfl⟩ := hj
      cases hlive
    · exact hs j slot hj hlive
  · rwa [h]

theorem toNat_ofNat_mod (i : Nat) : (UInt32.ofNat i).toNat % 2 ^ 16 = i % 2 ^ 16 := by
  rw [UInt32.toNat_ofNat']
  omega

theorem index_new_ofNat (i : Nat) (g : UInt32) : (new (.ofNat i) g).index.toNat = i % 2 ^ 16 := by
  rw [index_new, toNat_ofNat_mod]

theorem lookup_new {id par : Nat} (hi : i < 2 ^ 16)
    (hg : g.toNat < 2 ^ 16) (hslot : t.slots[i]? = some ⟨g, m, some cap, id, par⟩) :
    t.lookup (new (.ofNat i) g) = .ok (⟨g, m, some cap, id, par⟩, cap) := by
  refine lookup_eq_ok_iff.mpr ⟨?_, ?_, rfl⟩
  · rw [index_new_ofNat, Nat.mod_eq_of_lt hi, hslot]
  apply UInt32.toNat_inj.mp
  rw [generation_new, Nat.mod_eq_of_lt hg]

theorem Tracks.faithful (hs : s.Tracks) (hp : s.Packed) : s.Faithful := by
  constructor
  · intro x hx
    obtain ⟨g, hh, hslot⟩ := hs.held x hx
    obtain ⟨hi, hg⟩ := hp x.slot _ hslot rfl
    have hlook := lookup_new hi hg hslot
    have hraw : fromRaw x.handle.raw = new (.ofNat x.slot) g := hh
    rw [hraw]
    simp [resolve, multiplicityOf, capIdOf, parentCapIdOf, hlook, Except.map]
  · rw [List.nodup_iff_pairwise_ne, List.pairwise_map]
    refine hs.apart.imp_of_mem ?_
    intro x y hx hy hne heq
    obtain ⟨g, hhx, hx⟩ := hs.held x hx
    obtain ⟨g', hhy, hy⟩ := hs.held y hy
    have hidx := congrArg (fun h : Handle => h.index.toNat) heq
    simp only [hhx, hhy, index_new_ofNat] at hidx
    have := (hp _ _ hx rfl).1
    have := (hp _ _ hy rfl).1
    omega

/-- The handle of a live holding that reads back correctly names a slot by index and generation. -/
theorem Faithful.names (hf : s.Faithful) (hx : x ∈ s.live) : ∃ slot, s.table.slots[x.handle.index.toNat]? = some slot ∧
      slot.generation = x.handle.generation ∧ slot.cap.isSome := by
  have hres := (hf.1 x hx).1
  unfold resolve at hres
  cases hlook : s.table.lookup (.fromRaw x.handle.raw) with
  | error e => simp [hlook, Except.map] at hres
  | ok r =>
    obtain ⟨slot, cap⟩ := r
    obtain ⟨hslot, hgen, hcap⟩ := lookup_eq_ok_iff.mp hlook
    exact ⟨slot, hslot, hgen, by rw [hcap]; rfl⟩

/-- A grant that does not fit breaks the promise at once: its handle is stale already, or it is the
handle of another live holding. -/
theorem Tracks.fits_of_faithful_step (hs : s.Tracks) (hop : op.IsGrant) (hf : (s.step op).Faithful) : s.Fits := by
  obtain ⟨cap, m, id, par, -, h⟩ : ∃ cap m id par, op.IsGrant ∧
      s.step op = s.record (s.table.grant cap m id par) cap m id par := by
    rcases s.step_cases op with h | ⟨_, _, _, _, hno, _⟩ | ⟨hno, _⟩
    · exact h
    · exact absurd hop hno
    · exact absurd hop hno
  have hs' : (s.step op).Tracks := hs.step op
  rw [h] at hf hs'
  set s' := s.record (s.table.grant cap m id par) cap m id par with hnextdef
  set x : Holding := ⟨s.table.freeIndex, (s.table.grant cap m id par).1, cap, m, id, par⟩ with hxdef
  have hx : x ∈ s'.live := List.mem_cons_self
  have hhandle : x.handle = new (.ofNat s.table.freeIndex) s.table.landingGeneration := grant_fst ..
  obtain ⟨slot, hslot, hgen, hlive⟩ := hf.names hx
  -- the slot the handle names holds `x` itself, or `x` shares its handle with the holding there
  obtain ⟨y, hy, hyslot⟩ := hs'.covers _ slot hslot hlive
  obtain ⟨g, hyh, hyget⟩ := hs'.held y hy
  have hidx : y.slot = s.table.freeIndex % 2 ^ 16 := by
    rw [hyslot, hhandle, index_new_ofNat]
  have hg : g.toNat = s.table.landingGeneration.toNat % 2 ^ 16 := by
    rw [hyslot, hslot] at hyget
    have : slot.generation = g := by rw [some.inj hyget]
    rw [← this, hgen, hhandle, generation_new]
  have hyx : y.handle = x.handle := by
    rw [hyh, hhandle]
    refine ext_parts ?_ ?_
    · rw [index_new_ofNat, index_new_ofNat, hidx, Nat.mod_mod]
    · rw [generation_new, generation_new, hg, Nat.mod_mod]
  have hyeq : y = x := List.inj_on_of_nodup_map hf.2 hy hx hyx
  subst hyeq
  have hgen_eq : g = s.table.landingGeneration := by
    have hget : s'.table.slots[s.table.freeIndex]? =
        some ⟨s.table.landingGeneration, m, some cap, id, par⟩ := by
      simp [hnextdef, History.record, getElem?_grant]
    rw [hget] at hyget
    exact (congrArg Slot.generation (some.inj hyget)).symm
  refine ⟨?_, ?_⟩
  · rw [hxdef] at hidx
    simp only at hidx
    omega
  · rw [hgen_eq] at hg
    omega

/-- In every run, each returned handle names its own holding for as long as that holding is live,
and no two live holdings share a handle, exactly when every grant of the run lands in a slot whose
index and generation fit 16 bits. -/
theorem live_handles_faithful_iff (ops : List Op) :
    (∀ k, (run (ops.take k)).Faithful) ↔
      ∀ k op, ops[k]? = some op → op.IsGrant → (run (ops.take k)).Fits := by
  constructor
  · intro hf
    exact Runs.ok_of_forall_take (I := Tracks) (C := fun s op => op.IsGrant → s.Fits) Tracks.empty
      (fun s op hs _ => hs.step op) (fun s op hs hf hop => hs.fits_of_faithful_step hop hf) hf
  intro hok k
  have hinv : (run (ops.take k)).Tracks ∧ (run (ops.take k)).Packed :=
    Runs.invariant_take (I := fun s : History => s.Tracks ∧ s.Packed)
      (C := fun s op => op.IsGrant → s.Fits) ⟨Tracks.empty, by simp [Packed, CapTable.new]⟩
      (fun s op hs hop => ⟨hs.1.step op, hs.2.step hop⟩) hok k
  exact hinv.1.faithful hinv.2

/-! ### A server that outlives its generations

One request-reply round mints a reply capability into the first free slot and spends it. -/

/-- The reply capability of some call by task `0`. -/
def replyCap : Capability := ⟨.reply 0 0, .none⟩

def rounds : Nat → List Op
  | 0 => []
  | n + 1 => rounds n ++ [.insertOnce replyCap, .consume (new 0 (.ofNat n)).raw]

/-- After `n` rounds the table is one tombstone of generation `n`, and the handle of the first round
is among those returned. -/
structure Worn (s : History) (n : Nat) : Prop where
  table : s.table = { slots := [⟨.ofNat n, .once, none, 0, 0⟩] }
  live : s.live = []
  returned : new 0 0 ∈ s.returned

theorem Worn.first : Worn (run (rounds 1)) 1 := by
  refine ⟨by decide, by decide, by decide⟩

theorem Worn.insertOnce (hs : s.Worn n) :
    (s.step (.insertOnce replyCap)).table = { slots := [⟨.ofNat n, .once, some replyCap, 0, 0⟩] } ∧
    (s.step (.insertOnce replyCap)).live = [⟨0, new 0 (.ofNat n), replyCap, .once, 0, 0⟩] ∧
    (s.step (.insertOnce replyCap)).returned = new 0 (.ofNat n) :: s.returned := by
  obtain ⟨table, live, returned, dead⟩ := s
  obtain ⟨htable, hlive, -⟩ := hs
  subst htable hlive
  exact ⟨rfl, rfl, rfl⟩

theorem Worn.round (hs : s.Worn n) (hn : n < 2 ^ 16) :
    ((s.step (.insertOnce replyCap)).step (.consume (new 0 (.ofNat n)).raw)).Worn (n + 1) := by
  obtain ⟨htable, hlive, hret⟩ := hs.insertOnce
  set s' := s.step (.insertOnce replyCap)
  have hlook : s'.table.lookup (new (.ofNat 0) (.ofNat n)) = .ok (_, replyCap) :=
    lookup_new (by omega) (by rw [UInt32.toNat_ofNat']; omega) (by rw [htable]; rfl)
  have hzero : (new (.ofNat 0) (.ofNat n)).index.toNat = 0 := by
    rw [index_new_ofNat, Nat.zero_mod]
  rcases s'.table.consume_cases (.fromRaw (new (.ofNat 0) (.ofNat n)).raw) with
    ⟨_, _, -, hc⟩ | ⟨⟨e, he⟩, -⟩
  · have hstep : s'.step (.consume (new 0 (.ofNat n)).raw) = s'.drop (s'.table.freeAt 0) 0 := by
      rw [← hzero]
      simp only [step]
      rw [show UInt32.ofNat 0 = 0 from rfl] at hc
      rw [hc]
      rfl
    rw [hstep]
    refine ⟨?_, ?_, ?_⟩
    · simp only [History.drop, freeAt, htable]
      simp [List.modify, Slot.free]
    · simp [History.drop, hlive]
    exact List.mem_cons_of_mem _ hs.returned
  · rw [fromRaw] at he
    rw [hlook] at he
    cases he

theorem worn_rounds (hpos : 0 < n) (hn : n ≤ 2 ^ 16) : Worn (run (rounds n)) n := by
  induction n, hpos using Nat.le_induction with
  | base => exact Worn.first
  | succ n _ ih =>
    rw [rounds, run, List.foldl_append]
    exact (ih (by omega)).round hn

/-- The run that breaks both promises: `2 ^ 16` rounds and one more grant. -/
def wornOut : List Op := rounds (2 ^ 16) ++ [.insertOnce replyCap]

theorem run_wornOut : run wornOut = (run (rounds (2 ^ 16))).step (.insertOnce replyCap) := by
  rw [wornOut, run, List.foldl_append]
  rfl

/-- The last grant of `wornOut` returns a handle that is stale at once. -/
theorem wornOut_handle_stale : ¬ ∀ k, (run (wornOut.take k)).Faithful := by
  intro hf
  have hlast := hf wornOut.length
  rw [List.take_length, run_wornOut] at hlast
  obtain ⟨htable, hlive, -⟩ := (worn_rounds (Nat.two_pow_pos 16) le_rfl).insertOnce
  have hres := (hlast.1 ⟨0, new 0 (.ofNat (2 ^ 16)), replyCap, .once, 0, 0⟩
    (by rw [hlive]; exact List.mem_cons_self)).1
  rw [htable] at hres
  revert hres
  decide

/-! ### Handles of dead holdings -/

/-- Every use of `h` is turned away. -/
def Refused (t : CapTable) (h : Handle) : Prop :=
  (t.resolve h = .error .stale ∨ t.resolve h = .error .outOfBounds) ∧
  (t.multiplicityOf h = .error .stale ∨ t.multiplicityOf h = .error .outOfBounds) ∧
  (t.capIdOf h = .error .stale ∨ t.capIdOf h = .error .outOfBounds) ∧
  (t.consume h).1 = false

/-- No handle that is dead works, and no grant so far returned a handle twice. -/
def Buried (s : History) : Prop :=
  (∀ h ∈ s.dead, Refused s.table h) ∧ s.returned.Nodup

def Passed (t : CapTable) (h : Handle) : Prop :=
  ∃ slot, t.slots[h.index.toNat]? = some slot ∧ h.generation.toNat < slot.generation.toNat

theorem Passed.refused (hp : Passed t h) : Refused t h := by
  obtain ⟨slot, hslot, hlt⟩ := hp
  have hne : slot.generation ≠ h.generation := by
    intro heq
    rw [heq] at hlt
    exact lt_irrefl _ hlt
  have hlook : t.lookup h = .error .stale := by
    simp [lookup, hslot, ne_eq, hne, not_false_eq_true]
  refine ⟨.inl ?_, .inl ?_, .inl ?_, ?_⟩
  · simp [resolve, hlook, Except.map]
  · simp [multiplicityOf, hlook, Except.map]
  · simp [capIdOf, hlook, Except.map]
  · simp [consume, hslot, hne]

/-- While every grant fits, the handles returned so far are exactly those of the generations each
slot has been through, and a dead one lies strictly behind its slot. -/
structure Numbered (s : History) : Prop where
  short : s.table.slots.length ≤ 2 ^ 16
  generation_le : ∀ (j : Nat) (slot : Slot), s.table.slots[j]? = some slot → slot.generation.toNat ≤ 2 ^ 16
  generation_lt : ∀ (j : Nat) (slot : Slot), s.table.slots[j]? = some slot → slot.cap.isSome →
    slot.generation.toNat < 2 ^ 16
  mem_returned : ∀ h, h ∈ s.returned ↔ ∃ slot, s.table.slots[h.index.toNat]? = some slot ∧
    (h.generation.toNat < slot.generation.toNat ∨
      h.generation.toNat = slot.generation.toNat ∧ slot.cap.isSome)
  nodup : s.returned.Nodup
  passed : ∀ h ∈ s.dead, Passed s.table h

theorem Numbered.empty : Numbered {} where
  short := by simp [CapTable.new]
  generation_le := by simp [CapTable.new]
  generation_lt := by simp [CapTable.new]
  mem_returned := by simp [CapTable.new]
  nodup := .nil
  passed := by simp

theorem Numbered.buried (hs : s.Numbered) : s.Buried :=
  ⟨fun h hh => (hs.passed h hh).refused, hs.nodup⟩

theorem length_grant_le (t : CapTable) (cap : Capability) (m : Multiplicity) (id par : Nat)
    (hi : t.freeIndex < 2 ^ 16) (hlen : t.slots.length ≤ 2 ^ 16) : (t.grant cap m id par).2.slots.length ≤ 2 ^ 16 := by
  by_contra hgt
  have hnone : t.slots[2 ^ 16]? = none := List.getElem?_eq_none hlen
  have hsome := getElem?_grant t cap m id par (2 ^ 16)
  rw [if_neg (by omega), hnone, List.getElem?_eq_none_iff] at hsome
  omega

theorem Numbered.handle_fresh (hs : s.Numbered) (hfit : s.Fits) :
    new (.ofNat s.table.freeIndex) s.table.landingGeneration ∉ s.returned := by
  rw [hs.mem_returned, index_new_ofNat, Nat.mod_eq_of_lt hfit.1, generation_new, Nat.mod_eq_of_lt hfit.2]
  rintro ⟨slot, hslot, hlt⟩
  have hcap := cap_of_freeIndex hslot
  simp [landingGeneration, hslot, hcap] at hlt

theorem Numbered.record (hs : s.Numbered) (hfit : s.Fits) (cap : Capability) (m : Multiplicity)
    (id par : Nat) : (s.record (s.table.grant cap m id par) cap m id par).Numbered where
  short := length_grant_le _ _ _ _ _ hfit.1 hs.short
  generation_le := by
    intro j slot hj
    simp only [History.record, getElem?_grant] at hj
    split at hj
    · cases hj
      exact hfit.2.le
    · exact hs.generation_le j slot hj
  generation_lt := by
    intro j slot hj hlive
    simp only [History.record, getElem?_grant] at hj
    split at hj
    · cases hj
      exact hfit.2
    · exact hs.generation_lt j slot hj hlive
  mem_returned := by
    intro h
    have hnew : h = (s.table.grant cap m id par).1 ↔ h.index.toNat = s.table.freeIndex ∧
        h.generation.toNat = s.table.landingGeneration.toNat := by
      have hidx := index_new_ofNat s.table.freeIndex s.table.landingGeneration
      have hgen := generation_new (.ofNat s.table.freeIndex) s.table.landingGeneration
      rw [Nat.mod_eq_of_lt hfit.1] at hidx
      rw [Nat.mod_eq_of_lt hfit.2] at hgen
      rw [grant_fst]
      constructor
      · rintro rfl
        exact ⟨hidx, hgen⟩
      · rintro ⟨hi, hg⟩
        exact ext_parts (hi.trans hidx.symm) (hg.trans hgen.symm)
    simp only [History.record, List.mem_cons, hnew, hs.mem_returned, getElem?_grant]
    by_cases hi : h.index.toNat = s.table.freeIndex
    · cases hslot : s.table.slots[s.table.freeIndex]? with
      | none => simp [hi, hslot, landingGeneration]
      | some slot =>
        have hcap := cap_of_freeIndex hslot
        simp [hi, hslot, landingGeneration, hcap, or_comm]
    · simp [hi]
  nodup := by
    rw [History.record, List.nodup_cons, grant_fst]
    exact ⟨hs.handle_fresh hfit, hs.nodup⟩
  passed := by
    intro h hh
    obtain ⟨slot, hslot, hlt⟩ := hs.passed h (List.mem_of_mem_filter hh)
    by_cases hi : h.index.toNat = s.table.freeIndex
    · refine ⟨⟨s.table.landingGeneration, m, some cap, id, par⟩, ?_, ?_⟩
      · simp [History.record, getElem?_grant, hi]
      rw [hi] at hslot
      simpa [landingGeneration, hslot] using hlt
    · exact ⟨slot, by simp [History.record, getElem?_grant, hi, hslot], hlt⟩

theorem toNat_add_one_of_lt (hg : g.toNat < 2 ^ 16) : (g + 1).toNat = g.toNat + 1 := by
  rw [UInt32.toNat_add, UInt32.toNat_one]
  omega

theorem Numbered.drop (hs : s.Numbered) (ht : s.Tracks)
    (hold : s.table.slots[i]? = some old) (hlive : old.cap.isSome) : (s.drop (s.table.freeAt i) i).Numbered := by
  have hlt := hs.generation_lt i old hold hlive
  have hbump := toNat_add_one_of_lt hlt
  have hi : i < 2 ^ 16 := lt_of_lt_of_le (List.getElem?_eq_some_iff.mp hold).1 hs.short
  have hget : ∀ j, (s.drop (s.table.freeAt i) i).table.slots[j]? =
      if j = i then some old.free else s.table.slots[j]? := by
    intro j
    rw [History.drop, getElem?_freeAt]
    by_cases hj : j = i
    · rw [if_pos hj, if_pos hj, hj, hold]
      rfl
    · rw [if_neg hj, if_neg hj]
  refine ⟨?_, ?_, ?_, ?_, hs.nodup, ?_⟩
  · simpa [History.drop, freeAt] using hs.short
  · intro j slot hj
    rw [hget] at hj
    split at hj
    · cases hj
      rw [Slot.free_generation, hbump]
      exact hlt
    · exact hs.generation_le j slot hj
  · intro j slot hj hsome
    rw [hget] at hj
    split at hj
    · cases hj
      cases hsome
    · exact hs.generation_lt j slot hj hsome
  · intro h
    rw [hget]
    simp only [History.drop, hs.mem_returned]
    by_cases hj : h.index.toNat = i
    · -- the handles up to the old generation are those strictly below the new one
      simp only [hj, hold, if_true, some.injEq, exists_eq_left', hlive, and_true,
        Slot.free_generation, hbump, Slot.free_cap, isSome_none, Bool.false_eq_true, and_false,
        or_false]
      omega
    · simp [hj]
  · intro h hh
    simp only [History.drop, List.mem_append, List.mem_map, List.mem_filter, decide_eq_true_eq] at hh
    rcases hh with ⟨x, ⟨hx, hxi⟩, rfl⟩ | hh
    · obtain ⟨g, hxh, hxget⟩ := ht.held x hx
      rw [hxi, hold] at hxget
      have hg : old.generation = g := congrArg Slot.generation (some.inj hxget)
      refine ⟨old.free, ?_, ?_⟩
      · rw [hget, hxh, index_new_ofNat, hxi, Nat.mod_eq_of_lt hi, if_pos rfl]
      rw [hxh, generation_new, Slot.free_generation, hbump, hg]
      omega
    · obtain ⟨slot, hslot, hpast⟩ := hs.passed h hh
      by_cases hj : h.index.toNat = i
      · refine ⟨old.free, by rw [hget, if_pos hj], ?_⟩
        rw [hj, hold] at hslot
        cases hslot
        rw [Slot.free_generation, hbump]
        omega
      · exact ⟨slot, by rw [hget, if_neg hj, hslot], hpast⟩

theorem Numbered.step (hs : s.Numbered) (ht : s.Tracks) (hfit : op.IsGrant → s.Fits) : (s.step op).Numbered := by
  rcases s.step_cases op with ⟨cap, m, id, par, hop, h⟩ | ⟨i, slot, hslot, hlive, -, h⟩ | ⟨-, h⟩
  · rw [h]; exact hs.record (hfit hop) cap m id par
  · rw [h]; exact hs.drop ht hslot hlive
  · rwa [h]

/-- The first grant that does not fit returns a handle some earlier grant returned. -/
theorem Numbered.fits_of_nodup_step (hs : s.Numbered) (hop : op.IsGrant) (hnodup : (s.step op).returned.Nodup) : s.Fits := by
  rcases s.step_cases op with ⟨cap, m, id, par, -, h⟩ | ⟨_, _, _, _, hno, _⟩ | ⟨hno, _⟩
  · rw [h, History.record, List.nodup_cons, grant_fst, hs.mem_returned, index_new_ofNat, generation_new] at hnodup
    replace hnodup := hnodup.1
    by_contra hfit
    apply hnodup
    have hle : s.table.freeIndex ≤ 2 ^ 16 := s.table.freeIndex_le_length.trans hs.short
    by_cases hi : s.table.freeIndex < 2 ^ 16
    · -- the slot has used up its generations: the next one wraps to `0`
      have hg : 2 ^ 16 ≤ s.table.landingGeneration.toNat := by
        by_contra hg
        exact hfit ⟨hi, by omega⟩
      rw [Nat.mod_eq_of_lt hi]
      cases hslot : s.table.slots[s.table.freeIndex]? with
      | none => simp [landingGeneration, hslot] at hg
      | some slot =>
        simp only [landingGeneration, hslot] at hg ⊢
        exact ⟨slot, rfl, .inl (by omega)⟩
    · -- the table is full: the next index wraps to slot `0`, which is live
      have hfull : s.table.freeIndex = 2 ^ 16 := by omega
      have hnone : s.table.slots[s.table.freeIndex]? = none := by
        rw [hfull]
        exact List.getElem?_eq_none hs.short
      obtain ⟨slot, hslot, hlive⟩ := live_of_lt_freeIndex (t := s.table) (j := 0) (by omega)
      refine ⟨slot, by rw [hfull, Nat.mod_self, hslot], ?_⟩
      simp only [landingGeneration, hnone]
      have := hs.generation_lt _ _ hslot hlive
      rcases Nat.eq_zero_or_pos slot.generation.toNat with hz | hpos
      · exact .inr ⟨by simp [hz], hlive⟩
      · exact .inl (by simpa using hpos)
  · exact absurd hop hno
  · exact absurd hop hno

/-- In every run, dead handles stay dead and no grant returns a handle an earlier grant returned,
exactly when every grant of the run lands in a slot whose index and generation fit 16 bits. -/
theorem dead_handles_buried_iff (ops : List Op) :
    (∀ k, (run (ops.take k)).Buried) ↔
      ∀ k op, ops[k]? = some op → op.IsGrant → (run (ops.take k)).Fits := by
  constructor
  · intro hb
    exact Runs.ok_of_forall_take (I := fun s : History => s.Tracks ∧ s.Numbered)
      (C := fun s op => op.IsGrant → s.Fits) ⟨Tracks.empty, Numbered.empty⟩
      (fun s op hs hop => ⟨hs.1.step op, hs.2.step hs.1 hop⟩)
      (fun s op hs hb hop => hs.2.fits_of_nodup_step hop hb.2) hb
  · intro hok k
    have hinv : (run (ops.take k)).Tracks ∧ (run (ops.take k)).Numbered :=
      Runs.invariant_take (I := fun s : History => s.Tracks ∧ s.Numbered)
        (C := fun s op => op.IsGrant → s.Fits) ⟨Tracks.empty, Numbered.empty⟩
        (fun s op hs hop => ⟨hs.1.step op, hs.2.step hs.1 hop⟩) hok k
    exact hinv.2.buried

/-- The last grant of `wornOut` returns the handle the first one returned. -/
theorem wornOut_handle_returns : ¬ ∀ k, (run (wornOut.take k)).Buried := by
  intro hb
  have hlast := (hb wornOut.length).2
  have hworn := worn_rounds (Nat.two_pow_pos 16) le_rfl
  rw [List.take_length, run_wornOut, hworn.insertOnce.2.2, List.nodup_cons] at hlast
  exact hlast.1 hworn.returned

end History

end SnitchOs.Cap
