import SnitchOs.Cap.Object

/-!
# The capability table

A process's table is a vector of slots. A grant takes the first freed slot, or a new one at the end, and answers with
the packed handle of its index and generation; freeing a slot (by `consume` or `revokeByCapId`) drops its capability
and bumps its generation. The four readers share one lookup, and every operation is summarised by what it does to
`slots[j]?`.
-/

namespace SnitchOs.Cap

open Option List

/-- One slot of a table. `capId` is the holding's id in the derivation tree and `parentCapId` that of
the holding it was derived from; `0` is the root sentinel. -/
structure Slot where
  generation : UInt32
  multiplicity : Multiplicity
  cap : Option Capability
  capId : Nat
  parentCapId : Nat
deriving DecidableEq

namespace Slot

/-- The slot after its holding is dropped: a tombstone of the next generation. -/
def free (s : Slot) : Slot := { s with cap := none, generation := s.generation + 1 }

@[simp] theorem free_cap (s : Slot) : s.free.cap = none := rfl
@[simp] theorem free_generation (s : Slot) : s.free.generation = s.generation + 1 := rfl

end Slot

structure CapTable where
  slots : List Slot := []
deriving DecidableEq

namespace CapTable

variable (t : CapTable)

def new : CapTable := { slots := [] }

/-! ### Reading through a handle -/

/-- The live slot `h` names, with its capability: bounds first, then the generation, then whether
the slot is occupied. -/
def lookup (h : Handle) : Except CapError (Slot × Capability) :=
  match t.slots[h.index.toNat]? with
  | none => .error .outOfBounds
  | some slot =>
    if slot.generation ≠ h.generation then .error .stale
    else match slot.cap with
      | none => .error .stale
      | some cap => .ok (slot, cap)

def resolve (h : Handle) : Except CapError Capability := (t.lookup h).map (·.2)
def multiplicityOf (h : Handle) : Except CapError Multiplicity := (t.lookup h).map (·.1.multiplicity)
def capIdOf (h : Handle) : Except CapError Nat := (t.lookup h).map (·.1.capId)
def parentCapIdOf (h : Handle) : Except CapError Nat := (t.lookup h).map (·.1.parentCapId)

/-! ### Writing -/

/-- Index of the slot the next grant takes: the first free one, or the end of the table. -/
def freeIndex : Nat := t.slots.findIdx (·.cap.isNone)

def grant (cap : Capability) (multiplicity : Multiplicity) (capId parentCapId : Nat) :
    Handle × CapTable :=
  match t.slots[t.freeIndex]? with
  | some slot =>
    (Handle.new (.ofNat t.freeIndex) slot.generation,
      { slots := t.slots.set t.freeIndex { slot with multiplicity, cap := some cap, capId, parentCapId } })
  | none =>
    (Handle.new (.ofNat t.slots.length) 0,
      { slots := t.slots ++ [{ generation := 0, multiplicity, cap := some cap, capId, parentCapId }] })

def insert (cap : Capability) : Handle × CapTable := t.grant cap .persistent 0 0

def insertWithId (cap : Capability) (capId parentCapId : Nat) : Handle × CapTable :=
  t.grant cap .persistent capId parentCapId

def insertOnce (cap : Capability) : Handle × CapTable := t.grant cap .once 0 0

def insertOnceWithId (cap : Capability) (capId parentCapId : Nat) : Handle × CapTable :=
  t.grant cap .once capId parentCapId

def freeAt (i : Nat) : CapTable := { slots := t.slots.modify i Slot.free }

def consume (h : Handle) : Bool × CapTable :=
  match t.slots[h.index.toNat]? with
  | none => (false, t)
  | some slot =>
    if slot.generation ≠ h.generation ∨ slot.cap = none then (false, t)
    else (true, t.freeAt h.index.toNat)

/-- Index of the first live slot holding `capId`, or the table's length. -/
def indexOfCapId (capId : Nat) : Nat :=
  t.slots.findIdx fun s => s.cap.isSome && s.capId == capId

def revokeByCapId (capId : Nat) : Option Capability × CapTable :=
  if capId = 0 then (none, t)
  else match t.slots[t.indexOfCapId capId]? with
    | none => (none, t)
    | some slot => (slot.cap, t.freeAt (t.indexOfCapId capId))

def childrenCapIds (parentCapId : Nat) : List Nat :=
  if parentCapId = 0 then []
  else (t.slots.filter fun s => s.cap.isSome && s.parentCapId == parentCapId).map (·.capId)

/-- The table a process is born with: the two bootstrap authorities, roots of the derivation tree. -/
def bootstrapWithIds (telemetryId spanId : Nat) : CapTable × Handle × Handle :=
  let (telemetry, t) := new.insertWithId ⟨.telemetrySink, .emit⟩ telemetryId 0
  let (span, t) := t.insertWithId ⟨.spanSink, .emit⟩ spanId 0
  (t, telemetry, span)

end CapTable

/-! ### Invocation

Every resolver checks in the same order: the handle, then the right, then the kind of object. -/

/-- The capability `h` names must carry `right` over an object `pick` recognises. -/
def invoke {α : Type} (right : Rights) (pick : Object → Option α) (t : CapTable) (h : Handle) :
    Except Denied α :=
  match t.resolve h with
  | .error _ => .error .noSuchCapability
  | .ok cap =>
    if cap.rights.contains right then
      match pick cap.object with
      | some a => .ok a
      | none => .error .wrongObject
    else .error .missingRight

def authorizeTelemetry : CapTable → Handle → Except Denied Unit :=
  invoke .emit fun | .telemetrySink => some () | _ => none

def authorizeAudio : CapTable → Handle → Except Denied Unit :=
  invoke .audio fun | .audioSink => some () | _ => none

def authorizeDisplay : CapTable → Handle → Except Denied Unit :=
  invoke .display fun | .displaySink => some () | _ => none

def invokeSpan : CapTable → Handle → Except Denied Unit :=
  invoke .emit fun | .spanSink => some () | _ => none

def invokeSend : CapTable → Handle → Except Denied (EndpointId × UInt64) :=
  invoke .send fun | .endpoint id badge => some (id, badge) | _ => none

def invokeRecv : CapTable → Handle → Except Denied EndpointId :=
  invoke .recv fun | .endpoint id _ => some id | _ => none

def invokeKill : CapTable → Handle → Except Denied TaskId :=
  invoke .kill fun | .process id => some id | _ => none

def invokeSignal : CapTable → Handle → Except Denied NotificationId :=
  invoke .signal fun | .notification id => some id | _ => none

def invokeWait : CapTable → Handle → Except Denied NotificationId :=
  invoke .wait fun | .notification id => some id | _ => none

/-- Holding a reply capability is the authority: `none` is the empty set of rights, which every
capability contains. -/
def invokeReply : CapTable → Handle → Except Denied (TaskId × CallNo) :=
  invoke .none fun | .reply caller call => some (caller, call) | _ => none

/-- Derive a badged capability for the endpoint `parent` names, with rights chosen freely. -/
def mintBadged (parent : Capability) (badge : UInt64) (rights : Rights) : Except Denied Capability :=
  if parent.rights.contains .mint then
    match parent.object with
    | .endpoint id _ => .ok ⟨.endpoint id badge, rights⟩
    | _ => .error .wrongObject
  else .error .missingRight

/-- Copy out one capability for delegation; a `once` grant is refused. -/
def delegateOne (t : CapTable) (h : Handle) : Except CapError Capability :=
  match t.multiplicityOf h with
  | .error e => .error e
  | .ok .once => .error .notDelegable
  | .ok .persistent => t.resolve h

/-- Copy out the capabilities `handles` name, all or nothing. -/
def delegate (t : CapTable) (handles : List Handle) : Except CapError (List Capability) :=
  handles.mapM (delegateOne t)

namespace CapTable

variable {t : CapTable}

/-! ### What the operations do to each slot -/

theorem lookup_eq_ok_iff : t.lookup h = .ok (s, cap) ↔
      t.slots[h.index.toNat]? = some s ∧ s.generation = h.generation ∧ s.cap = some cap := by
  unfold lookup
  split
  · next hnone => simp [hnone]
  next slot hslot =>
  rw [hslot]
  by_cases hg : slot.generation = h.generation
  · cases hc : slot.cap with
    | none =>
      simp only [hg, ne_eq, not_true_eq_false, if_false, reduceCtorEq, some.injEq, false_iff]
      rintro ⟨rfl, -, hs⟩
      rw [hc] at hs
      cases hs
    | some c =>
      simp only [hg, ne_eq, not_true_eq_false, if_false, Except.ok.injEq, Prod.mk.injEq, some.injEq]
      constructor
      · rintro ⟨rfl, rfl⟩
        exact ⟨rfl, hg, hc⟩
      · rintro ⟨rfl, -, hs⟩
        rw [hc] at hs
        exact ⟨rfl, some.inj hs⟩
  · simp only [ne_eq, hg, not_false_eq_true, if_true, reduceCtorEq, some.injEq, false_iff]
    rintro ⟨rfl, hs, -⟩
    exact hg hs

def landingGeneration (t : CapTable) : UInt32 :=
  match t.slots[t.freeIndex]? with
  | some slot => slot.generation
  | none => 0

theorem freeIndex_le_length (t : CapTable) : t.freeIndex ≤ t.slots.length :=
  findIdx_le_length

theorem cap_of_freeIndex (hs : t.slots[t.freeIndex]? = some s) : s.cap = none := by
  obtain ⟨hlt, rfl⟩ := List.getElem?_eq_some_iff.mp hs
  have hfree : t.slots[t.freeIndex].cap.isNone := findIdx_getElem (w := hlt)
  simpa using hfree

theorem live_of_lt_freeIndex (hj : j < t.freeIndex) : ∃ s, t.slots[j]? = some s ∧ s.cap.isSome := by
  have hlt : j < t.slots.length := lt_of_lt_of_le hj t.freeIndex_le_length
  refine ⟨t.slots[j], getElem?_eq_getElem hlt, ?_⟩
  have hlive := not_of_lt_findIdx hj
  simpa [isSome_iff_ne_none] using hlive

section Grant

variable (t : CapTable) (cap : Capability) (m : Multiplicity) (id par : Nat)

theorem grant_fst : (t.grant cap m id par).1 = Handle.new (.ofNat t.freeIndex) t.landingGeneration := by
  unfold grant landingGeneration
  split
  · rfl
  next hnone =>
  have hlen : t.freeIndex = t.slots.length :=
    le_antisymm t.freeIndex_le_length (getElem?_eq_none_iff.mp hnone)
  rw [hlen]

/-- A grant fills the slot at `freeIndex`, keeping its generation, and touches no other slot. -/
theorem getElem?_grant (j : Nat) : (t.grant cap m id par).2.slots[j]? =
      if j = t.freeIndex then some ⟨t.landingGeneration, m, some cap, id, par⟩ else t.slots[j]? := by
  unfold grant landingGeneration
  split
  · next slot hslot =>
    have hlt : t.freeIndex < t.slots.length := (List.getElem?_eq_some_iff.mp hslot).1
    by_cases hj : j = t.freeIndex
    · subst hj
      simp [hlt]
    · simp [hj, Ne.symm hj]
  · next hnone =>
    have hlen : t.freeIndex = t.slots.length :=
      le_antisymm t.freeIndex_le_length (getElem?_eq_none_iff.mp hnone)
    rw [hlen, getElem?_append]
    split
    · next hlt => rw [if_neg (Nat.ne_of_lt hlt)]
    next hge =>
    by_cases hj : j = t.slots.length
    · simp [hj]
    · rw [if_neg hj, getElem?_eq_none (by simp; omega), getElem?_eq_none (by omega)]

end Grant

theorem getElem?_freeAt (t : CapTable) (i j : Nat) :
    (t.freeAt i).slots[j]? = if j = i then t.slots[j]?.map Slot.free else t.slots[j]? := by
  rw [freeAt, getElem?_modify]
  by_cases hj : j = i
  · simp [hj]
  · simp [hj, Ne.symm hj]

/-! ### The live slots -/

def live (t : CapTable) : List Slot := t.slots.filter (·.cap.isSome)

theorem mem_live : s ∈ t.live ↔ s ∈ t.slots ∧ s.cap.isSome := by
  simp [live]

theorem live_grant_perm (t : CapTable) (cap : Capability) (m : Multiplicity) (id par : Nat) :
    ((t.grant cap m id par).2.live).Perm (⟨t.landingGeneration, m, some cap, id, par⟩ :: t.live) := by
  unfold grant landingGeneration live
  split
  · next slot hslot =>
    have hfree := cap_of_freeIndex hslot
    obtain ⟨hlt, hget⟩ := List.getElem?_eq_some_iff.mp hslot
    have hsplit : t.slots = t.slots.take t.freeIndex ++ slot :: t.slots.drop (t.freeIndex + 1) := by
      rw [← hget, cons_getElem_drop_succ, take_append_drop]
    rw [set_eq_take_append_cons_drop, if_pos hlt]
    conv_rhs => rw [hsplit]
    simp only [filter_append, filter_cons, hfree, isSome_some, isSome_none,
      if_true, Bool.false_eq_true, if_false]
    exact perm_middle
  · simp only [filter_append, filter_cons, isSome_some, if_true, filter_nil]
    exact perm_append_comm

theorem live_freeAt_perm (hi : t.slots[i]? = some s) (hs : s.cap.isSome) : t.live.Perm (s :: (t.freeAt i).live) := by
  obtain ⟨hlt, hget⟩ := List.getElem?_eq_some_iff.mp hi
  have hsplit : t.slots = t.slots.take i ++ s :: t.slots.drop (i + 1) := by
    rw [← hget, cons_getElem_drop_succ, take_append_drop]
  unfold live freeAt
  rw [modify_eq_take_cons_drop hlt, hget]
  conv_lhs => rw [hsplit]
  simp only [filter_append, filter_cons, hs, Slot.free_cap, isSome_none, if_true, Bool.false_eq_true, if_false]
  exact perm_middle

/-- `consume` frees the slot its handle names, and succeeds exactly when the handle resolves. -/
theorem consume_cases (t : CapTable) (h : Handle) :
    (∃ s cap, t.lookup h = .ok (s, cap) ∧ t.consume h = (true, t.freeAt h.index.toNat)) ∨
      ((∃ e, t.lookup h = .error e) ∧ t.consume h = (false, t)) := by
  unfold lookup consume
  split
  · exact .inr ⟨⟨_, rfl⟩, rfl⟩
  next slot hslot =>
  by_cases hg : slot.generation = h.generation
  · cases hc : slot.cap with
    | none => right; simp [hg]
    | some cap => left; simp [hg]
  · right; simp [hg]

/-- `revokeByCapId` frees the first live slot of that id, or finds none and does nothing. -/
theorem revokeByCapId_cases (t : CapTable) (id : Nat) :
    (∃ s cap, t.slots[t.indexOfCapId id]? = some s ∧ s.cap = some cap ∧ s.capId = id ∧ id ≠ 0 ∧
      t.revokeByCapId id = (some cap, t.freeAt (t.indexOfCapId id))) ∨
      ((id = 0 ∨ ∀ s ∈ t.slots, s.cap.isSome → s.capId ≠ id) ∧ t.revokeByCapId id = (none, t)) := by
  unfold revokeByCapId
  by_cases hid : id = 0
  · right; simp [hid]
  rw [if_neg hid]
  split
  · next hnone =>
    refine .inr ⟨.inr ?_, rfl⟩
    have hlen : t.indexOfCapId id = t.slots.length :=
      le_antisymm findIdx_le_length (getElem?_eq_none_iff.mp hnone)
    have hall := findIdx_eq_length.mp hlen
    intro s hs hlive heq
    have := hall s hs
    simp [hlive, heq] at this
  · next slot hslot =>
    obtain ⟨hlt, rfl⟩ := List.getElem?_eq_some_iff.mp hslot
    have hfound := findIdx_getElem (w := hlt)
    simp only [Bool.and_eq_true, beq_iff_eq] at hfound
    obtain ⟨cap, hcap⟩ := isSome_iff_exists.mp hfound.1
    exact .inl ⟨_, cap, hslot, hcap, hfound.2, hid, by rw [← hcap]; rfl⟩

end CapTable

end SnitchOs.Cap
