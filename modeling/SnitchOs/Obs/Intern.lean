import Mathlib.Algebra.Group.Nat.Defs
import SnitchOs.Lib.Log
import SnitchOs.Lib.Runs

/-!
# The intern table

Names in frames are interned: the first ones in a fixed array, for they come before there is a heap, the rest in a
vector behind it. An entry's position over both is its id, and a released entry leaves its slot empty. A frame
announces each new name with its id, and another kind declares an id to be a metric.

Most of the proof is about `slots`, the two regions as one list. Every function but `iter` reads the table through it;
`iter` numbers the array's entries after dropping the empty slots, and agrees with the others only while the array has
none.
-/

namespace SnitchOs.Obs

open Option List

abbrev StringId := BitVec 32

def inlineCap : Nat := 96

inductive MetricKind
  | counter
  | gauge
  | histogram
deriving DecidableEq

inductive Frame
  | stringRegister (id : StringId) (value : String)
  | metricRegister (nameId : StringId) (kind : MetricKind) (taskId : BitVec 32)
deriving DecidableEq

/-- A string and the address of its bytes. -/
structure Str where
  ptr : Nat
  chars : String
deriving DecidableEq

/-- The process an owned name belongs to is ghost state. -/
inductive InternName
  | static (s : Str)
  | owned (s : Str) (process : Nat)
deriving DecidableEq

namespace InternName

def asStr : InternName → Str
  | .static s => s
  | .owned s _ => s

def owner : InternName → Option Nat
  | .static _ => none
  | .owned _ process => some process

end InternName

structure InternEntry where
  name : InternName
  metricRegistered : Bool
deriving DecidableEq

namespace InternEntry

def chars (e : InternEntry) : String := e.name.asStr.chars

def owner (e : InternEntry) : Option Nat := e.name.owner

end InternEntry

/-- The vector is used once the array is full. -/
structure InternTable where
  /-- `inline[..inline_len]`. -/
  inline : List (Option InternEntry)
  overflow : List (Option InternEntry)
  inline_le : inline.length ≤ inlineCap
  full : overflow ≠ [] → inline.length = inlineCap

namespace InternTable

def new : InternTable := ⟨[], [], by decide, fun h => absurd rfl h⟩

variable (t : InternTable)

/-- Every live entry with its id, as the table walks them. The array's empty slots are dropped before its
entries are numbered, the vector's after. -/
def iter : List (StringId × InternEntry) :=
  ((t.inline.filterMap id).zipIdx.map fun e => (BitVec.ofNat 32 e.2, e.1)) ++
    t.overflow.zipIdx.filterMap fun e => e.1.map fun entry => (BitVec.ofNat 32 (inlineCap + e.2), entry)

def entry (id : Nat) : Option InternEntry :=
  if id < inlineCap then t.inline[id]?.join else t.overflow[id - inlineCap]?.join

/-- What is written through `entry_mut`. -/
def setSlot (id : Nat) (slot : Option InternEntry) : InternTable :=
  if id < inlineCap then
    { t with inline := t.inline.set id slot, inline_le := by simpa using t.inline_le, full := by simpa using t.full }
  else
    { t with overflow := t.overflow.set (id - inlineCap) slot, full := by simpa using t.full }

def push (e : InternEntry) : InternTable × StringId :=
  if h : t.inline.length < inlineCap then
    ({ t with
        inline := t.inline ++ [some e]
        inline_le := by rw [length_append]; exact h
        full := fun hne => absurd (t.full hne) (by omega) },
      BitVec.ofNat 32 t.inline.length)
  else
    ({ t with
        overflow := t.overflow ++ [some e]
        full := fun _ => Nat.le_antisymm t.inline_le (by omega) },
      BitVec.ofNat 32 (inlineCap + t.overflow.length))

/-- Whether an entry was freed. -/
def release (id : StringId) : InternTable × Bool :=
  (t.setSlot id.toNat none, (t.entry id.toNat).isSome)

/-- By the address of the name. -/
def lookupOrInsert (name : Str) : InternTable × StringId × Bool :=
  match t.iter.find? fun e => e.2.name.asStr.ptr == name.ptr with
  | some e => (t, e.1, false)
  | none =>
    let pushed := t.push ⟨.static name, false⟩
    (pushed.1, pushed.2, true)

def lookupByContent (name : String) : Option StringId :=
  (t.iter.find? fun e => e.2.chars == name).map (·.1)

/-! Each of these returns the frames it emits; `none` is a panic of an `expect`. -/

def registerOwned (name : Str) (process : Nat) : Option (InternTable × List Frame × StringId) := do
  let pushed := t.push ⟨.owned name process, false⟩
  let entry ← pushed.1.entry pushed.2.toNat
  some (pushed.1, [.stringRegister pushed.2 entry.chars], pushed.2)

def registerMetricOwned (name : Str) (kind : MetricKind) (taskId : BitVec 32) :
    Option (InternTable × List Frame × StringId) := do
  let pushed := t.push ⟨.owned name taskId.toNat, true⟩
  let entry ← pushed.1.entry pushed.2.toNat
  some (pushed.1, [.stringRegister pushed.2 entry.chars, .metricRegister pushed.2 kind taskId], pushed.2)

def registerOrLookup (name : Str) : InternTable × List Frame × StringId :=
  let found := t.lookupOrInsert name
  (found.1, if found.2.2 then [.stringRegister found.2.1 name.chars] else [], found.2.1)

def registerMetric (name : Str) (kind : MetricKind) (taskId : BitVec 32) :
    Option (InternTable × List Frame × StringId) := do
  let found := t.lookupOrInsert name
  let announced := if found.2.2 then [Frame.stringRegister found.2.1 name.chars] else []
  let entry ← found.1.entry found.2.1.toNat
  if entry.metricRegistered then some (found.1, announced, found.2.1)
  else
    some (found.1.setSlot found.2.1.toNat (some { entry with metricRegistered := true }),
      announced ++ [.metricRegister found.2.1 kind taskId], found.2.1)

end InternTable

/-! ### Calls -/

open InternTable

inductive Call
  | registerOrLookup (name : Str)
  | registerMetric (name : Str) (kind : MetricKind) (taskId : BitVec 32)
  | registerOwned (name : Str) (process : Nat)
  | registerMetricOwned (name : Str) (kind : MetricKind) (taskId : BitVec 32)
  | lookupByContent (name : String)
  | release (id : StringId)

structure Interner where
  table : InternTable
  frames : List Frame

namespace Interner

def new : Interner := ⟨.new, []⟩

variable (s : Interner)

/-- The state after a call, and the id it returns. -/
def apply : Call → Option (Interner × Option StringId)
  | .registerOrLookup name =>
    let r := s.table.registerOrLookup name
    some (⟨r.1, s.frames ++ r.2.1⟩, some r.2.2)
  | .registerMetric name kind taskId =>
    (s.table.registerMetric name kind taskId).map fun r => (⟨r.1, s.frames ++ r.2.1⟩, some r.2.2)
  | .registerOwned name process =>
    (s.table.registerOwned name process).map fun r => (⟨r.1, s.frames ++ r.2.1⟩, some r.2.2)
  | .registerMetricOwned name kind taskId =>
    (s.table.registerMetricOwned name kind taskId).map fun r => (⟨r.1, s.frames ++ r.2.1⟩, some r.2.2)
  | .lookupByContent name => some (s, s.table.lookupByContent name)
  | .release id => some ({ s with table := (s.table.release id).1 }, none)

def step (call : Call) : Option Interner := (s.apply call).map (·.1)

end Interner

/-! ### The two regions as one list -/

variable {e : InternEntry} {i : Nat} {name : Str}

namespace InternTable

variable {t : InternTable}

def slots (t : InternTable) : List (Option InternEntry) := t.inline ++ t.overflow

/-- No empty slot in the array. -/
def Solid (t : InternTable) : Prop := none ∉ t.inline

theorem overflow_cases (t : InternTable) : t.overflow = [] ∨ t.inline.length = inlineCap := by
  by_cases hnil : t.overflow = []
  · exact .inl hnil
  · exact .inr (t.full hnil)

theorem slot_eq (id : Nat) : t.slots[id]? = if id < inlineCap then t.inline[id]? else t.overflow[id - inlineCap]? := by
  have hle := t.inline_le
  rcases t.overflow_cases with hnil | hlen
  · rw [slots, hnil, append_nil]
    split
    · rfl
    · rw [getElem?_eq_none (by omega), getElem?_nil]
  · rw [slots, getElem?_append, hlen]

theorem entry_eq (id : Nat) : t.entry id = t.slots[id]?.join := by
  rw [slot_eq, entry]
  split <;> rfl

theorem entry_eq_some {id : Nat} : t.entry id = some e ↔ t.slots[id]? = some (some e) := by
  rw [entry_eq, join_eq_some_iff]

theorem slots_setSlot (id : Nat) (slot : Option InternEntry) : (t.setSlot id slot).slots = t.slots.set id slot := by
  have hle := t.inline_le
  unfold setSlot slots
  split
  · next hid =>
    by_cases hin : id < t.inline.length
    · exact (set_append_left _ _ hin).symm
    have hnil : t.overflow = [] := t.overflow_cases.resolve_right (by omega)
    dsimp only
    rw [hnil, append_nil, append_nil]
  · next hid =>
    rcases t.overflow_cases with hnil | hlen
    · dsimp only
      rw [hnil, set_nil, append_nil, set_eq_of_length_le (by omega)]
    · rw [set_append_right _ _ (by omega), hlen]

theorem push_eq (e : InternEntry) : (t.push e).1.slots = t.slots ++ [some e] ∧ (t.push e).2 = BitVec.ofNat 32 t.slots.length := by
  unfold push
  split
  · next hlt =>
    have hnil : t.overflow = [] := by
      by_contra hne
      have := t.full hne
      omega
    simp [slots, hnil]
  · next hge =>
    have hlen : t.inline.length = inlineCap := Nat.le_antisymm t.inline_le (by omega)
    simp [slots, hlen]

theorem map_some_filterMap {α : Type} {l : List (Option α)} (h : none ∉ l) : (l.filterMap id).map some = l := by
  induction l with
  | nil => rfl
  | cons a l ih =>
    cases a with
    | none => exact absurd mem_cons_self h
    | some a =>
      exact congrArg (some a :: ·) (ih fun hmem => h (mem_cons_of_mem _ hmem))

/-- With no empty slot in the array, the walk numbers every entry by its slot. -/
theorem mem_iter (h : t.Solid) {id : StringId} :
    (id, e) ∈ t.iter ↔ ∃ i, t.slots[i]? = some (some e) ∧ id = BitVec.ofNat 32 i := by
  have hinline : ∀ i : Nat, (t.inline.filterMap fun e => e)[i]? = some e ↔ t.inline[i]? = some (some e) := by
    intro i
    conv_rhs => rw [← map_some_filterMap h, List.getElem?_map]
    simp
  simp only [iter, List.mem_append, List.mem_map, List.mem_filterMap, List.mem_zipIdx_iff_getElem?, Prod.exists,
    map_eq_some_iff, Prod.mk.injEq]
  constructor
  · rintro (⟨e', i, hi, rfl, rfl⟩ | ⟨slot, j, hj, e', rfl, rfl, rfl⟩)
    · have hi' := (hinline i).mp hi
      refine ⟨i, ?_, rfl⟩
      rw [slots, List.getElem?_append_left (List.getElem?_eq_some_iff.mp hi').1, hi']
    · have hlen := t.full fun hnil => by simp [hnil] at hj
      refine ⟨inlineCap + j, ?_, rfl⟩
      rw [slots, List.getElem?_append_right (by omega), hlen, Nat.add_sub_cancel_left, hj]
  · rintro ⟨i, hi, rfl⟩
    rw [slot_eq] at hi
    split at hi
    · exact .inl ⟨e, i, (hinline i).mpr hi, rfl, rfl⟩
    · next hid => exact .inr ⟨some e, i - inlineCap, hi, e, rfl, by congr 1; omega, rfl⟩

theorem solid_push (h : t.Solid) (e : InternEntry) : (t.push e).1.Solid := by
  unfold push
  split
  · intro hmem
    rcases mem_append.mp hmem with hmem | hmem
    · exact h hmem
    · cases mem_singleton.mp hmem
  · exact h

theorem solid_setSlot (h : t.Solid) {id : Nat}
    (hslot : slot ≠ none ∨ inlineCap ≤ id ∨ t.entry id = none) : (t.setSlot id slot).Solid := by
  unfold setSlot
  split
  · next hid =>
    intro hmem
    rcases mem_or_eq_of_mem_set hmem with hold | hnew
    · exact h hold
    have hnone : t.inline[id]?.join = none := by
      rcases hslot with hslot | hslot | hslot
      · exact absurd hnew.symm hslot
      · omega
      · rwa [entry, if_pos hid] at hslot
    cases hget : t.inline[id]? with
    | none =>
      have hsame : t.inline.set id slot = t.inline :=
        set_eq_of_length_le (getElem?_eq_none_iff.mp hget)
      exact h (hsame ▸ hmem)
    | some e =>
      rw [hget, join_some] at hnone
      rw [hnone] at hget
      exact h (mem_of_getElem? hget)
  · exact h

end InternTable

/-! ### Frames -/

namespace Frame

/-- The id and the name that are announced. -/
def string? : Frame → Option (StringId × String)
  | .stringRegister id value => some (id, value)
  | .metricRegister .. => none

def declares (id : StringId) : Frame → Bool
  | .stringRegister .. => false
  | .metricRegister nameId _ _ => nameId == id

@[simp] theorem declares_string (id id' : StringId) (name : String) :
    declares id (.stringRegister id' name) = false := rfl

@[simp] theorem declares_metric (id id' : StringId) (kind : MetricKind) (taskId : BitVec 32) :
    declares id (.metricRegister id' kind taskId) = (id' == id) := rfl

end Frame

def announcements (frames : List Frame) : List (StringId × String) := frames.filterMap Frame.string?

@[simp] theorem announcements_nil : announcements [] = [] := rfl

@[simp] theorem announcements_append (a b : List Frame) :
    announcements (a ++ b) = announcements a ++ announcements b := filterMap_append

@[simp] theorem announcements_string (id : StringId) (name : String) (l : List Frame) :
    announcements (.stringRegister id name :: l) = (id, name) :: announcements l := rfl

@[simp] theorem announcements_metric (id : StringId) (kind : MetricKind) (taskId : BitVec 32) (l : List Frame) :
    announcements (.metricRegister id kind taskId :: l) = announcements l := rfl

/-- `id` is announced for `name`, and not declared before. -/
def Announced (frames : List Frame) (id : StringId) (name : String) : Prop :=
  ∃ pre post, frames = pre ++ .stringRegister id name :: post ∧ pre.countP (Frame.declares id) = 0

theorem mem_announcements {id : StringId} {name : String} :
    (id, name) ∈ announcements frames ↔ .stringRegister id name ∈ frames := by
  simp only [announcements, mem_filterMap]
  constructor
  · rintro ⟨f, hf, hstr⟩
    cases f <;> cases hstr
    exact hf
  · exact fun hf => ⟨_, hf, rfl⟩

/-- Every slot is announced once, in order, a live one for its name; a declaration comes after the
announcement and sets the flag; and an owner has a name once. -/
structure Inv (slots : List (Option InternEntry)) (frames : List Frame) : Prop where
  small : slots.length ≤ 2 ^ 32
  length : (announcements frames).length = slots.length
  id : ∀ (i : Nat) p, (announcements frames)[i]? = some p → p.1 = BitVec.ofNat 32 i
  name : ∀ (i : Nat) p e, (announcements frames)[i]? = some p → slots[i]? = some (some e) → e.chars = p.2
  after : Log.EachAfter (fun pre f => ∀ id, Frame.declares id f = true →
    ∃ name, .stringRegister id name ∈ pre) frames
  once : ∀ id, frames.countP (Frame.declares id) ≤ 1
  flag : ∀ (i : Nat) e, slots[i]? = some (some e) → e.metricRegistered = false →
    frames.countP (Frame.declares (BitVec.ofNat 32 i)) = 0
  distinct : ∀ (i j : Nat) e e', slots[i]? = some (some e) → slots[j]? = some (some e') →
    e.chars = e'.chars → e.owner = e'.owner → i = j

namespace Inv

variable {slots : List (Option InternEntry)} {frames : List Frame}

theorem empty : Inv [] [] where
  small := by simp
  length := rfl
  id i p h := by simp [announcements] at h
  name i p e h := by simp [announcements] at h
  after := .nil
  once id := by simp
  flag i e h := by simp at h
  distinct i j e e' h := by simp at h

variable (h : Inv slots frames)
include h

theorem toNat_of_lt (hi : i < slots.length) : (BitVec.ofNat 32 i).toNat = i := by
  have hsmall := h.small
  rw [BitVec.toNat_ofNat, Nat.mod_eq_of_lt (by omega)]

theorem announcement {id : StringId} {name : String}
    (hi : (announcements frames)[i]? = some (id, name)) : id.toNat = i ∧ i < slots.length := by
  have hlt := (List.getElem?_eq_some_iff.mp hi).1
  rw [h.length] at hlt
  have hid : id = BitVec.ofNat 32 i := h.id i _ hi
  rw [hid]
  exact ⟨h.toNat_of_lt hlt, hlt⟩

theorem unique {id : StringId} (hn : .stringRegister id n ∈ frames) (hn' : .stringRegister id n' ∈ frames) : n = n' := by
  obtain ⟨i, hi⟩ := mem_iff_getElem?.mp (mem_announcements.mpr hn)
  obtain ⟨j, hj⟩ := mem_iff_getElem?.mp (mem_announcements.mpr hn')
  obtain ⟨hidi, -⟩ := h.announcement hi
  obtain ⟨hidj, -⟩ := h.announcement hj
  rw [← hidi, hidj, hj] at hi
  cases hi
  rfl

theorem announced (hi : slots[i]? = some (some e)) : Announced frames (BitVec.ofNat 32 i) e.chars := by
  have hlt := (List.getElem?_eq_some_iff.mp hi).1
  obtain ⟨p, hp⟩ : ∃ p, (announcements frames)[i]? = some p :=
    ⟨_, List.getElem?_eq_getElem (by rw [h.length]; exact hlt)⟩
  obtain ⟨id, name⟩ := p
  have hid : id = BitVec.ofNat 32 i := h.id i _ hp
  have hname : e.chars = name := h.name i _ e hp hi
  obtain ⟨pre, post, hframes⟩ := List.append_of_mem (mem_announcements.mp (List.mem_of_getElem? hp))
  rw [← hid, hname]
  refine ⟨pre, post, hframes, ?_⟩
  by_contra hdeclared
  -- A declaration in `pre` has an announcement before it, which would stand at the same place.
  obtain ⟨f, hf, hfid⟩ := List.countP_pos_iff.mp (Nat.pos_of_ne_zero hdeclared)
  obtain ⟨pre₁, pre₂, rfl⟩ := List.append_of_mem hf
  obtain ⟨name', hname'⟩ := h.after pre₁ f (pre₂ ++ .stringRegister id name :: post) (by rw [hframes]; simp) id hfid
  obtain ⟨j, hj⟩ := List.mem_iff_getElem?.mp (mem_announcements.mpr hname')
  have hjlt := (List.getElem?_eq_some_iff.mp hj).1
  have hk : (announcements frames)[(announcements (pre₁ ++ f :: pre₂)).length]? = some (id, name) := by
    rw [hframes, announcements_append, List.getElem?_append_right (Nat.le_refl _), Nat.sub_self]
    rfl
  have hj' : (announcements frames)[j]? = some (id, name') := by
    rw [hframes, List.append_assoc, announcements_append, List.getElem?_append_left hjlt, hj]
  have hplace := (h.announcement hk).1
  have hplace' := (h.announcement hj').1
  rw [announcements_append, List.length_append] at hplace
  omega

theorem countP_eq_zero (hi : slots.length ≤ i) (hlt : i < 2 ^ 32) : frames.countP (Frame.declares (BitVec.ofNat 32 i)) = 0 := by
  rw [List.countP_eq_zero]
  intro f hf hdeclares
  obtain ⟨pre, post, rfl⟩ := List.append_of_mem hf
  obtain ⟨name, hname⟩ := h.after pre f post rfl _ hdeclares
  obtain ⟨j, hj⟩ := List.mem_iff_getElem?.mp (mem_announcements.mpr (List.mem_append_left (f :: post) hname))
  obtain ⟨hid, hjlt⟩ := h.announcement hj
  rw [BitVec.toNat_ofNat, Nat.mod_eq_of_lt hlt] at hid
  omega

/-! ### What a call does to the slots -/

theorem fresh (hlt : slots.length < 2 ^ 32) (hnew : ∀ e', some e' ∈ slots → ¬ (e'.owner = e.owner ∧ e'.chars = e.chars)) :
    Inv (slots ++ [some e]) (frames ++ [Frame.stringRegister (BitVec.ofNat 32 slots.length) e.chars]) where
  small := by rw [length_append]; exact hlt
  length := by simp [h.length]
  id i p hp := by
    simp only [announcements_append, announcements_string, announcements_nil, Log.getElem?_concat] at hp
    split at hp
    · next hi =>
      cases hp
      rw [hi, h.length]
    · exact h.id i p hp
  name i p e' hp hi := by
    simp only [announcements_append, announcements_string, announcements_nil, Log.getElem?_concat, h.length] at hp hi
    split at hp
    · next heq =>
      rw [if_pos heq] at hi
      cases hp
      cases hi
      rfl
    · next hne =>
      rw [if_neg hne] at hi
      exact h.name i p e' hp hi
  after := h.after.concat fun id hid => by cases hid
  once id := by simpa [countP_append] using h.once id
  flag i e' hi hno := by
    have hfresh := h.countP_eq_zero (Nat.le_refl _) hlt
    rw [Log.getElem?_concat] at hi
    split at hi
    · next heq => simpa [heq] using hfresh
    · simpa using h.flag i e' hi hno
  distinct i j e₁ e₂ hi hj hchars howner := by
    rw [Log.getElem?_concat] at hi hj
    split at hi
    · next hieq =>
      cases hi
      split at hj
      · next hjeq => rw [hieq, hjeq]
      · exact absurd ⟨howner.symm, hchars.symm⟩ (hnew e₂ (mem_of_getElem? hj))
    · split at hj
      · cases hj
        exact absurd ⟨howner, hchars⟩ (hnew e₁ (mem_of_getElem? hi))
      · exact h.distinct i j e₁ e₂ hi hj hchars howner

theorem declare (hi : slots[i]? = some (some e)) (hflag : e.metricRegistered = false)
    (kind : MetricKind) (taskId : BitVec 32) : Inv (slots.set i (some { e with metricRegistered := true }))
      (frames ++ [Frame.metricRegister (BitVec.ofNat 32 i) kind taskId]) := by
  have hilt := (List.getElem?_eq_some_iff.mp hi).1
  -- The changed slot has the name and the owner it had.
  have hslot : ∀ (j : Nat) e', (slots.set i (some { e with metricRegistered := true }))[j]? = some (some e') →
      ∃ e₀, slots[j]? = some (some e₀) ∧ e₀.chars = e'.chars ∧ e₀.owner = e'.owner ∧
        (e'.metricRegistered = false → i ≠ j ∧ e₀ = e') := by
    intro j e' hj
    rw [List.getElem?_set, if_pos hilt] at hj
    split at hj
    · next heq =>
      subst heq
      cases hj
      exact ⟨e, hi, rfl, rfl, by rintro ⟨⟩⟩
    · next hne => exact ⟨e', hj, rfl, rfl, fun _ => ⟨hne, rfl⟩⟩
  refine ⟨by simpa using h.small, by simp [h.length], ?_, ?_, ?_, ?_, ?_, ?_⟩
  · simpa using h.id
  · intro j p e' hp hj
    obtain ⟨e₀, hj₀, hchars, -⟩ := hslot j e' hj
    rw [← hchars]
    exact h.name j p e₀ (by simpa using hp) hj₀
  · refine h.after.concat fun id hid => ?_
    rw [Frame.declares_metric, beq_iff_eq] at hid
    subst hid
    obtain ⟨pre, post, hframes, -⟩ := h.announced hi
    exact ⟨e.chars, by rw [hframes]; simp⟩
  · intro id
    rw [List.countP_append, List.countP_singleton, Frame.declares_metric]
    split
    · next heq =>
      rw [beq_iff_eq] at heq
      have hnone := h.flag i e hi hflag
      rw [← heq]
      omega
    · exact h.once id
  · intro j e' hj hno
    obtain ⟨e₀, hj₀, -, -, hsame⟩ := hslot j e' hj
    obtain ⟨hne, rfl⟩ := hsame hno
    have hjlt := (List.getElem?_eq_some_iff.mp hj₀).1
    have hids : (BitVec.ofNat 32 i == BitVec.ofNat 32 j) = false := by
      refine beq_eq_false_iff_ne.mpr fun heq => hne ?_
      rw [← h.toNat_of_lt hilt, heq, h.toNat_of_lt hjlt]
    rw [List.countP_append, List.countP_singleton, Frame.declares_metric, hids, h.flag j _ hj₀ hno]
    rfl
  · intro j k e₁ e₂ hj hk hchars howner
    obtain ⟨e₁', hj', hc₁, ho₁, -⟩ := hslot j e₁ hj
    obtain ⟨e₂', hk', hc₂, ho₂, -⟩ := hslot k e₂ hk
    exact h.distinct j k e₁' e₂' hj' hk' (by rw [hc₁, hc₂, hchars]) (by rw [ho₁, ho₂, howner])

theorem release (i : Nat) : Inv (slots.set i none) frames := by
  have hslot : ∀ (j : Nat) e, (slots.set i none)[j]? = some (some e) → slots[j]? = some (some e) := by
    intro j e hj
    rw [getElem?_set] at hj
    split at hj
    · split at hj <;> cases hj
    · exact hj
  exact ⟨by simpa using h.small, by simpa using h.length, h.id, fun j p e hp hj => h.name j p e hp (hslot j e hj),
    h.after, h.once, fun j e hj => h.flag j e (hslot j e hj),
    fun j k e e' hj hk => h.distinct j k e e' (hslot j e hj) (hslot k e' hk)⟩

end Inv

/-! ### Calls that keep the invariant -/

namespace Call

/-- The name an id is asked for. -/
def name? : Call → Option String
  | .registerOrLookup name | .registerMetric name _ _ | .registerOwned name _ | .registerMetricOwned name _ _ =>
    some name.chars
  | .lookupByContent name => some name
  | .release _ => none

/-- Whether the call is for the name of `e`, and comes from its owner; a lookup by content has none. -/
def Seeks (e : InternEntry) : Call → Prop
  | .registerOrLookup name | .registerMetric name _ _ => e.owner = none ∧ e.chars = name.chars
  | .registerOwned name process => e.owner = some process ∧ e.chars = name.chars
  | .registerMetricOwned name _ taskId => e.owner = some taskId.toNat ∧ e.chars = name.chars
  | .lookupByContent name => e.chars = name
  | .release _ => False

end Call

namespace Interner

/-- There is an id left for a new name. A static name lies where the kernel's live entry for the same
characters lies, and no other does; a process does not register a name again that it has; a name looked up
by its characters has one owner; and no entry of the array is released. -/
def Fits (s : Interner) : Call → Prop
  | .registerOrLookup name | .registerMetric name _ _ => s.table.slots.length < 2 ^ 32 ∧
    ∀ e, some e ∈ s.table.slots → (e.name.asStr.ptr = name.ptr ↔ e.owner = none ∧ e.chars = name.chars)
  | .registerOwned name process => s.table.slots.length < 2 ^ 32 ∧
    ∀ e, some e ∈ s.table.slots → ¬ (e.owner = some process ∧ e.chars = name.chars)
  | .registerMetricOwned name _ taskId => s.table.slots.length < 2 ^ 32 ∧
    ∀ e, some e ∈ s.table.slots → ¬ (e.owner = some taskId.toNat ∧ e.chars = name.chars)
  | .lookupByContent name => ∀ e e', some e ∈ s.table.slots → some e' ∈ s.table.slots →
    e.chars = name → e'.chars = name → e.owner = e'.owner
  | .release id => inlineCap ≤ id.toNat ∨ s.table.entry id.toNat = none

/-- What a call leaves behind and answers. -/
structure Sound (s : Interner) (call : Call) (s' : Interner) (r : Option StringId) : Prop where
  solid : s'.table.Solid
  inv : Inv s'.table.slots s'.frames
  /-- The id is announced for the name, before it is declared. -/
  named : ∀ id name, r = some id → call.name? = some name → Announced s'.frames id name
  /-- A live entry is found again, and not announced again. -/
  same : ∀ i e, s.table.entry i = some e → call.Seeks e →
    r = some (BitVec.ofNat 32 i) ∧ announcements s'.frames = announcements s.frames

variable {s : Interner} {s' : Interner} {call : Call}

theorem lookupOrInsert_cases {t : InternTable} (hsolid : t.Solid)
    (hfits : ∀ e, some e ∈ t.slots → (e.name.asStr.ptr = name.ptr ↔ e.owner = none ∧ e.chars = name.chars)) :
    (∃ i e, t.slots[i]? = some (some e) ∧ e.owner = none ∧ e.chars = name.chars ∧
      t.lookupOrInsert name = (t, BitVec.ofNat 32 i, false)) ∨
    ((∀ e, some e ∈ t.slots → ¬ (e.owner = none ∧ e.chars = name.chars)) ∧
      t.lookupOrInsert name = ((t.push ⟨.static name, false⟩).1, BitVec.ofNat 32 t.slots.length, true)) := by
  unfold lookupOrInsert
  cases hfind : t.iter.find? (fun e => e.2.name.asStr.ptr == name.ptr) with
  | some p =>
    obtain ⟨i, hi, hid⟩ := (mem_iter hsolid).mp (mem_of_find?_eq_some hfind)
    have hptr : p.2.name.asStr.ptr = name.ptr := by simpa using find?_some hfind
    obtain ⟨howner, hchars⟩ := (hfits p.2 (mem_of_getElem? hi)).mp hptr
    exact .inl ⟨i, p.2, hi, howner, hchars, by simp only [hid]⟩
  | none =>
    refine .inr ⟨fun e he hseek => ?_, by simp only [(push_eq _).2]⟩
    obtain ⟨i, hi⟩ := mem_iff_getElem?.mp he
    have hmem := (mem_iter hsolid).mpr ⟨i, hi, rfl⟩
    exact find?_eq_none.mp hfind _ hmem (by simpa using (hfits e he).mpr hseek)

theorem sound_found (hsolid : s'.table.Solid) (hinv : Inv s.table.slots s.frames)
    (hinv' : Inv s'.table.slots s'.frames) (hi : s.table.slots[i]? = some (some e))
    (hi' : s'.table.slots[i]? = some (some e')) (hname : ∀ name, call.name? = some name → e'.chars = name)
    (hseeks : ∀ (j : Nat) d, s.table.slots[j]? = some (some d) → call.Seeks d → e.chars = d.chars ∧ e.owner = d.owner)
    (hsame : announcements s'.frames = announcements s.frames) : s.Sound call s' (some (BitVec.ofNat 32 i)) := by
  refine ⟨hsolid, hinv', ?_, fun j d hj hseek => ⟨?_, hsame⟩⟩
  · rintro id name ⟨⟩ hcall
    rw [← hname name hcall]
    exact hinv'.announced hi'
  · have hj := entry_eq_some.mp hj
    obtain ⟨hchars, howner⟩ := hseeks j d hj hseek
    rw [hinv.distinct i j e d hi hj hchars howner]

theorem sound_fresh (hsolid : s'.table.Solid) (hinv' : Inv s'.table.slots s'.frames)
    (hi' : s'.table.slots[i]? = some (some e')) (hname : ∀ name, call.name? = some name → e'.chars = name)
    (hnew : ∀ d, some d ∈ s.table.slots → ¬ call.Seeks d) : s.Sound call s' (some (BitVec.ofNat 32 i)) := by
  refine ⟨hsolid, hinv', ?_, fun j d hj hseek => ?_⟩
  · rintro id name ⟨⟩ hcall
    rw [← hname name hcall]
    exact hinv'.announced hi'
  · exact absurd hseek (hnew d (mem_of_getElem? (entry_eq_some.mp hj)))

section Calls

variable (hsolid : s.table.Solid) (hinv : Inv s.table.slots s.frames)

include hsolid hinv

theorem pushed (e : InternEntry) (hlt : s.table.slots.length < 2 ^ 32)
    (hnew : ∀ e', some e' ∈ s.table.slots → ¬ (e'.owner = e.owner ∧ e'.chars = e.chars)) : (s.table.push e).1.Solid ∧
      Inv (s.table.push e).1.slots (s.frames ++ [Frame.stringRegister (BitVec.ofNat 32 s.table.slots.length) e.chars]) ∧
      (s.table.push e).1.slots[s.table.slots.length]? = some (some e) ∧
      (s.table.push e).1.entry (BitVec.ofNat 32 s.table.slots.length).toNat = some e := by
  have hslots := (push_eq (t := s.table) e).1
  have hat : (s.table.push e).1.slots[s.table.slots.length]? = some (some e) := by
    rw [hslots]
    exact List.getElem?_concat_length
  have hinv' := hinv.fresh hlt hnew
  rw [← hslots] at hinv'
  refine ⟨solid_push hsolid e, hinv', hat, entry_eq_some.mpr ?_⟩
  rwa [hinv'.toNat_of_lt (List.getElem?_eq_some_iff.mp hat).1]

theorem sound_registerOrLookup (hfits : s.Fits (.registerOrLookup name)) :
    ∃ s' r, s.apply (.registerOrLookup name) = some (s', r) ∧ s.Sound (.registerOrLookup name) s' r := by
  refine ⟨_, _, rfl, ?_⟩
  unfold InternTable.registerOrLookup
  rcases lookupOrInsert_cases hsolid hfits.2 with ⟨i, e, hi, howner, hchars, heq⟩ | ⟨hnew, heq⟩
  · simp only [heq, Bool.false_eq_true, if_false, append_nil]
    exact sound_found hsolid hinv hinv hi hi (fun n hn => by cases hn; exact hchars)
      (fun j d _ hseek => ⟨hchars.trans hseek.2.symm, howner.trans hseek.1.symm⟩) rfl
  · obtain ⟨hsolid', hinv', hi', -⟩ := pushed hsolid hinv ⟨.static name, false⟩ hfits.1 hnew
    simp only [heq, if_true]
    exact sound_fresh hsolid' hinv' hi' (fun n hn => by cases hn; rfl) hnew

theorem inv_declared (hi : s.table.slots[i]? = some (some e)) (kind : MetricKind) (taskId : BitVec 32)
    (hflag : e.metricRegistered = false) : (s.table.setSlot i (some { e with metricRegistered := true })).Solid ∧
      Inv (s.table.setSlot i (some { e with metricRegistered := true })).slots
        (s.frames ++ [Frame.metricRegister (BitVec.ofNat 32 i) kind taskId]) ∧
      (s.table.setSlot i (some { e with metricRegistered := true })).slots[i]?
        = some (some { e with metricRegistered := true }) := by
  refine ⟨solid_setSlot hsolid (.inl (by simp)), ?_, ?_⟩
  · rw [slots_setSlot]
    exact hinv.declare hi hflag kind taskId
  · rw [slots_setSlot]
    exact List.getElem?_set_self (List.getElem?_eq_some_iff.mp hi).1

theorem sound_registerMetric (hfits : s.Fits (.registerMetric name kind taskId)) :
    ∃ s' r, s.apply (.registerMetric name kind taskId) = some (s', r) ∧ s.Sound (.registerMetric name kind taskId) s' r := by
  rcases lookupOrInsert_cases hsolid hfits.2 with ⟨i, e, hi, howner, hchars, heq⟩ | ⟨hnew, heq⟩
  · have hlt := (List.getElem?_eq_some_iff.mp hi).1
    have hentry := entry_eq_some.mpr hi
    have hfound : ∀ {s' : Interner} {e' : InternEntry}, s'.table.Solid → Inv s'.table.slots s'.frames →
        s'.table.slots[i]? = some (some e') → e'.chars = e.chars →
        announcements s'.frames = announcements s.frames →
        s.Sound (.registerMetric name kind taskId) s' (some (BitVec.ofNat 32 i)) := by
      intro s' e' hsolid' hinv' hi' hchars' hsame
      exact sound_found hsolid' hinv hinv' hi hi' (fun n hn => by cases hn; exact hchars'.trans hchars)
        (fun j d _ hseek => ⟨hchars.trans hseek.2.symm, howner.trans hseek.1.symm⟩) hsame
    simp only [apply, InternTable.registerMetric, heq, hinv.toNat_of_lt hlt, hentry, bind_eq_bind, bind_some]
    cases hflag : e.metricRegistered with
    | true => exact ⟨_, _, rfl, hfound hsolid (by simpa using hinv) hi rfl (by simp)⟩
    | false =>
      obtain ⟨hsolid', hinv', hi'⟩ := inv_declared hsolid hinv hi kind taskId hflag
      exact ⟨_, _, rfl, hfound hsolid' (by simpa using hinv') hi' rfl (by simp)⟩
  · obtain ⟨hsolid₁, hinv₁, hi₁, hentry⟩ := pushed hsolid hinv ⟨.static name, false⟩ hfits.1 hnew
    obtain ⟨hsolid', hinv', hi'⟩ := inv_declared (s := ⟨_, _⟩) hsolid₁ hinv₁ hi₁ kind taskId rfl
    have hid := hinv₁.toNat_of_lt (List.getElem?_eq_some_iff.mp hi₁).1
    simp only [apply, InternTable.registerMetric, heq, hentry, bind_eq_bind, bind_some]
    rw [hid]
    rw [List.append_assoc] at hinv'
    exact ⟨_, _, rfl, sound_fresh hsolid' hinv' hi' (fun n hn => by cases hn; rfl) hnew⟩

theorem sound_registerOwned (hfits : s.Fits (.registerOwned name process)) :
    ∃ s' r, s.apply (.registerOwned name process) = some (s', r) ∧ s.Sound (.registerOwned name process) s' r := by
  obtain ⟨hsolid', hinv', hi', hentry⟩ := pushed hsolid hinv ⟨.owned name process, false⟩ hfits.1 hfits.2
  simp only [apply, InternTable.registerOwned, (push_eq _).2, hentry, bind_eq_bind, bind_some]
  exact ⟨_, _, rfl, sound_fresh hsolid' hinv' hi' (fun n hn => by cases hn; rfl) hfits.2⟩

theorem sound_registerMetricOwned (hfits : s.Fits (.registerMetricOwned name kind taskId)) :
    ∃ s' r, s.apply (.registerMetricOwned name kind taskId) = some (s', r) ∧
      s.Sound (.registerMetricOwned name kind taskId) s' r := by
  obtain ⟨hsolid', -, hi', hentry⟩ := pushed hsolid hinv ⟨.owned name taskId.toNat, true⟩ hfits.1 hfits.2
  -- The frames are those of a new entry that is then declared.
  have hinv' : Inv (s.table.push ⟨.owned name taskId.toNat, true⟩).1.slots (s.frames ++
      [Frame.stringRegister (BitVec.ofNat 32 s.table.slots.length) name.chars,
        .metricRegister (BitVec.ofNat 32 s.table.slots.length) kind taskId]) := by
    have hfresh := hinv.fresh (e := ⟨.owned name taskId.toNat, false⟩) hfits.1 hfits.2
    have hdeclared := hfresh.declare getElem?_concat_length rfl kind taskId
    rw [set_append_right _ _ (Nat.le_refl _), Nat.sub_self, append_assoc] at hdeclared
    rw [(push_eq _).1]
    exact hdeclared
  simp only [apply, InternTable.registerMetricOwned, (push_eq _).2, hentry, bind_eq_bind, bind_some]
  exact ⟨_, _, rfl, sound_fresh hsolid' hinv' hi' (fun n hn => by cases hn; rfl) hfits.2⟩

theorem sound_lookupByContent {name : String} (hfits : s.Fits (.lookupByContent name)) :
    ∃ s' r, s.apply (.lookupByContent name) = some (s', r) ∧ s.Sound (.lookupByContent name) s' r := by
  refine ⟨_, _, rfl, ?_⟩
  unfold InternTable.lookupByContent
  cases hfind : s.table.iter.find? (fun e => e.2.chars == name) with
  | some p =>
    obtain ⟨i, hi, hid⟩ := (mem_iter hsolid).mp (mem_of_find?_eq_some hfind)
    have hchars : p.2.chars = name := by simpa using find?_some hfind
    rw [map_some, hid]
    refine sound_found hsolid hinv hinv hi hi (fun n hn => by cases hn; exact hchars) (fun j d hj hseek => ?_) rfl
    exact ⟨hchars.trans hseek.symm, hfits _ _ (mem_of_getElem? hi) (mem_of_getElem? hj) hchars hseek⟩
  | none =>
    refine ⟨hsolid, hinv, by rintro id n ⟨⟩, fun i e hi hseek => ?_⟩
    have hmem := (mem_iter hsolid).mpr ⟨i, entry_eq_some.mp hi, rfl⟩
    have hchars : e.chars = name := hseek
    exact absurd (beq_iff_eq.mpr hchars) (find?_eq_none.mp hfind _ hmem)

theorem sound_release {id : StringId} (hfits : s.Fits (.release id)) :
    ∃ s' r, s.apply (.release id) = some (s', r) ∧ s.Sound (.release id) s' r := by
  refine ⟨_, _, rfl, solid_setSlot hsolid (.inr hfits), ?_, by rintro id n ⟨⟩, by rintro i e hi ⟨⟩⟩
  show Inv (s.table.setSlot id.toNat none).slots s.frames
  rw [slots_setSlot]
  exact hinv.release id.toNat

theorem apply_sound (hfits : s.Fits call) : ∃ s' r, s.apply call = some (s', r) ∧ s.Sound call s' r := by
  cases call with
  | registerOrLookup name => exact sound_registerOrLookup hsolid hinv hfits
  | registerMetric name kind taskId => exact sound_registerMetric hsolid hinv hfits
  | registerOwned name process => exact sound_registerOwned hsolid hinv hfits
  | registerMetricOwned name kind taskId => exact sound_registerMetricOwned hsolid hinv hfits
  | lookupByContent name => exact sound_lookupByContent hsolid hinv hfits
  | release id => exact sound_release hsolid hinv hfits

end Calls

/-- The table numbers its names as they were announced, in every state that calls which fit lead to. -/
theorem inv_of_reaches (hrun : Runs.Reaches step Fits new s) : s.table.Solid ∧ Inv s.table.slots s.frames := by
  refine hrun.invariant (I := fun s => s.table.Solid ∧ Inv s.table.slots s.frames)
    ⟨by simp [new, InternTable.new, Solid], Inv.empty⟩ fun s call s' hs hfits hstep => ?_
  obtain ⟨s₁, r, happly, hsound⟩ := apply_sound hs.1 hs.2 hfits
  rw [step, happly] at hstep
  cases hstep
  exact ⟨hsound.solid, hsound.inv⟩

/-- After any calls that fit, a further one that fits does not panic; an id it returns is announced for the
name, before it is declared; a live entry of the name and the owner is found again and not announced again;
an id is declared at most once; and no id is ever announced for two names. -/
theorem interner_never_misnames {s : Interner} {call : Call} (hrun : Runs.Reaches step Fits new s)
    (hfits : s.Fits call) :
    ∃ s' r, s.apply call = some (s', r) ∧
      (∀ id name, r = some id → call.name? = some name → Announced s'.frames id name) ∧
      (∀ i e, s.table.entry i = some e → call.Seeks e →
        r = some (BitVec.ofNat 32 i) ∧ announcements s'.frames = announcements s.frames) ∧
      (∀ id, s'.frames.countP (Frame.declares id) ≤ 1) ∧
      ∀ id name name', .stringRegister id name ∈ s'.frames → .stringRegister id name' ∈ s'.frames →
        name = name' := by
  obtain ⟨hsolid, hinv⟩ := inv_of_reaches hrun
  obtain ⟨s', r, happly, hsound⟩ := apply_sound hsolid hinv hfits
  exact ⟨s', r, happly, hsound.named, hsound.same, hsound.inv.once,
    fun id name name' hname hname' => hsound.inv.unique hname hname'⟩

def onlyA : Interner := ⟨(InternTable.new.push ⟨.static ⟨1, "a"⟩, false⟩).1, [.stringRegister 0 "a"]⟩

/-- The kernel asks for a name again. -/
theorem interner_never_misnames_again :
    ∃ s', onlyA.apply (.registerMetric ⟨1, "a"⟩ .gauge 0) = some (s', some 0) ∧
      s'.frames.countP (Frame.declares 0) ≤ 1 := by
  have hnew : new.Fits (.registerOrLookup ⟨1, "a"⟩) := by
    refine ⟨by decide, fun e he => ?_⟩
    simp [new, InternTable.new, slots] at he
  have hfits : onlyA.Fits (.registerMetric ⟨1, "a"⟩ .gauge 0) := by
    refine ⟨by decide, fun e he => ?_⟩
    cases mem_singleton.mp he
    decide
  have hrun : Runs.Reaches step Fits new onlyA := .single ⟨.registerOrLookup ⟨1, "a"⟩, hnew, rfl⟩
  obtain ⟨s', r, happly, -, hsame, honce, -⟩ := interner_never_misnames hrun hfits
  obtain ⟨rfl, -⟩ := hsame 0 _ rfl ⟨rfl, rfl⟩
  exact ⟨s', happly, honce 0⟩

/-- Once a name of the array is released, the names behind it are found under the wrong id. -/
theorem misnamed_after_release :
    ∃ s s', Runs.exec step new [.registerOrLookup ⟨1, "a"⟩, .registerOrLookup ⟨2, "b"⟩, .release 0] = some s ∧
      s.apply (.registerOrLookup ⟨2, "b"⟩) = some (s', some 0) ∧
      s'.frames = [.stringRegister 0 "a", .stringRegister 1 "b"] :=
  ⟨_, _, rfl, rfl, rfl⟩

end Interner

end SnitchOs.Obs
