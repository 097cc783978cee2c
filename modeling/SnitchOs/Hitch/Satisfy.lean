import SnitchOs.Cap.Table
import SnitchOs.Hitch.Manifest

/-!
# Satisfying the needs of a program

For each slot of a manifest `satisfy` plans a grant from the first capability held that covers it. A better one may
stand further back: one that has exactly the rights and need not be minted from, or one that may be minted from at all.
-/

namespace SnitchOs.Hitch

open Cap List

structure CapView where
  object : UInt8
  rights : UInt32
  handle : UInt32

inductive Grant
  | use (handle : UInt32)
  | mint (source rights : UInt32)
deriving DecidableEq

structure Unsatisfied where
  slot : Nat
deriving DecidableEq

namespace CapView

variable (c : CapView) (slot : Slot)

/-- Of the kind of the slot, with its rights at least. -/
def covers : Bool := c.object == slot.object && c.rights &&& slot.rights == slot.rights

def grant : Grant := if c.rights = slot.rights then .use c.handle else .mint c.handle slot.rights

def Exact : Prop := c.object = slot.object ∧ c.rights = slot.rights

/-- An endpoint that carries `MINT`. -/
def Mints : Prop := c.object = 2 ∧ c.rights &&& 0b1000 = 0b1000

end CapView

/-- With the index of the next slot, and the plan so far. -/
def satisfyFrom (held : List CapView) : Nat → List Slot → List Grant → Except Unsatisfied (List Grant)
  | _, [], plan => .ok plan
  | i, slot :: needs, plan =>
    match held.find? (·.covers slot) with
    | some c => satisfyFrom held (i + 1) needs (plan ++ [c.grant slot])
    | none => .error ⟨i⟩

def satisfy (needs : List Slot) (held : List CapView) : Except Unsatisfied (List Grant) := satisfyFrom held 0 needs []

/-- The kinds of objects, as a program sees them. -/
def objectKind : Object → UInt8
  | .telemetrySink => 0
  | .spanSink => 1
  | .endpoint _ _ => 2
  | .reply _ _ => 3
  | .notification _ => 4
  | .process _ => 5
  | .audioSink => 6
  | .displaySink => 7

/-- The kernel mints from just these. -/
theorem mints_iff (cap : Capability) (handle : UInt32) (badge : UInt64) (rights : Rights) :
    CapView.Mints ⟨objectKind cap.object, cap.rights.bits, handle⟩ ↔ ∃ child, mintBadged cap badge rights = .ok child := by
  have hmint : cap.rights.contains .mint = true ↔ cap.rights.bits &&& 0b1000 = 0b1000 := beq_iff_eq
  rw [CapView.Mints, mintBadged, ← hmint]
  cases cap.rights.contains .mint <;> cases cap.object <;> simp [objectKind]

/-! ### Plans -/

section

variable (held : List CapView) (slot : Slot)

/-- A capability held, of the kind of the slot, and the rights of the slot. -/
def Conveys : Grant → Prop
  | .use handle => ∃ c ∈ held, c.handle = handle ∧ c.Exact slot
  | .mint source rights => rights = slot.rights ∧ ∃ c ∈ held, c.handle = source ∧ c.object = slot.object

/-- What is held with exactly the rights is used, and what cannot be minted from is not minted from, if there is
another way to grant the slot. -/
def Least (grant : Grant) : Prop :=
  ((∃ e ∈ held, e.Exact slot) → ∃ c ∈ held, c.Exact slot ∧ grant = .use c.handle) ∧
  ∀ source rights, grant = .mint source rights → (∃ e ∈ held, e.covers slot = true ∧ (e.Exact slot ∨ e.Mints)) →
    ∃ c ∈ held, c.handle = source ∧ c.Mints

/-- The first capability that covers the slot is as good as any behind it. -/
def FirstBest : Prop := ∀ c, held.find? (·.covers slot) = some c → ¬ c.Exact slot →
  (∀ e ∈ held, ¬ e.Exact slot) ∧ ((∃ e ∈ held, e.covers slot = true ∧ e.Mints) → c.Mints)

end

variable {held : List CapView} {slot : Slot} {c : CapView}

theorem object_of_find (h : held.find? (·.covers slot) = some c) : c ∈ held ∧ c.object = slot.object := by
  have hcovers := find?_some h
  rw [CapView.covers, Bool.and_eq_true, beq_iff_eq] at hcovers
  exact ⟨mem_of_find?_eq_some h, hcovers.1⟩

theorem conveys_grant (h : held.find? (·.covers slot) = some c) : Conveys held slot (c.grant slot) := by
  obtain ⟨hmem, hobject⟩ := object_of_find h
  unfold CapView.grant
  split
  · next hr => exact ⟨c, hmem, rfl, hobject, hr⟩
  · exact ⟨rfl, c, hmem, rfl, hobject⟩

theorem least_grant (h : held.find? (·.covers slot) = some c) (hbest : FirstBest held slot) : Least held slot (c.grant slot) := by
  obtain ⟨hmem, hobject⟩ := object_of_find h
  by_cases hr : c.rights = slot.rights
  · rw [CapView.grant, if_pos hr]
    exact ⟨fun _ => ⟨c, hmem, ⟨hobject, hr⟩, rfl⟩, nofun⟩
  rw [CapView.grant, if_neg hr]
  obtain ⟨hnone, hmints⟩ := hbest c h fun he => hr he.2
  constructor
  · rintro ⟨e, he, hexact⟩
    exact absurd hexact (hnone e he)
  · rintro _ _ ⟨⟩ ⟨e, he, hcovers, hexact | hmint⟩
    · exact absurd hexact (hnone e he)
    · exact ⟨c, hmem, rfl, hmints ⟨e, he, hcovers, hmint⟩⟩

theorem satisfyFrom_error (held : List CapView) (needs : List Slot) : ∀ i plan k, satisfyFrom held i needs plan = .error ⟨k⟩ ↔
      (needs.findIdx? fun slot => !held.any (·.covers slot)).map (i + ·) = some k := by
  induction needs with
  | nil => simp [satisfyFrom]
  | cons slot needs ih =>
    intro i plan k
    rw [satisfyFrom, findIdx?_cons, ← isSome_find?]
    cases held.find? (·.covers slot) with
    | none => simp
    | some c => simp [ih, Function.comp_def, Nat.add_assoc, Nat.add_comm 1]

theorem satisfyFrom_ok (held : List CapView) (needs : List Slot) : ∀ i plan out,
    satisfyFrom held i needs plan = .ok out → ∃ grants, out = plan ++ grants ∧
      Forall₂ (fun slot grant => ∃ c, held.find? (·.covers slot) = some c ∧ grant = c.grant slot) needs grants := by
  induction needs with
  | nil =>
    rintro i plan _ ⟨⟩
    exact ⟨[], by simp, .nil⟩
  | cons slot needs ih =>
    intro i plan out hrun
    rw [satisfyFrom] at hrun
    cases hfind : held.find? (·.covers slot) with
    | none => simp [hfind] at hrun
    | some c =>
      rw [hfind] at hrun
      obtain ⟨grants, rfl, hall⟩ := ih _ _ _ hrun
      exact ⟨c.grant slot :: grants, by simp, .cons ⟨c, hfind, rfl⟩ hall⟩

end SnitchOs.Hitch
