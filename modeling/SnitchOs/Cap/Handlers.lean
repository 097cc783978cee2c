import SnitchOs.Cap.Walk

/-!
# What the syscalls do to a capability table

The table part of `MintBadged`, of `Spawn`'s delegation and of `Reply`, each run under the caller's
`caps` lock. A capability that leaves a table without having reached its next one travels as a
`Moved`: the capability and the id of the holding it was taken from.
-/

namespace SnitchOs.Cap

open List

structure Moved where
  cap : Capability
  parentCapId : Nat
deriving DecidableEq

/-- The id `h` names, `0` if it names nothing. -/
def CapTable.capIdOrZero (t : CapTable) (h : Handle) : Nat :=
  match t.capIdOf h with
  | .ok id => id
  | .error _ => 0

/-- Derive a badged capability from the holding `h` and place it in the same table. -/
def handleMintBadged (t : CapTable) (h : Handle) (badge : UInt64) (rights : Rights) (childId : Nat) :
    Except Denied (Handle × CapTable) :=
  match t.resolve h with
  | .error _ => .error .noSuchCapability
  | .ok parent =>
    match mintBadged parent badge rights with
    | .error e => .error e
    | .ok child => .ok (t.insertWithId child childId (t.capIdOrZero h))

inductive DelegateRefusal
  | badUserRange
  | capNotDelegable
  | capNotFound
deriving DecidableEq

def maxDelegate : Nat := 16

/-- Copy out the capabilities `handles` name, each with the id of its source holding. -/
def delegateFromUser (t : CapTable) (handles : List Handle) : Except DelegateRefusal (List Moved) :=
  if maxDelegate < handles.length then .error .badUserRange
  else
    match delegate t handles with
    | .ok caps => .ok ((handles.zip caps).map fun p => ⟨p.2, t.capIdOrZero p.1⟩)
    | .error .notDelegable => .error .capNotDelegable
    | .error _ => .error .capNotFound

/-- Resolve and consume the reply capability `h`, then move the holding `transfer` names (if any) out
of the table. A transfer handle that names nothing moves nothing. -/
def replyViaCap (t : CapTable) (h : Handle) (transfer : Option Handle) :
    Except Denied ((TaskId × CallNo) × Option Moved × CapTable) :=
  match invokeReply t h with
  | .error e => .error e
  | .ok caller =>
    let t := (t.consume h).2
    match transfer with
    | none => .ok (caller, none, t)
    | some th =>
      match t.resolve th with
      | .ok cap => .ok (caller, some ⟨cap, t.capIdOrZero th⟩, (t.consume th).2)
      | .error _ => .ok (caller, none, t)

/-! ### Specifications -/

open CapTable

variable {t : CapTable} {h : Handle} {cap : Capability} {id : Nat} {s : Slot}

theorem resolve_eq_ok_iff : t.resolve h = .ok cap ↔ ∃ s, t.lookup h = .ok (s, cap) := by
  unfold resolve
  cases hl : t.lookup h with
  | error e => simp [Except.map]
  | ok r =>
    obtain ⟨s, c⟩ := r
    simp [Except.map]

theorem capIdOf_eq_ok_iff : t.capIdOf h = .ok id ↔ ∃ s cap, t.lookup h = .ok (s, cap) ∧ s.capId = id := by
  unfold capIdOf
  cases hl : t.lookup h with
  | error e => simp [Except.map]
  | ok r =>
    obtain ⟨s, c⟩ := r
    simp [Except.map]

theorem capIdOrZero_of_lookup (hl : t.lookup h = .ok (s, cap)) : t.capIdOrZero h = s.capId := by
  simp [capIdOrZero, capIdOf, hl, Except.map]

theorem consume_of_lookup (hl : t.lookup h = .ok (s, cap)) : (t.consume h).2 = t.freeAt h.index.toNat := by
  rcases t.consume_cases h with ⟨_, _, -, hc⟩ | ⟨⟨e, he⟩, -⟩
  · rw [hc]
  rw [hl] at he
  cases he

theorem lookup_mem_live (hl : t.lookup h = .ok (s, cap)) : s ∈ t.live := by
  obtain ⟨hs, -, hcap⟩ := lookup_eq_ok_iff.mp hl
  exact mem_live.mpr ⟨mem_of_getElem? hs, by rw [hcap]; rfl⟩

theorem handleMintBadged_eq_ok (hm : handleMintBadged t h badge rights id = .ok out) :
    ∃ s cap child, t.lookup h = .ok (s, cap) ∧ mintBadged cap badge rights = .ok child ∧
      out = t.insertWithId child id s.capId := by
  unfold handleMintBadged at hm
  split at hm
  · cases hm
  next parent hres =>
  obtain ⟨s, hl⟩ := resolve_eq_ok_iff.mp hres
  split at hm
  · cases hm
  next child hchild =>
  rw [capIdOrZero_of_lookup hl] at hm
  exact ⟨s, parent, child, hl, hchild, (Except.ok.inj hm).symm⟩

theorem delegateOne_eq_ok (hd : delegateOne t h = .ok cap) : ∃ s, t.lookup h = .ok (s, cap) ∧ s.multiplicity = .persistent := by
  unfold delegateOne at hd
  cases hl : t.lookup h with
  | error e => simp [multiplicityOf, hl, Except.map] at hd
  | ok r =>
    obtain ⟨s, c⟩ := r
    cases hmult : s.multiplicity with
    | once => simp [multiplicityOf, hl, Except.map, hmult] at hd
    | persistent =>
      simp only [multiplicityOf, resolve, hl, Except.map, hmult, Except.ok.injEq] at hd
      exact ⟨s, by rw [hd], hmult⟩

/-- Every delegated capability is a copy of a live, persistent holding of the table. -/
theorem delegate_mem (hd : delegate t handles = .ok caps)
    (hm : (h, cap) ∈ handles.zip caps) : ∃ s, t.lookup h = .ok (s, cap) ∧ s.multiplicity = .persistent := by
  induction handles generalizing caps with
  | nil => simp at hm
  | cons g rest ih =>
    rw [delegate, mapM_cons] at hd
    cases hone : delegateOne t g with
    | error e => simp [hone, bind, Except.bind] at hd
    | ok c =>
      cases hrest : delegate t rest with
      | error e =>
        have htail : List.mapM (delegateOne t) rest = .error e := hrest
        simp [hone, htail, bind, Except.bind] at hd
      | ok tail =>
        have htail : List.mapM (delegateOne t) rest = .ok tail := hrest
        simp only [hone, htail, bind, Except.bind, pure, Except.pure, Except.ok.injEq] at hd
        subst hd
        rw [zip_cons_cons, mem_cons] at hm
        rcases hm with hm | hm
        · cases hm
          exact delegateOne_eq_ok hone
        · exact ih hrest hm

theorem delegateFromUser_mem (hd : delegateFromUser t handles = .ok ms) (hm : m ∈ ms) :
    ∃ h ∈ handles, ∃ s, t.lookup h = .ok (s, m.cap) ∧ s.multiplicity = .persistent ∧ m.parentCapId = s.capId := by
  unfold delegateFromUser at hd
  split at hd
  · cases hd
  split at hd
  · next caps hcaps =>
    cases hd
    obtain ⟨⟨h, cap⟩, hzip, rfl⟩ := mem_map.mp hm
    obtain ⟨s, hl, hmult⟩ := delegate_mem hcaps hzip
    exact ⟨h, (of_mem_zip hzip).1, s, hl, hmult, capIdOrZero_of_lookup hl⟩
  · cases hd
  · cases hd

theorem invokeReply_eq_ok (hi : invokeReply t h = .ok (caller, call)) :
    ∃ s rights, t.lookup h = .ok (s, ⟨.reply caller call, rights⟩) := by
  unfold invokeReply invoke at hi
  split at hi
  · cases hi
  next cap hres =>
  obtain ⟨s, hl⟩ := resolve_eq_ok_iff.mp hres
  split at hi
  · obtain ⟨object, rights⟩ := cap
    cases object with
    | reply c k =>
      simp only [Except.ok.injEq, Prod.mk.injEq] at hi
      obtain ⟨rfl, rfl⟩ := hi
      exact ⟨s, rights, hl⟩
    | _ => simp at hi
  · cases hi

/-- A reply frees its reply capability, and then the holding it moves, if it moves one. -/
theorem replyViaCap_eq_ok (hr : replyViaCap t h transfer = .ok ((caller, call), moved, t')) :
    ∃ s rights, t.lookup h = .ok (s, ⟨.reply caller call, rights⟩) ∧ ((moved = none ∧ t' = t.freeAt h.index.toNat) ∨
        ∃ th s' cap, transfer = some th ∧ (t.freeAt h.index.toNat).lookup th = .ok (s', cap) ∧
          moved = some ⟨cap, s'.capId⟩ ∧ t' = (t.freeAt h.index.toNat).freeAt th.index.toNat) := by
  unfold replyViaCap at hr
  split at hr
  · cases hr
  next who hi =>
  obtain ⟨c, k⟩ := who
  obtain ⟨s, rights, hl⟩ := invokeReply_eq_ok hi
  rw [consume_of_lookup hl] at hr
  cases transfer with
  | none =>
    simp only [Except.ok.injEq, Prod.mk.injEq] at hr
    obtain ⟨⟨rfl, rfl⟩, rfl, rfl⟩ := hr
    exact ⟨s, rights, hl, .inl ⟨rfl, rfl⟩⟩
  | some th =>
    simp only at hr
    split at hr
    · next cap hres =>
      obtain ⟨s', hl'⟩ := resolve_eq_ok_iff.mp hres
      rw [consume_of_lookup hl', capIdOrZero_of_lookup hl'] at hr
      simp only [Except.ok.injEq, Prod.mk.injEq] at hr
      obtain ⟨⟨rfl, rfl⟩, rfl, rfl⟩ := hr
      exact ⟨s, rights, hl, .inr ⟨th, s', cap, rfl, hl', rfl, rfl⟩⟩
    · simp only [Except.ok.injEq, Prod.mk.injEq] at hr
      obtain ⟨⟨rfl, rfl⟩, rfl, rfl⟩ := hr
      exact ⟨s, rights, hl, .inl ⟨rfl, rfl⟩⟩

end SnitchOs.Cap
