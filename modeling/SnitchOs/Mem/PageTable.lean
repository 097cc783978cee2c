import Mathlib.Data.Nat.Bitwise
import Mathlib.Tactic.IntervalCases

/-!
# Sv39 page tables

Entries as the hardware reads them, the physical memory that holds the tables, and the walk that
installs a 4 KiB page. Physical memory is a set of 4 KiB frames of 512 words; the frames the allocator
may hand out are on the free list.
-/

namespace SnitchOs.Mem

open Function List Option BitVec

abbrev Pa := BitVec 64

abbrev PtePerms := BitVec 64

namespace PtePerms

def r : PtePerms := 1 <<< 1
def w : PtePerms := 1 <<< 2
def x : PtePerms := 1 <<< 3
def u : PtePerms := 1 <<< 4

end PtePerms

/-! ### Entries -/

abbrev Pte := BitVec 64

namespace Pte

def v : Pte := 1
def a : Pte := 1 <<< 6
def d : Pte := 1 <<< 7

def invalid : Pte := 0

def paToPtePpn (pa : Pa) : Pte := pa >>> 2

def leaf (pa : Pa) (perms : PtePerms) : Pte := paToPtePpn pa ||| perms ||| v ||| a ||| d

def branch (childPa : Pa) : Pte := paToPtePpn childPa ||| v

variable (p : Pte)

def isValid : Bool := p &&& v != 0

def rwx : BitVec 64 := p &&& (PtePerms.r ||| PtePerms.w ||| PtePerms.x)

def isBranch : Bool := isValid p && rwx p == 0

def isLeaf : Bool := isValid p && rwx p != 0

def childPa : Pa := (p >>> 10) <<< 12

end Pte

def Aligned (pa : Pa) : Prop := pa &&& 0xfff#64 = 0#64

instance (pa : Pa) : Decidable (Aligned pa) :=
  inferInstanceAs (Decidable (pa &&& 0xfff#64 = 0#64))

variable {pa : Pa} {va : Nat}

theorem aligned_iff : Aligned pa ↔ pa.toNat % 2 ^ 12 = 0 := by
  rw [Aligned, ← toNat_inj, toNat_and]
  show pa.toNat &&& (2 ^ 12 - 1) = 0 ↔ _
  rw [Nat.and_two_pow_sub_one_eq_mod]

theorem Aligned.bit (h : Aligned pa) (hi : i < 12) : pa.getLsbD i = false := by
  have hmask : (0xfff#64).getLsbD i = true := by
    interval_cases i <;> rfl
  have hbit : (pa &&& 0xfff#64).getLsbD i = false := by
    rw [h]
    exact getLsbD_zero
  rwa [getLsbD_and, hmask, Bool.and_true] at hbit

namespace Pte

theorem isLeaf_zero : isLeaf 0 = false := by decide

theorem isBranch_zero : isBranch 0 = false := by decide

theorem isLeaf_of_isBranch {e : Pte} (h : e.isBranch = true) : e.isLeaf = false := by
  simp only [isBranch, Bool.and_eq_true, beq_iff_eq] at h
  simp [isLeaf, h.2]

theorem isValid_or_v (p : Pte) : isValid (p ||| v) = true := by
  have hand : (p ||| v) &&& v = v := by
    apply eq_of_getLsbD_eq
    intro i _
    simp only [getLsbD_and, getLsbD_or]
    cases p.getLsbD i <;> cases v.getLsbD i <;> rfl
  simp only [isValid, hand]
  decide

theorem isValid_branch (pa : Pa) : isValid (branch pa) = true := isValid_or_v _

theorem isValid_leaf (pa : Pa) (perms : PtePerms) : isValid (leaf pa perms) = true := by
  have hv : leaf pa perms = (paToPtePpn pa ||| perms ||| a ||| d) ||| v := by
    simp [leaf, BitVec.or_assoc, BitVec.or_comm v]
  rw [hv]
  exact isValid_or_v _

/-- The permission bits of a branch are address bits `3` to `5`, and those of a frame are clear. -/
theorem rwx_branch (h : Aligned pa) : rwx (branch pa) = 0 := by
  have hmask : PtePerms.r ||| PtePerms.w ||| PtePerms.x = 14#64 := by decide
  apply eq_of_getLsbD_eq
  intro i _
  simp only [rwx, branch, paToPtePpn, hmask, getLsbD_and, getLsbD_or, getLsbD_ushiftRight]
  by_cases hi : i < 4
  · rw [h.bit (by omega : 2 + i < 12)]
    interval_cases i <;> rfl
  · have hlt : 14 < 2 ^ i := lt_of_lt_of_le (by norm_num) (Nat.pow_le_pow_right two_pos (not_lt.mp hi))
    simp [getLsbD_ofNat, Nat.testBit_lt_two_pow hlt]

theorem isBranch_branch (h : Aligned pa) : isBranch (branch pa) = true := by
  simp [isBranch, isValid_branch, rwx_branch h]

theorem isLeaf_branch (h : Aligned pa) : isLeaf (branch pa) = false := by
  simp [isLeaf, rwx_branch h]

theorem childPa_branch (h : Aligned pa) : childPa (branch pa) = pa := by
  apply eq_of_getLsbD_eq
  intro i hi
  simp only [childPa, branch, paToPtePpn, v, getLsbD_shiftLeft, getLsbD_ushiftRight, getLsbD_or]
  by_cases hlow : i < 12
  · simp [hlow, h.bit hlow]
  have hidx : 2 + (10 + (i - 12)) = i := by omega
  have hone : (1#64).getLsbD (10 + (i - 12)) = false := by
    simp [getLsbD_one]
  simp [hlow, hi, hidx, hone]

end Pte

/-! ### Physical memory -/

structure Sv39Va where
  vpn2 : Nat
  vpn1 : Nat
  vpn0 : Nat
  offset : Nat
  deriving DecidableEq

def splitVa (va : Nat) : Sv39Va where
  vpn2 := (va >>> 30) &&& 0x1ff
  vpn1 := (va >>> 21) &&& 0x1ff
  vpn0 := (va >>> 12) &&& 0x1ff
  offset := va &&& 0xfff

/-- Top of the user half. -/
def userVaEnd : Nat := 1 <<< 38

def heapVaBase : Nat := 0xffffffc000000000

inductive MapError where
  | alreadyMapped
  | outOfFrames
  | notMapped
  deriving DecidableEq

/-- The frames as words, and the frames the allocator may hand out, in its order. -/
structure PhysMem where
  word : Pa → Nat → BitVec 64
  free : List Pa

namespace PhysMem

variable (m : PhysMem)

def readEntry (table : Pa) (idx : Nat) : Pte := m.word table idx

def writeEntry (table : Pa) (idx : Nat) (value : Pte) : PhysMem :=
  { m with word := fun p i => if p = table ∧ i = idx then value else m.word p i }

def allocZeroed : Option (Pa × PhysMem) :=
  match m.free with
  | [] => none
  | p :: rest => some (p, { word := fun q i => if q = p then 0 else m.word q i, free := rest })

def walkOrInstall (table : Pa) (idx : Nat) : PhysMem × Except MapError Pa :=
  let pte := m.readEntry table idx
  if pte.isLeaf then (m, .error .alreadyMapped)
  else if pte.isBranch then (m, .ok pte.childPa)
  else
    match m.allocZeroed with
    | none => (m, .error .outOfFrames)
    | some (new, m) => (m.writeEntry table idx (Pte.branch new), .ok new)

/-- Maps the 4 KiB page at `va`; a failing walk leaves the tables it installed. -/
def map (root : Pa) (va : Nat) (pa : Pa) (perms : PtePerms) : PhysMem × Except MapError Unit :=
  let s := splitVa va
  match m.walkOrInstall root s.vpn2 with
  | (m, .error e) => (m, .error e)
  | (m, .ok mid) =>
    match m.walkOrInstall mid s.vpn1 with
    | (m, .error e) => (m, .error e)
    | (m, .ok leafTable) =>
      if (m.readEntry leafTable s.vpn0).isValid then (m, .error .alreadyMapped)
      else (m.writeEntry leafTable s.vpn0 (Pte.leaf pa perms), .ok ())

/-- Shares the high half of the boot root into a fresh one. -/
def newUserRoot (bootRoot : Pa) : Option (Pa × PhysMem) :=
  match m.allocZeroed with
  | none => none
  | some (root, m) =>
    some (root, (List.range' 256 256).foldl
      (fun m idx => m.writeEntry root idx (m.readEntry bootRoot idx)) m)

/-- What the hardware walk finds for `va`: the leaf entry and its level, huge pages included. -/
def translation (root : Pa) (va : Nat) : Option (Nat × Pte) :=
  let s := splitVa va
  let top := m.readEntry root s.vpn2
  if top.isLeaf then some (2, top)
  else if top.isBranch then
    let mid := m.readEntry top.childPa s.vpn1
    if mid.isLeaf then some (1, mid)
    else if mid.isBranch then
      let leaf := m.readEntry mid.childPa s.vpn0
      if leaf.isLeaf then some (0, leaf) else none
    else none
  else none

end PhysMem

theorem splitVa_vpn2_lt (va : Nat) : (splitVa va).vpn2 < 512 :=
  Nat.and_lt_two_pow _ (by decide : 0x1ff < 2 ^ 9)

theorem splitVa_vpn1_lt (va : Nat) : (splitVa va).vpn1 < 512 :=
  Nat.and_lt_two_pow _ (by decide : 0x1ff < 2 ^ 9)

theorem splitVa_vpn0_lt (va : Nat) : (splitVa va).vpn0 < 512 :=
  Nat.and_lt_two_pow _ (by decide : 0x1ff < 2 ^ 9)

theorem splitVa_vpn2 (va : Nat) : (splitVa va).vpn2 = va / 2 ^ 30 % 512 := by
  show (va >>> 30) &&& (2 ^ 9 - 1) = _
  rw [Nat.and_two_pow_sub_one_eq_mod, Nat.shiftRight_eq_div_pow]

theorem splitVa_vpn1 (va : Nat) : (splitVa va).vpn1 = va / 2 ^ 21 % 512 := by
  show (va >>> 21) &&& (2 ^ 9 - 1) = _
  rw [Nat.and_two_pow_sub_one_eq_mod, Nat.shiftRight_eq_div_pow]

theorem splitVa_vpn0 (va : Nat) : (splitVa va).vpn0 = va / 2 ^ 12 % 512 := by
  show (va >>> 12) &&& (2 ^ 9 - 1) = _
  rw [Nat.and_two_pow_sub_one_eq_mod, Nat.shiftRight_eq_div_pow]

theorem splitVa_low (h : va < userVaEnd) : (splitVa va).vpn2 < 256 := by
  have hlt : va < 2 ^ 38 := h
  rw [splitVa_vpn2]
  omega

/-! ### The tables of a user half -/

/-- The place of a table in the tree under a user root. -/
inductive Node where
  | root
  | mid (vpn2 : Nat)
  | leaf (vpn2 vpn1 : Nat)
  deriving DecidableEq

variable {c a : Node} {i : Nat} {tables : Node → Option Pa} {b : Node} {j : Nat}

namespace Node

def child : Node → Nat → Option Node
  | root, i => some (mid i)
  | mid i, j => some (leaf i j)
  | leaf .., _ => none

/-- The entries of a table below the first `half` entries of the root. -/
def Below (half : Nat) : Node → Nat → Prop
  | root, i => i < half
  | _, _ => True

/-- What a table holds when `tables` are the tables of the tree and `page` its leaf entries. -/
def content (tables : Node → Option Pa) (page : Nat → Nat → Nat → Pte) : Node → Nat → Pte
  | root, i => (tables (mid i)).elim Pte.invalid Pte.branch
  | mid i, j => (tables (leaf i j)).elim Pte.invalid Pte.branch
  | leaf i j, l => page i j l

theorem content_child (h : a.child i = some c) : a.content tables page i = (tables c).elim Pte.invalid Pte.branch := by
  cases a <;> cases h <;> rfl

theorem child_injective (ha : a.child i = some c) (hb : b.child j = some c) : a = b ∧ i = j := by
  cases a <;> cases ha <;> cases b <;> cases hb <;> exact ⟨rfl, rfl⟩

theorem child_ne (h : a.child i = some c) : a ≠ c := by
  cases a <;> cases h <;> exact Node.noConfusion

theorem content_update (q : Pa) (h : b.child j ≠ some c) :
    b.content (update tables c (some q)) page j = b.content tables page j := by
  cases b with
  | root =>
    have hne : mid j ≠ c := fun he => h (congrArg some he)
    simp [content, update_of_ne hne]
  | mid i =>
    have hne : leaf i j ≠ c := fun he => h (congrArg some he)
    simp [content, update_of_ne hne]
  | leaf i l => rfl

end Node

/-- The tree below the first `half` entries of a root: which frame is which table, and what every entry
holds. -/
structure TreeBelow (half : Nat) (m : PhysMem) (kernel : Pa → Prop) (tables : Node → Option Pa)
    (page : Nat → Nat → Nat → Pte) : Prop where
  aligned : ∀ a p, tables a = some p → Aligned p
  owned : ∀ a p, tables a = some p → p ∉ m.free
  apart : ∀ a p, tables a = some p → ¬ kernel p
  inj : ∀ a b p, tables a = some p → tables b = some p → a = b
  reads : ∀ a p i, tables a = some p → a.Below half i → m.word p i = a.content tables page i
  rooted : ∀ i j, tables (.mid i) = none → tables (.leaf i j) = none
  unmapped : ∀ i j l, tables (.leaf i j) = none → page i j l = Pte.invalid
  free_nodup : m.free.Nodup
  free_aligned : ∀ p ∈ m.free, Aligned p
  free_apart : ∀ p ∈ m.free, ¬ kernel p

/-- The user half under a root. -/
abbrev UserTree := TreeBelow 256

/-- The kernel's tables, and the root's entries from `half` on, are as before. -/
structure KeepsAbove (half : Nat) (kernel : Pa → Prop) (root : Pa) (m m' : PhysMem) : Prop where
  kernel_word : ∀ p, kernel p → m'.word p = m.word p
  high : ∀ i, half ≤ i → m'.word root i = m.word root i
  free : ∀ p ∈ m'.free, p ∈ m.free

abbrev KeepsHigh := KeepsAbove 256

namespace KeepsAbove

variable {kernel kernel' : Pa → Prop}

theorem refl (half : Nat) (kernel : Pa → Prop) (root : Pa) (m : PhysMem) : KeepsAbove half kernel root m m :=
  ⟨fun _ _ => rfl, fun _ _ => rfl, fun _ h => h⟩

theorem trans (h : KeepsAbove half kernel root m m') (h' : KeepsAbove half kernel root m' m'') :
    KeepsAbove half kernel root m m'' where
  kernel_word p hp := (h'.kernel_word p hp).trans (h.kernel_word p hp)
  high i hi := (h'.high i hi).trans (h.high i hi)
  free p hp := h.free p (h'.free p hp)

theorem mono (h : KeepsAbove half kernel' root m m') (hk : ∀ p, kernel p → kernel' p) : KeepsAbove half kernel root m m' :=
  { h with kernel_word := fun p hp => h.kernel_word p (hk p hp) }

end KeepsAbove

theorem update_eq_some (h : update tables c (some new) a = some p) : a = c ∧ p = new ∨ a ≠ c ∧ tables a = some p := by
  by_cases hac : a = c
  · subst hac
    rw [update_self] at h
    exact .inl ⟨rfl, (some.inj h).symm⟩
  · rw [update_of_ne hac] at h
    exact .inr ⟨hac, h⟩

/-- Tables are only added, from the free list. -/
structure Grows (free : List Pa) (tables tables' : Node → Option Pa) : Prop where
  keep : ∀ a p, tables a = some p → tables' a = some p
  origin : ∀ a p, tables' a = some p → tables a = some p ∨ p ∈ free

theorem Grows.refl (free : List Pa) (tables : Node → Option Pa) : Grows free tables tables :=
  ⟨fun _ _ h => h, fun _ _ h => .inl h⟩

theorem Grows.trans (h : Grows free t₁ t₂) (h' : Grows free' t₂ t₃) (hf : ∀ p ∈ free', p ∈ free) : Grows free t₁ t₃ where
  keep a p ha := h'.keep a p (h.keep a p ha)
  origin a p ha := (h'.origin a p ha).elim (h.origin a p) (fun hp => .inr (hf p hp))

/-- The tables after a walk along `path`: a place that had none took a frame. -/
structure Installs (path : List Node) (free free' : List Pa) (tables tables' : Node → Option Pa) : Prop where
  grows : Grows free tables tables'
  place : ∀ a p, tables' a = some p → tables a = some p ∨ a ∈ path
  taken : ∀ p ∈ free, p ∈ free' ∨ ∃ a, tables' a = some p
  sublist : free'.Sublist free
  spent : free.length ≤ free'.length + path.length

theorem Installs.refl (path : List Node) (free : List Pa) (tables : Node → Option Pa) : Installs path free free tables tables :=
  ⟨.refl _ _, fun _ _ h => .inl h, fun _ h => .inl h, .refl _, Nat.le_add_right _ _⟩

theorem Installs.trans (h : Installs path free₁ free₂ t₁ t₂) (h' : Installs path' free₂ free₃ t₂ t₃) :
    Installs (path ++ path') free₁ free₃ t₁ t₃ where
  grows := h.grows.trans h'.grows fun _ hp => h.sublist.subset hp
  place a p ha := by
    rcases h'.place a p ha with ha | ha
    · exact (h.place a p ha).imp_right fun hm => mem_append_left _ hm
    · exact .inr (mem_append_right _ ha)
  taken p hp := by
    rcases h.taken p hp with hp | ⟨a, ha⟩
    · exact h'.taken p hp
    · exact .inr ⟨a, h'.grows.keep a p ha⟩
  sublist := h'.sublist.trans h.sublist
  spent := by
    have := h.spent
    have := h'.spent
    rw [length_append]
    omega

theorem Installs.one (hc : tables c = none) (new : Pa) (rest : List Pa) :
    Installs [c] (new :: rest) rest tables (update tables c (some new)) := by
  have hcases : ∀ a p, update tables c (some new) a = some p → tables a = some p ∨ a = c ∧ p = new :=
    fun a p ha => (update_eq_some ha).symm.imp_left And.right
  refine ⟨⟨?_, ?_⟩, ?_, ?_, sublist_cons_self _ _, le_rfl⟩
  · intro a p ha
    have hac : a ≠ c := by
      rintro rfl
      rw [hc] at ha
      exact absurd ha.symm (some_ne_none _)
    rwa [update_of_ne hac]
  · exact fun a p ha => (hcases a p ha).imp_right fun h => mem_cons.mpr (.inl h.2)
  · exact fun a p ha => (hcases a p ha).imp_right fun h => mem_singleton.mpr h.1
  intro p hp
  rcases mem_cons.mp hp with rfl | hp
  · exact .inr ⟨c, update_self _ _ _⟩
  · exact .inl hp

theorem PhysMem.walkOrInstall_eq {m : PhysMem} (hread : m.readEntry table i = (tables c).elim Pte.invalid Pte.branch)
    (haligned : ∀ q, tables c = some q → Aligned q) : m.walkOrInstall table i = match tables c, m.free with
      | some q, _ => (m, .ok q) | none, [] => (m, .error .outOfFrames) | none, new :: rest =>
        (PhysMem.writeEntry ⟨fun q j => if q = new then 0 else m.word q j, rest⟩ table i (Pte.branch new), .ok new) := by
  cases hc : tables c with
  | some q =>
    have hq := haligned q hc
    rw [hc] at hread
    simp [PhysMem.walkOrInstall, hread, Option.elim, Pte.isLeaf_branch hq,
      Pte.isBranch_branch hq, Pte.childPa_branch hq, Bool.false_eq_true]
  | none =>
    rw [hc] at hread
    have hleaf : (m.readEntry table i).isLeaf = false := by rw [hread]; exact Pte.isLeaf_zero
    have hbranch : (m.readEntry table i).isBranch = false := by rw [hread]; exact Pte.isBranch_zero
    cases hfree : m.free <;>
      simp [PhysMem.walkOrInstall, hleaf, hbranch, PhysMem.allocZeroed, hfree, Bool.false_eq_true]

namespace TreeBelow

variable {half : Nat} {m : PhysMem} {kernel : Pa → Prop} {tables : Node → Option Pa}
  {page : Nat → Nat → Nat → Pte}

variable (h : TreeBelow half m kernel tables page) (hroot : tables .root = some root)
include h

theorem content_absent (hroot : c ≠ .root) (hc : tables c = none) (j : Nat) : c.content tables page j = Pte.invalid := by
  cases c with
  | root => exact absurd rfl hroot
  | mid i =>
    simp only [Node.content, h.rooted i j hc]
    rfl
  | leaf i l => exact h.unmapped i l j hc

theorem install (hchild : a.child i = some c) (ha : tables a = some table) (hc : tables c = none) (hfree : m.free = new :: rest) :
    TreeBelow half ((PhysMem.mk (fun q j => if q = new then 0 else m.word q j) rest).writeEntry table i
      (Pte.branch new)) kernel (update tables c (some new)) page := by
  have hmem : new ∈ m.free := hfree ▸ mem_cons_self
  have hsub : ∀ p ∈ rest, p ∈ m.free := fun p hp => hfree ▸ mem_cons_of_mem _ hp
  have hnodup : (new :: rest).Nodup := hfree ▸ h.free_nodup
  have htable : table ≠ new := by
    rintro rfl
    exact h.owned a table ha hmem
  have hroot : c ≠ .root := by
    rintro rfl
    cases a <;> cases hchild
  refine ⟨?_, ?_, ?_, ?_, ?_, ?_, ?_, hnodup.of_cons, fun p hp => h.free_aligned p (hsub p hp),
    fun p hp => h.free_apart p (hsub p hp)⟩
  · intro b p hb
    obtain ⟨-, rfl⟩ | ⟨-, hb⟩ := update_eq_some hb
    · exact h.free_aligned _ hmem
    · exact h.aligned b p hb
  · intro b p hb
    obtain ⟨-, rfl⟩ | ⟨-, hb⟩ := update_eq_some hb
    · exact (nodup_cons.mp hnodup).1
    · exact fun hp => h.owned b p hb (hsub p hp)
  · intro b p hb
    obtain ⟨-, rfl⟩ | ⟨-, hb⟩ := update_eq_some hb
    · exact h.free_apart _ hmem
    · exact h.apart b p hb
  · intro b b' p hb hb'
    obtain ⟨hbc, hpn⟩ | ⟨hbc, hold⟩ := update_eq_some hb <;>
      obtain ⟨hbc', hpn'⟩ | ⟨hbc', hold'⟩ := update_eq_some hb'
    · exact hbc.trans hbc'.symm
    · exact absurd (hpn ▸ hmem) (h.owned b' p hold')
    · exact absurd (hpn' ▸ hmem) (h.owned b p hold)
    · exact h.inj b b' p hold hold'
  · intro b p j hb hu
    simp only [PhysMem.writeEntry]
    obtain ⟨rfl, rfl⟩ | ⟨hbc, hold⟩ := update_eq_some hb
    · have hne : b.child j ≠ some b := fun he => Node.child_ne he rfl
      rw [if_neg (fun he => htable he.1.symm), if_pos rfl, Node.content_update _ hne, h.content_absent hroot hc]
      rfl
    have hpn : p ≠ new := by
      rintro rfl
      exact h.owned b p hold hmem
    by_cases hat : p = table ∧ j = i
    · obtain ⟨rfl, rfl⟩ := hat
      obtain rfl := h.inj a b p ha hold
      rw [if_pos ⟨rfl, rfl⟩, Node.content_child hchild, update_self]
      rfl
    · have hne : b.child j ≠ some c := by
        intro he
        obtain ⟨rfl, rfl⟩ := Node.child_injective he hchild
        exact hat ⟨some.inj (hold.symm.trans ha), rfl⟩
      rw [if_neg hat, if_neg hpn, Node.content_update _ hne, h.reads b p j hold hu]
  · intro i' j' hmid
    have hne : Node.mid i' ≠ c := by
      rintro rfl
      simp at hmid
    have hne' : Node.leaf i' j' ≠ c := by
      rintro rfl
      have hparent : a = .mid i' := by
        cases a <;> cases hchild
        rfl
      subst hparent
      rw [update_of_ne hne, ha] at hmid
      exact absurd hmid (some_ne_none _)
    rw [update_of_ne hne] at hmid
    rw [update_of_ne hne']
    exact h.rooted i' j' hmid
  · intro i' j' l hleaf
    by_cases he : Node.leaf i' j' = c
    · rw [he, update_self] at hleaf
      exact absurd hleaf (some_ne_none _)
    · rw [update_of_ne he] at hleaf
      exact h.unmapped i' j' l hleaf

omit h in
theorem mono {kernel' : Pa → Prop} (h : TreeBelow half m kernel' tables page) (hk : ∀ p, kernel p → kernel' p) :
    TreeBelow half m kernel tables page :=
  { h with
    apart := fun a p ha hp => h.apart a p ha (hk p hp)
    free_apart := fun p hp hkp => h.free_apart p hp (hk p hkp) }

include hroot in
theorem take_frame (hfree : m.free = frame :: rest) :
    TreeBelow half ⟨fun q i => if q = frame then 0 else m.word q i, rest⟩ (fun p => kernel p ∨ p = frame) tables page ∧
      KeepsAbove half kernel root m ⟨fun q i => if q = frame then 0 else m.word q i, rest⟩ := by
  have hmem : frame ∈ m.free := hfree ▸ mem_cons_self
  have hsub : ∀ p ∈ rest, p ∈ m.free := fun p hp => hfree ▸ mem_cons_of_mem _ hp
  have hnodup : (frame :: rest).Nodup := hfree ▸ h.free_nodup
  have htable : ∀ a p, tables a = some p → p ≠ frame := fun a p ha he => h.owned a p ha (he ▸ hmem)
  refine ⟨⟨h.aligned, fun a p ha hp => h.owned a p ha (hsub p hp),
    fun a p ha hk => hk.elim (h.apart a p ha) (htable a p ha), h.inj, ?_, h.rooted,
    h.unmapped, hnodup.of_cons, fun p hp => h.free_aligned p (hsub p hp), fun p hp hk => ?_⟩, ?_, ?_, hsub⟩
  · intro a p i ha hu
    simp only [htable a p ha, if_false]
    exact h.reads a p i ha hu
  · rcases hk with hk | rfl
    · exact h.free_apart p (hsub p hp) hk
    · exact (nodup_cons.mp hnodup).1 hp
  · intro p hp
    funext i
    have hne : p ≠ frame := fun he => h.free_apart _ hmem (he ▸ hp)
    simp [hne]
  · intro i _
    simp [htable _ _ hroot]

include hroot in
theorem keeps_write (ha : tables a = some p) (hi : a.Below half i) (pte : Pte) :
    KeepsAbove half kernel root m (m.writeEntry p i pte) := by
  refine ⟨fun q hq => ?_, fun j hj => ?_, fun _ hq => hq⟩
  · funext j
    have hne : q ≠ p := fun he => h.apart a p ha (he ▸ hq)
    simp [PhysMem.writeEntry, hne, false_and]
  · have hat : ¬ (root = p ∧ j = i) := by
      rintro ⟨rfl, rfl⟩
      obtain rfl := h.inj _ _ _ hroot ha
      exact absurd hi (not_lt.mpr hj)
    simp [PhysMem.writeEntry, hat]

include hroot in
theorem walkOrInstall (hchild : a.child i = some c) (ha : tables a = some table)
    (hu : a.Below half i) : m.free = [] ∧ m.walkOrInstall table i = (m, .error .outOfFrames) ∨
      ∃ m' tables' q, m.walkOrInstall table i = (m', .ok q) ∧ tables' c = some q ∧
        TreeBelow half m' kernel tables' page ∧ KeepsAbove half kernel root m m' ∧
        Installs [c] m.free m'.free tables tables' := by
  have hread : m.readEntry table i = (tables c).elim Pte.invalid Pte.branch :=
    (h.reads a table i ha hu).trans (Node.content_child hchild)
  rw [PhysMem.walkOrInstall_eq hread (h.aligned c)]
  cases hc : tables c with
  | some q => exact .inr ⟨m, tables, q, rfl, hc, h, .refl _ _ _ _, .refl _ _ _⟩
  | none =>
    cases hfree : m.free with
    | nil => exact .inl ⟨rfl, rfl⟩
    | cons new rest =>
      obtain ⟨htaken, hkeeps⟩ := h.take_frame hroot hfree
      exact .inr ⟨_, update tables c (some new), new, rfl, update_self _ _ _,
        h.install hchild ha hc hfree, hkeeps.trans ((htaken.mono fun _ => .inl).keeps_write hroot ha hu _),
        .one hc new rest⟩

theorem write_page (hq : tables (.leaf i j) = some q) (l : Nat) (pte : Pte) : TreeBelow half (m.writeEntry q l pte) kernel tables
      (fun i' j' l' => if i' = i ∧ j' = j ∧ l' = l then pte else page i' j' l') := by
  refine ⟨h.aligned, h.owned, h.apart, h.inj, ?_, h.rooted, ?_, h.free_nodup, h.free_aligned, h.free_apart⟩
  · intro b p k hb hu
    have hold := h.reads b p k hb hu
    simp only [PhysMem.writeEntry]
    by_cases hp : p = q
    · subst hp
      obtain rfl := h.inj _ _ _ hb hq
      simp only [Node.content, true_and]
      split
      · rfl
      · exact hold
    · rw [if_neg (fun he => hp he.1), hold]
      cases b with
      | root | mid i' => rfl
      | leaf i' j' =>
        have hne : ¬ (i' = i ∧ j' = j ∧ k = l) := by
          rintro ⟨rfl, rfl, -⟩
          exact hp (some.inj (hb.symm.trans hq))
        simp [Node.content, hne]
  · intro i' j' l' hleaf
    have hne : ¬ (i' = i ∧ j' = j ∧ l' = l) := by
      rintro ⟨rfl, rfl, -⟩
      rw [hq] at hleaf
      exact absurd hleaf (some_ne_none _)
    simp only [hne, if_false]
    exact h.unmapped i' j' l' hleaf

include hroot in
/-- Mapping a page of the tree writes its entry, or fails without a change to the pages: no frame
is left, or the page is mapped. The walk may have installed tables either way. -/
theorem map_cases (hva : (splitVa va).vpn2 < half) (pa : Pa) (perms : PtePerms) :
    ∃ m' tables' r, m.map root va pa perms = (m', r) ∧ KeepsAbove half kernel root m m' ∧
      Installs [.mid (splitVa va).vpn2, .leaf (splitVa va).vpn2 (splitVa va).vpn1] m.free m'.free
        tables tables' ∧ (TreeBelow half m' kernel tables' page ∧ (r = .error .outOfFrames ∧ m'.free = [] ∨
          (page (splitVa va).vpn2 (splitVa va).vpn1 (splitVa va).vpn0).isValid = true ∧ r = .error .alreadyMapped) ∨
        r = .ok () ∧ (page (splitVa va).vpn2 (splitVa va).vpn1 (splitVa va).vpn0).isValid = false ∧
          TreeBelow half m' kernel tables' fun i j l => if i = (splitVa va).vpn2 ∧ j = (splitVa va).vpn1 ∧ l = (splitVa va).vpn0
            then Pte.leaf pa perms else page i j l) := by
  set s := splitVa va with hs
  obtain ⟨hempty, hno⟩ | ⟨m₁, t₁, mid, hw₁, hmid, h₁, hk₁, hi₁⟩ :=
    h.walkOrInstall hroot (i := s.vpn2) (a := .root) rfl hroot hva
  · refine ⟨m, tables, _, ?_, .refl _ _ _ _, .refl _ _ _, .inl ⟨h, .inl ⟨rfl, hempty⟩⟩⟩
    simp [PhysMem.map, ← hs, hno]
  have hroot₁ := hi₁.grows.keep _ _ hroot
  obtain ⟨hempty, hno⟩ | ⟨m₂, t₂, leaf, hw₂, hleaf, h₂, hk₂, hi₂⟩ :=
    h₁.walkOrInstall hroot₁ (i := s.vpn1) (a := .mid s.vpn2) rfl hmid trivial
  · refine ⟨m₁, t₁, _, ?_, hk₁, hi₁.trans (.refl _ _ _), .inl ⟨h₁, .inl ⟨rfl, hempty⟩⟩⟩
    simp [PhysMem.map, ← hs, hw₁, hno]
  have hread : m₂.readEntry leaf s.vpn0 = page s.vpn2 s.vpn1 s.vpn0 := h₂.reads _ _ s.vpn0 hleaf trivial
  cases hv : (page s.vpn2 s.vpn1 s.vpn0).isValid with
  | true =>
    refine ⟨m₂, t₂, _, ?_, hk₁.trans hk₂, hi₁.trans hi₂, .inl ⟨h₂, .inr ⟨rfl, rfl⟩⟩⟩
    simp [PhysMem.map, ← hs, hw₁, hw₂, hread, hv]
  | false =>
    have hwrite := h₂.keeps_write (hi₂.grows.keep _ _ hroot₁) hleaf (i := s.vpn0) trivial (Pte.leaf pa perms)
    refine ⟨m₂.writeEntry leaf s.vpn0 (Pte.leaf pa perms), t₂, _, ?_, (hk₁.trans hk₂).trans hwrite, hi₁.trans hi₂,
      .inr ⟨rfl, rfl, h₂.write_page hleaf s.vpn0 (Pte.leaf pa perms)⟩⟩
    simp [PhysMem.map, ← hs, hw₁, hw₂, hread, hv, Bool.false_eq_true]

end TreeBelow

/-! ### The kernel half -/

/-- A table of the kernel half: the boot root, or a table one or two levels below its high half. -/
def KernelTable (m : PhysMem) (bootRoot p : Pa) : Prop :=
  p = bootRoot ∨ ∃ i, 256 ≤ i ∧ i < 512 ∧ (m.readEntry bootRoot i).isBranch ∧
    (p = (m.readEntry bootRoot i).childPa ∨
      ∃ j, (m.readEntry (m.readEntry bootRoot i).childPa j).isBranch ∧
        p = (m.readEntry (m.readEntry bootRoot i).childPa j).childPa)

/-- Memory as the allocator keeps it: free frames are frames, each free once, and no kernel table is
free. -/
structure PhysMem.WellFormed (m : PhysMem) (bootRoot : Pa) : Prop where
  nodup : m.free.Nodup
  aligned : ∀ p ∈ m.free, Aligned p
  kernel_not_free : ∀ p, KernelTable m bootRoot p → p ∉ m.free

theorem foldl_writeEntry_word (root boot : Pa) (hne : boot ≠ root) : ∀ (idxs : List Nat) (m : PhysMem) (p : Pa) (i : Nat),
      (idxs.foldl (fun m idx => m.writeEntry root idx (m.readEntry boot idx)) m).word p i =
        if p = root ∧ i ∈ idxs then m.word boot i else m.word p i := by
  intro idxs
  induction idxs with
  | nil => intro m p i; simp
  | cons idx idxs ih =>
    intro m p i
    rw [foldl_cons, ih]
    simp only [PhysMem.writeEntry, PhysMem.readEntry, hne, false_and, if_false, mem_cons]
    by_cases hp : p = root
    · by_cases hi : i = idx
      · simp [hp, hi]
      · simp [hp, hi]
    · simp [hp]

theorem foldl_writeEntry_free (root boot : Pa) (idxs : List Nat) (m : PhysMem) :
    (idxs.foldl (fun m idx => m.writeEntry root idx (m.readEntry boot idx)) m).free = m.free := by
  induction idxs generalizing m with
  | nil => rfl
  | cons idx idxs ih => rw [foldl_cons, ih]; rfl

theorem eq_root_of_fresh {p : Pa} (h : update (fun _ => none) Node.root (some root) a = some p) : a = .root ∧ p = root := by
  rcases update_eq_some h with ⟨ha, hp⟩ | ⟨-, hnone⟩
  · exact ⟨ha, hp⟩
  · cases hnone

namespace PhysMem.WellFormed

variable {m m₁ : PhysMem} {boot root : Pa}

variable (h : m.WellFormed boot) (hr : m.newUserRoot boot = some (root, m₁))
include h hr

theorem newUserRoot_eq : m.free = root :: m₁.free ∧ ∀ p i, m₁.word p i =
      if p = root then (if 256 ≤ i ∧ i < 512 then m.word boot i else 0) else m.word p i := by
  unfold PhysMem.newUserRoot PhysMem.allocZeroed at hr
  cases hfree : m.free with
  | nil => simp [hfree] at hr
  | cons new rest =>
    simp only [hfree, some.injEq, Prod.mk.injEq] at hr
    obtain ⟨rfl, rfl⟩ := hr
    have hne : boot ≠ new := by
      rintro rfl
      exact h.kernel_not_free _ (.inl rfl) (hfree ▸ mem_cons_self)
    refine ⟨by rw [foldl_writeEntry_free], ?_⟩
    intro p i
    rw [foldl_writeEntry_word _ _ hne]
    by_cases hp : p = new
    · simp [hp, hne]
    · simp [hp]

theorem newUserRoot_tree :
    UserTree m₁ (KernelTable m boot) (update (fun _ => none) .root (some root)) (fun _ _ _ => Pte.invalid) := by
  obtain ⟨hfree, hword⟩ := h.newUserRoot_eq hr
  have hmem : root ∈ m.free := hfree ▸ mem_cons_self
  have hsub : ∀ p ∈ m₁.free, p ∈ m.free := fun p hp => hfree ▸ mem_cons_of_mem _ hp
  have hnodup : (root :: m₁.free).Nodup := hfree ▸ h.nodup
  refine ⟨?_, ?_, ?_, ?_, ?_, fun _ _ _ => rfl, fun _ _ _ _ => rfl, hnodup.of_cons, ?_, ?_⟩
  · intro a p ha
    obtain ⟨-, rfl⟩ := eq_root_of_fresh ha
    exact h.aligned _ hmem
  · intro a p ha
    obtain ⟨-, rfl⟩ := eq_root_of_fresh ha
    exact (nodup_cons.mp hnodup).1
  · intro a p ha hk
    obtain ⟨-, rfl⟩ := eq_root_of_fresh ha
    exact h.kernel_not_free _ hk hmem
  · intro a b p ha hb
    exact (eq_root_of_fresh ha).1.trans (eq_root_of_fresh hb).1.symm
  · intro a p i ha hu
    obtain ⟨rfl, rfl⟩ := eq_root_of_fresh ha
    have hlow : ¬ (256 ≤ i ∧ i < 512) := fun hi => absurd hu (not_lt.mpr hi.1)
    rw [hword, if_pos rfl, if_neg hlow]
    rfl
  · exact fun p hp => h.aligned p (hsub p hp)
  · exact fun p hp hk => h.kernel_not_free p hk (hsub p hp)

theorem newUserRoot_kernel (hp : KernelTable m boot p) : m₁.word p = m.word p := by
  obtain ⟨hfree, hword⟩ := h.newUserRoot_eq hr
  have hmem : root ∈ m.free := hfree ▸ mem_cons_self
  funext i
  have hne : p ≠ root := fun he => h.kernel_not_free p hp (he ▸ hmem)
  rw [hword, if_neg hne]

end PhysMem.WellFormed

/-- A root with the boot root's high half translates kernel addresses as the boot root did when `m`
was the memory, as long as the kernel's tables stay as they are in `m`. -/
theorem translation_high {m m' : PhysMem} (hva : 256 ≤ (splitVa va).vpn2) (hk : ∀ p, KernelTable m boot p → m'.word p = m.word p)
    (hroot : m'.word root (splitVa va).vpn2 = m.word boot (splitVa va).vpn2) :
    m'.translation root va = m.translation boot va := by
  have hlt := splitVa_vpn2_lt va
  set s := splitVa va with hs
  have htop : m'.readEntry root s.vpn2 = m.readEntry boot s.vpn2 := hroot
  simp only [PhysMem.translation, ← hs, htop]
  by_cases hb : (m.readEntry boot s.vpn2).isBranch
  · have hmid : m'.readEntry (m.readEntry boot s.vpn2).childPa s.vpn1 = m.readEntry (m.readEntry boot s.vpn2).childPa s.vpn1 :=
      congrFun (hk _ (.inr ⟨_, hva, hlt, hb, .inl rfl⟩)) _
    simp only [hmid]
    by_cases hb' : (m.readEntry (m.readEntry boot s.vpn2).childPa s.vpn1).isBranch
    · have hleaf : m'.readEntry (m.readEntry (m.readEntry boot s.vpn2).childPa s.vpn1).childPa =
          m.readEntry (m.readEntry (m.readEntry boot s.vpn2).childPa s.vpn1).childPa := by
        funext l
        exact congrFun (hk _ (.inr ⟨_, hva, hlt, hb, .inr ⟨_, hb', rfl⟩⟩)) l
      simp [hleaf]
    · simp [hb', Bool.false_eq_true]
  · simp [hb, Bool.false_eq_true]

end SnitchOs.Mem
