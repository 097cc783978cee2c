import SnitchOs.Mem.PartialMap

/-!
# Splitting a huge leaf

`split_huge_leaf` replaces a 2 MiB leaf by a table of 512 pages. For the addresses of the range the hardware
walk then ends one level below, and at the same place: the physical address and the permissions are compared
for every address, and so is what an `unmap` of one page does afterwards.
-/

namespace SnitchOs.Mem

open List Option Pte PhysMem PtePerms

namespace PhysMem

variable (m : PhysMem) (root : Pa)

def childAt (table : Pa) (i : Nat) : Option Pa :=
  if (m.readEntry table i).isBranch then some (m.readEntry table i).childPa else none

def tableAt : Node → Option Pa
  | .root => some root
  | .mid i => m.childAt root i
  | .leaf i j => (m.childAt root i).bind (m.childAt · j)

def leafSize (level : Nat) : Nat := 2 ^ (12 + 9 * level)

/-- Where `va` is, and with which of the R, W, X, U and G bits; a leaf that is not aligned to its size is a
fault. -/
def resolve (va : Nat) : Option (Pa × PtePerms) :=
  (m.translation root va).bind fun e =>
    if e.2.leafPa.toNat % leafSize e.1 = 0 then
      some (e.2.leafPa + BitVec.ofNat 64 (va % leafSize e.1), e.2.perms)
    else none

end PhysMem

/-- The indices of a place are indices of entries. -/
def Node.Bounded : Node → Prop
  | .root => True
  | .mid i => i < 512
  | .leaf i j => i < 512 ∧ j < 512

/-- No frame is the table of two places. -/
def TablesApart (m : PhysMem) (root : Pa) : Prop :=
  ∀ a b p, a.Bounded → b.Bounded → m.tableAt root a = some p → m.tableAt root b = some p → a = b

/-- A well-formed tree: its tables are apart and in use, the allocator hands out frames, and 2 MiB leaves
are aligned. -/
structure IsTree (m : PhysMem) (root : Pa) : Prop where
  apart : TablesApart m root
  owned : ∀ a p, a.Bounded → m.tableAt root a = some p → p ∉ m.free
  free_aligned : ∀ p ∈ m.free, Aligned p
  megapages : ∀ i j p, i < 512 → j < 512 → m.tableAt root (.mid i) = some p →
    (m.readEntry p j).isLeaf = true → (m.readEntry p j).leafPa.toNat % leafSize 1 = 0

/-! ### Walks that read the same -/

theorem readEntry_writeEntry (m : PhysMem) (table : Pa) (idx : Nat) (value : Pte) (p : Pa) (i : Nat) :
    (m.writeEntry table idx value).readEntry p i = if p = table ∧ i = idx then value else m.readEntry p i := rfl

variable {p : Pa} {i : Nat} {a : Node}

section

variable {m m' : PhysMem}

theorem translation_congr (h2 : m'.readEntry root (splitVa va).vpn2 = m.readEntry root (splitVa va).vpn2)
    (h1 : ∀ p, m.tableAt root (.mid (splitVa va).vpn2) = some p →
      m'.readEntry p (splitVa va).vpn1 = m.readEntry p (splitVa va).vpn1) (h0 : ∀ p, m.tableAt root (leafOf va) = some p →
      m'.readEntry p (splitVa va).vpn0 = m.readEntry p (splitVa va).vpn0) : m'.translation root va = m.translation root va := by
  unfold translation
  simp only [h2]
  by_cases hb : (m.readEntry root (splitVa va).vpn2).isBranch = true
  · have hmid := h1 _ (if_pos hb)
    simp only [hmid]
    by_cases hb' : (m.readEntry (m.readEntry root (splitVa va).vpn2).childPa (splitVa va).vpn1).isBranch = true
    · have hleaf : m.tableAt root (leafOf va) =
          some (m.readEntry (m.readEntry root (splitVa va).vpn2).childPa (splitVa va).vpn1).childPa := by
        simp [tableAt, childAt, hb, hb']
      simp [h0 _ hleaf]
    · simp [hb', Bool.false_eq_true]
  · simp [hb, Bool.false_eq_true]

theorem childAt_congr (h : m'.readEntry p i = m.readEntry p i) : m'.childAt p i = m.childAt p i := by
  unfold childAt
  rw [h]

theorem walkLeafTable_eq_ok : m.walkLeafTable root va = .ok p ↔ m.tableAt root (leafOf va) = some p := by
  simp only [walkLeafTable, walkExisting, tableAt, childAt]
  by_cases hb : (m.readEntry root (splitVa va).vpn2).isBranch = true
  · simp only [hb, if_true, bind_some]
    split
    · simp
    · simp
  · simp [hb]

theorem translation_of_mid (h : m.tableAt root (.mid (splitVa va).vpn2) = some p)
    (hleaf : (m.readEntry p (splitVa va).vpn1).isLeaf = true) :
    m.translation root va = some (1, m.readEntry p (splitVa va).vpn1) := by
  simp only [tableAt, childAt] at h
  split at h
  · next hb =>
    cases h
    simp [translation, hb, isLeaf_of_isBranch hb, hleaf, Bool.false_eq_true]
  · cases h

theorem translation_of_leafTable (h : m.tableAt root (leafOf va) = some p) :
    m.translation root va = if (m.readEntry p (splitVa va).vpn0).isLeaf then
      some (0, m.readEntry p (splitVa va).vpn0) else none := by
  obtain ⟨mid, hmid, hleaf⟩ := bind_eq_some_iff.mp h
  unfold childAt at hmid hleaf
  split at hmid
  · next hb =>
    cases hmid
    split at hleaf
    · next hb' =>
      cases hleaf
      simp [translation, hb, hb', isLeaf_of_isBranch hb, isLeaf_of_isBranch hb', Bool.false_eq_true]
    · cases hleaf
  · cases hmid

theorem TablesApart.unmap (h : TablesApart m root) (hp : m.tableAt root (leafOf va) = some p)
    (hleaf : (m.readEntry p (splitVa va).vpn0).isLeaf = true) : ∃ m' pa, m.unmap root va = (m', .ok pa) ∧
      ∀ va', m'.resolve root va' = if SamePage va va' then none else m.resolve root va' := by
  have hbound : Node.Bounded (leafOf va) :=
    ⟨splitVa_vpn2_lt va, splitVa_vpn1_lt va⟩
  have hroot : root ≠ p := by
    rintro rfl
    exact Node.noConfusion (h .root _ root trivial hbound rfl hp)
  refine ⟨m.writeEntry p (splitVa va).vpn0 invalid, (m.readEntry p (splitVa va).vpn0).leafPa, ?_, fun va' => ?_⟩
  · simp [PhysMem.unmap, walkLeafTable_eq_ok.mpr hp, hleaf]
  have hread : ∀ q i, ¬ (q = p ∧ i = (splitVa va).vpn0) →
      (m.writeEntry p (splitVa va).vpn0 invalid).readEntry q i = m.readEntry q i := fun q i hne => if_neg hne
  have hmid : ∀ i q, i < 512 → m.tableAt root (.mid i) = some q → q ≠ p := by
    rintro i q hi hq rfl
    exact Node.noConfusion (h (.mid i) _ _ hi hbound hq hp)
  split
  · next hsame =>
    obtain ⟨h2, h1, h0⟩ := hsame
    have hp' : (m.writeEntry p (splitVa va).vpn0 invalid).tableAt root
        (leafOf va') = some p := by
      rw [leafOf, h2, h1]
      refine Eq.trans ?_ hp
      simp only [PhysMem.tableAt, childAt_congr (hread root _ fun hc => hroot hc.1)]
      cases hq : m.childAt root (splitVa va).vpn2 with
      | none => rfl
      | some q => exact childAt_congr (hread q _ fun hc => hmid _ q (splitVa_vpn2_lt va) hq hc.1)
    have hinvalid : (m.writeEntry p (splitVa va).vpn0 invalid).readEntry p (splitVa va').vpn0 = invalid :=
      if_pos ⟨rfl, h0⟩
    simp only [PhysMem.resolve, translation_of_leafTable hp', hinvalid]
    rfl
  · next hother =>
    unfold PhysMem.resolve
    rw [translation_congr (hread root _ fun hc => hroot hc.1)
      (fun q hq => hread q _ fun hc => hmid _ q (splitVa_vpn2_lt va') hq hc.1)]
    rintro q hq
    refine hread q _ ?_
    rintro ⟨rfl, h0⟩
    obtain ⟨h2, h1⟩ := Node.leaf.inj (h _ _ _ ⟨splitVa_vpn2_lt va', splitVa_vpn1_lt va'⟩ hbound hq hp)
    exact hother ⟨h2, h1, h0⟩

end

/-! ### The entries of the new table -/

theorem aligned_page (p : Pte) (i : Nat) : Aligned (p.leafPa + BitVec.ofNat 64 (i * pageSize)) := by
  rw [aligned_iff]
  simp only [leafPa, pageSize, BitVec.toNat_add, BitVec.toNat_shiftLeft, BitVec.toNat_ofNat, Nat.shiftLeft_eq]
  omega

namespace Pte

theorem perms_known (p : Pte) : p.perms &&& 0b111110#64 = p.perms := by
  rw [perms, BitVec.and_assoc, BitVec.and_self]

theorem rwx_perms (p : Pte) : p.perms &&& (r ||| w ||| x) = p.rwx := by
  rw [perms, BitVec.and_assoc]
  rfl

end Pte

theorem foldl_write_readEntry (table : Pa) (f : Nat → Pte) : ∀ (idxs : List Nat) (m : PhysMem) (p : Pa) (i : Nat),
    (idxs.foldl (fun m i => m.writeEntry table i (f i)) m).readEntry p i =
      if p = table ∧ i ∈ idxs then f i else m.readEntry p i := by
  intro idxs
  induction idxs with
  | nil => simp
  | cons idx idxs ih =>
    intro m p i
    rw [foldl_cons, ih, readEntry_writeEntry]
    by_cases hp : p = table
    · by_cases hi : i = idx
      · simp [hp, hi]
      · simp [hp, hi]
    · simp [hp]

/-- What a split that succeeds writes: the pages of the leaf into a frame that was free, and the frame into
the place of the leaf. -/
structure SplitAt (m m' : PhysMem) (root : Pa) (va : Nat) (mid l0 : Pa) : Prop where
  table : m.tableAt root (.mid (splitVa va).vpn2) = some mid
  free : l0 ∈ m.free
  huge : (m.readEntry mid (splitVa va).vpn1).isLeaf = true
  reads : ∀ p i, i < 512 → m'.readEntry p i =
    if p = mid ∧ i = (splitVa va).vpn1 then branch l0
    else if p = l0 then leaf ((m.readEntry mid (splitVa va).vpn1).leafPa + BitVec.ofNat 64 (i * pageSize))
      (m.readEntry mid (splitVa va).vpn1).perms
    else m.readEntry p i

theorem splitHugeLeaf_cases (m : PhysMem) (root : Pa) (va : Nat) : (∃ e, m.splitHugeLeaf root va = (m, .error e)) ∨
      ∃ m' mid l0, m.splitHugeLeaf root va = (m', .ok ()) ∧ SplitAt m m' root va mid l0 := by
  unfold splitHugeLeaf walkExisting
  by_cases hb : (m.readEntry root (splitVa va).vpn2).isBranch = true
  · simp only [hb, if_true]
    by_cases hleaf : (m.readEntry (m.readEntry root (splitVa va).vpn2).childPa (splitVa va).vpn1).isLeaf = true
    · cases hfree : m.free with
      | nil => exact .inl ⟨.outOfFrames, by simp only [hleaf, if_true, allocZeroed, hfree]⟩
      | cons l0 rest =>
        refine .inr ⟨_, _, l0, by simp only [hleaf, if_true, allocZeroed, hfree]; rfl, if_pos hb,
          hfree ▸ mem_cons_self, hleaf, fun p i hi => ?_⟩
        rw [readEntry_writeEntry, foldl_write_readEntry]
        by_cases hp : p = l0
        · simp [hp, hi]
        · simp [hp, readEntry]
    · exact .inl ⟨.notMapped, by simp only [hleaf, Bool.false_eq_true, if_false]⟩
  · exact .inl ⟨.notMapped, by simp only [hb, Bool.false_eq_true, if_false]⟩

namespace SplitAt

variable {m m' : PhysMem} {va va' : Nat}
  (h : IsTree m root) (hs : SplitAt m m' root va mid l0)

include h hs

theorem fresh (ha : a.Bounded) (hp : m.tableAt root a = some p) : p ≠ l0 := fun he =>
  h.owned a p ha hp (he ▸ hs.free)

theorem readEntry (ha : a.Bounded) (hp : m.tableAt root a = some p) (hi : i < 512)
    (hne : ¬ (a = .mid (splitVa va).vpn2 ∧ i = (splitVa va).vpn1)) : m'.readEntry p i = m.readEntry p i := by
  rw [hs.reads p i hi, if_neg, if_neg (fresh h hs ha hp)]
  rintro ⟨rfl, rfl⟩
  exact hne ⟨h.apart a (.mid _) p ha (splitVa_vpn2_lt va) hp hs.table, rfl⟩

theorem tableAt (ha : a.Bounded) : m'.tableAt root a = if a = leafOf va then some l0 else m.tableAt root a := by
  have hmid : ∀ i < 512, m'.childAt root i = m.childAt root i := fun i hi =>
    childAt_congr (readEntry h hs (a := .root) trivial rfl hi (fun hc => Node.noConfusion hc.1))
  cases a with
  | root => rfl
  | mid i => exact (hmid i ha).trans (if_neg Node.noConfusion).symm
  | leaf i j =>
    simp only [tableAt, hmid i ha.1]
    by_cases hat : i = (splitVa va).vpn2 ∧ j = (splitVa va).vpn1
    · obtain ⟨rfl, rfl⟩ := hat
      have hl0 := h.free_aligned l0 hs.free
      have hentry : m'.readEntry mid (splitVa va).vpn1 = branch l0 := by
        rw [hs.reads mid _ ha.2, if_pos ⟨rfl, rfl⟩]
      rw [if_pos rfl, show m.childAt root (splitVa va).vpn2 = some mid from hs.table, bind_some,
        childAt, hentry, if_pos (isBranch_branch hl0), childPa_branch hl0]
    · rw [if_neg fun hc => hat (Node.leaf.inj hc)]
      cases hq : m.childAt root i with
      | none => rfl
      | some q => exact childAt_congr (readEntry h hs (a := .mid i) ha.1 hq ha.2 fun hc => hat ⟨Node.mid.inj hc.1, hc.2⟩)

theorem apart : TablesApart m' root := by
  intro a b p ha hb hap hbp
  rw [tableAt h hs ha] at hap
  rw [tableAt h hs hb] at hbp
  split at hap <;> split at hbp
  · next ha' hb' => exact ha'.trans hb'.symm
  · cases hap
    exact absurd rfl (fresh h hs hb hbp)
  · cases hbp
    exact absurd rfl (fresh h hs ha hap)
  · exact h.apart a b p ha hb hap hbp

section Range

variable (h2 : (splitVa va').vpn2 = (splitVa va).vpn2) (h1 : (splitVa va').vpn1 = (splitVa va).vpn1)

include h2 h1

theorem tableAt_range : m'.tableAt root (leafOf va') = some l0 := by
  rw [leafOf, h2, h1, tableAt h hs (a := .leaf _ _) ⟨splitVa_vpn2_lt va, splitVa_vpn1_lt va⟩, if_pos rfl]

omit h2 h1 in
theorem page (va' : Nat) : m'.readEntry l0 (splitVa va').vpn0 =
    leaf ((m.readEntry mid (splitVa va).vpn1).leafPa + BitVec.ofNat 64 ((splitVa va').vpn0 * pageSize))
      (m.readEntry mid (splitVa va).vpn1).perms := by
  rw [hs.reads l0 _ (splitVa_vpn0_lt va'), if_neg, if_pos rfl]
  rintro ⟨rfl, -⟩
  exact fresh h hs (a := .mid _) (splitVa_vpn2_lt va) hs.table rfl

omit h2 h1 in
theorem page_isLeaf (va' : Nat) : (m'.readEntry l0 (splitVa va').vpn0).isLeaf = true := by
  rw [page h hs]
  refine isLeaf_leaf (aligned_page _ _) ?_
  have huge := hs.huge
  simp only [isLeaf, Bool.and_eq_true, bne_iff_ne] at huge
  rw [rwx_perms]
  exact huge.2

/-- The walk to an address of the 2 MiB ended at the leaf and ends at its page. -/
theorem resolve_range : m'.resolve root va' = m.resolve root va' := by
  have hbefore : m.translation root va' = some (1, m.readEntry mid (splitVa va).vpn1) := by
    rw [← h1]
    exact translation_of_mid (h2 ▸ hs.table) (h1 ▸ hs.huge)
  have hmega := h.megapages _ _ mid (splitVa_vpn2_lt va) (splitVa_vpn1_lt va) hs.table hs.huge
  have hafter : m'.translation root va' = some (0, m'.readEntry l0 (splitVa va').vpn0) :=
    (translation_of_leafTable (tableAt_range h hs h2 h1)).trans (if_pos (page_isLeaf h hs va'))
  have hoff : va' % leafSize 1 = (splitVa va').vpn0 * pageSize + va' % leafSize 0 := by
    simp only [leafSize, pageSize, splitVa_vpn0]
    omega
  simp only [resolve, hbefore, hafter, bind_some, page h hs, hmega, if_true,
    leafPa_leaf (aligned_page _ _) _ (perms_known _), perms_leaf (aligned_page _ _) (perms_known _),
    hoff, BitVec.ofNat_add, BitVec.add_assoc]
  exact if_pos (aligned_iff.mp (aligned_page _ _))

end Range

end SplitAt

/-- In every well-formed tree, a split that succeeds leaves every address where it was, with the same
permissions; every page of the 2 MiB then has a leaf of its own, and can be unmapped without an effect on
another page; and a split that fails changes nothing. -/
theorem splitHugeLeaf_keeps_addresses {m m' : PhysMem} {root : Pa} {va : Nat} {r : Except MapError Unit}
    (h : IsTree m root) (hsplit : m.splitHugeLeaf root va = (m', r)) :
    (r = .ok () → (∀ va', m'.resolve root va' = m.resolve root va') ∧
      ∀ va', (splitVa va').vpn2 = (splitVa va).vpn2 → (splitVa va').vpn1 = (splitVa va).vpn1 →
        (∃ pte, m'.translation root va' = some (0, pte)) ∧
        ∃ m'' pa, m'.unmap root va' = (m'', .ok pa) ∧
          ∀ w, m''.resolve root w = if SamePage va' w then none else m'.resolve root w) ∧
    (∀ e, r = .error e → m' = m) := by
  rcases splitHugeLeaf_cases m root va with ⟨e, he⟩ | ⟨m₁, mid, l0, hok, hs⟩
  · cases hsplit.symm.trans he
    exact ⟨nofun, fun _ _ => rfl⟩
  cases hsplit.symm.trans hok
  refine ⟨fun _ => ⟨fun va' => ?_, fun va' h2 h1 => ⟨?_, ?_⟩⟩, nofun⟩
  · by_cases hat : (splitVa va').vpn2 = (splitVa va).vpn2 ∧ (splitVa va').vpn1 = (splitVa va).vpn1
    · exact hs.resolve_range h hat.1 hat.2
    have hb : Node.Bounded (leafOf va') :=
      ⟨splitVa_vpn2_lt va', splitVa_vpn1_lt va'⟩
    unfold resolve
    rw [translation_congr]
    · exact hs.readEntry h (a := .root) trivial rfl hb.1 fun hc => Node.noConfusion hc.1
    · exact fun p hp => hs.readEntry h (a := .mid _) hb.1 hp hb.2 fun hc => hat ⟨Node.mid.inj hc.1, hc.2⟩
    · exact fun p hp => hs.readEntry h hb hp (splitVa_vpn0_lt va') fun hc => Node.noConfusion hc.1
  · exact ⟨_, (translation_of_leafTable (hs.tableAt_range h h2 h1)).trans (if_pos (hs.page_isLeaf h va'))⟩
  · exact (hs.apart h).unmap (hs.tableAt_range h h2 h1) (hs.page_isLeaf h va')

/-- A root at `0x1000` with one table, which maps the first 2 MiB; one frame is free. -/
def oneMegapage : PhysMem where
  word p i := if p = 0x1000 ∧ i = 0 then branch 0x2000 else
    if p = 0x2000 ∧ i = 0 then leaf 0x200000 (r ||| w) else 0
  free := [0x3000]

theorem oneMegapage_childAt (h : oneMegapage.childAt p i = some q) : p = 0x1000 ∧ i = 0 ∧ q = 0x2000 := by
  unfold childAt readEntry oneMegapage at h
  by_cases hroot : p = 0x1000 ∧ i = 0
  · obtain ⟨rfl, rfl⟩ := hroot
    exact ⟨rfl, rfl, (some.inj h).symm⟩
  by_cases hmid : p = 0x2000 ∧ i = 0
  · obtain ⟨rfl, rfl⟩ := hmid
    cases h
  · simp only [hroot, hmid, if_false] at h
    cases h

theorem oneMegapage_tableAt (h : oneMegapage.tableAt 0x1000 a = some p) : a = .root ∧ p = 0x1000 ∨ a = .mid 0 ∧ p = 0x2000 := by
  cases a with
  | root => exact .inl ⟨rfl, (some.inj h).symm⟩
  | mid i =>
    obtain ⟨-, rfl, rfl⟩ := oneMegapage_childAt h
    exact .inr ⟨rfl, rfl⟩
  | leaf i j =>
    obtain ⟨q, hq, hp⟩ := bind_eq_some_iff.mp h
    obtain ⟨-, -, rfl⟩ := oneMegapage_childAt hq
    exact absurd (oneMegapage_childAt hp).1 (by decide)

theorem oneMegapage_isTree : IsTree oneMegapage 0x1000 where
  apart a b p _ _ ha hb := by
    rcases oneMegapage_tableAt ha with ⟨rfl, rfl⟩ | ⟨rfl, rfl⟩ <;>
      rcases oneMegapage_tableAt hb with ⟨rfl, h⟩ | ⟨rfl, h⟩ <;> first | rfl | exact absurd h (by decide)
  owned a p _ ha := by
    rcases oneMegapage_tableAt ha with ⟨-, rfl⟩ | ⟨-, rfl⟩ <;> decide
  free_aligned p hp := by
    obtain rfl := mem_singleton.mp hp
    decide
  megapages i j p _ _ hp hleaf := by
    obtain ⟨-, -, rfl⟩ := oneMegapage_childAt hp
    by_cases hj : j = 0
    · subst hj
      decide
    · have hzero : oneMegapage.readEntry 0x2000 j = 0 := by simp [readEntry, oneMegapage, hj]
      rw [hzero] at hleaf
      cases hleaf

theorem splitHugeLeaf_keeps_addresses_oneMegapage :
    (oneMegapage.splitHugeLeaf 0x1000 0x5000).1.resolve 0x1000 0x5123 = some (0x205123, r ||| w) := by
  have hok : (oneMegapage.splitHugeLeaf 0x1000 0x5000).2 = .ok () := by decide
  rw [((splitHugeLeaf_keeps_addresses oneMegapage_isTree (Prod.mk.eta).symm).1 hok).1]
  decide

end SnitchOs.Mem
