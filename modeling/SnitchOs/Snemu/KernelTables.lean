import SnitchOs.Mem.PartialMap
import SnitchOs.Snemu.Mmu

/-!
# The kernel's tables under the emulated walk

The kernel's operations keep a table tree in layers: tables of one level lead to tables of the next, and a leaf is a
page of its level. On such a tree in RAM the emulator's walk and the kernel's read the same entries. They differ in
what they take for a leaf: the kernel also takes one that is only writable.
-/

namespace SnitchOs.Snemu

open Mem LittleEndian Function List Option BitVec Mem.Pte PtePerms
open Mem.Pte (isLeaf branch childPa isBranch leaf isValid)

/-! ### Entries -/

/-- Where the page of a leaf of a level may be. -/
def PageOf (level : Nat) (pa : Pa) : Prop := pa.toNat % 2 ^ (12 + 9 * level) = 0 ∧ pa.toNat < 2 ^ 56

variable {pa c p root table : Pa} {e : U64} {perms : PtePerms} {l va i : Nat}
  {mids frames : List Pa} {m : PhysMem}

theorem PageOf.aligned (h : PageOf level pa) : Aligned pa := by
  rw [aligned_iff]
  have hd : 2 ^ 12 ∣ 2 ^ (12 + 9 * level) := Nat.pow_dvd_pow 2 (Nat.le_add_right _ _)
  exact Nat.mod_eq_zero_of_dvd (hd.trans (Nat.dvd_of_mod_eq_zero h.1))

theorem ppn_eq (h : leafPa e = pa) (hlt : pa.toNat < 2 ^ 56) : ((e >>> 10) &&& ppnMask) <<< 12 = pa := by
  subst h
  apply eq_of_toNat_eq
  have hmask : ((e >>> 10) &&& ppnMask).toNat = e.toNat / 2 ^ 10 % 2 ^ 44 := by
    rw [toNat_and, show ppnMask.toNat = 2 ^ 44 - 1 from rfl, Nat.and_two_pow_sub_one_eq_mod,
      toNat_ushiftRight, Nat.shiftRight_eq_div_pow]
  have hleaf : (leafPa e).toNat = e.toNat / 2 ^ 10 * 2 ^ 12 % 2 ^ 64 := by
    rw [leafPa, toNat_shiftLeft, toNat_ushiftRight, Nat.shiftRight_eq_div_pow, Nat.shiftLeft_eq]
  rw [toNat_shiftLeft, hmask, Nat.shiftLeft_eq]
  omega

theorem vpn_toNat (va : U64) (level : Nat) : (vpn va level).toNat = va.toNat / 2 ^ (12 + 9 * level) % 512 := by
  rw [vpn, toNat_and, show BitVec.toNat (0x1ff : U64) = 2 ^ 9 - 1 from rfl, Nat.and_two_pow_sub_one_eq_mod,
    toNat_ushiftRight, Nat.shiftRight_eq_div_pow]

theorem and_v_eq_zero (e : U64) : e &&& Pte.v = 0 ↔ isValid e = false := by
  simp [isValid, show Pte.v = v from rfl]

/-! ### The layers of a table tree -/

/-- What the walk of the emulator reads as the kernel does: a readable or executable page. -/
def Readable (perms : PtePerms) : Prop := perms &&& 0b111110#64 = perms ∧ perms &&& (r ||| x) ≠ 0

/-- An entry of a table of a level; `level` says which frames are tables. -/
inductive Good (level : Pa → Option Nat) (l : Nat) : U64 → Prop
  | invalid {e : U64} : isValid e = false → Good level l e
  | branch {c : Pa} {l' : Nat} : l = l' + 1 → level c = some l' → Good level l (branch c)
  | leaf {pa : Pa} {perms : PtePerms} : PageOf l pa → Readable perms → Good level l (leaf pa perms)

/-- The tables under a root by level, and the frames the allocator has left. -/
structure Layered (frames : List Pa) (root : Pa) (level : Pa → Option Nat) (m : PhysMem) : Prop where
  root : level root = some 2
  frame : ∀ p l, level p = some l → p ∈ frames
  aligned : ∀ p ∈ frames, PageOf 0 p
  free : ∀ p ∈ m.free, level p = none ∧ p ∈ frames
  nodup : m.free.Nodup
  entries : ∀ p l, level p = some l → ∀ i < 512, Good level l (m.word p i)

def LaidOut (frames : List Pa) (m : PhysMem) (ram : Memory) : Prop :=
  ∀ p ∈ frames, ∀ i < 512, ram.read .d (p + BitVec.ofNat 64 i * 8) = .ok (m.word p i)

/-! ### The walks agree -/

/-- What the emulator makes of a leaf the kernel's walk ends at. -/
def asWalked (va : U64) (found : Nat × U64) : Walked where
  level := found.1
  pte := found.2
  pa := ((((found.2 >>> 10) &&& ppnMask) <<< 12) &&& ~~~offsetMask found.1) ||| (va &&& offsetMask found.1)

def kernelWalk (m : PhysMem) (va : Nat) : Nat → Pa → Option (Nat × U64)
  | 0, _ => none
  | level + 1, table =>
    let e := m.readEntry table (va / 2 ^ (12 + 9 * level) % 512)
    if e.isLeaf then some (level, e)
    else if e.isBranch then kernelWalk m va level e.childPa
    else none

theorem kernelWalk_eq (m : PhysMem) (root : Pa) (va : Nat) : kernelWalk m va 3 root = m.translation root va := by
  simp only [kernelWalk, PhysMem.translation, splitVa_vpn2, splitVa_vpn1, splitVa_vpn0]
  split
  · rfl
  split
  · split
    · rfl
    split
    · simp
    · rfl
  · rfl

theorem walkExisting_eq (m : PhysMem) (table : Pa) (i : Nat) :
    m.walkExisting table i = if (m.readEntry table i).isBranch then .ok (m.readEntry table i).childPa
      else .error .notMapped := rfl

theorem translate_eq (m : PhysMem) (root : Pa) (va : Nat) : m.translate root va = (m.translation root va).bind fun found =>
      if found.1 = 0 then some ⟨Mem.Pte.leafPa found.2, Mem.Pte.perms found.2⟩ else none := by
  unfold PhysMem.translate PhysMem.walkLeafTable PhysMem.translation
  simp only [walkExisting_eq]
  by_cases htop : (m.readEntry root (splitVa va).vpn2).isBranch = true
  · simp only [htop, Mem.Pte.isLeaf_of_isBranch htop, if_true, Bool.false_eq_true, if_false]
    generalize m.readEntry root (splitVa va).vpn2 = top
    by_cases hmid : (m.readEntry top.childPa (splitVa va).vpn1).isBranch = true
    · simp only [hmid, Mem.Pte.isLeaf_of_isBranch hmid, if_true, Bool.false_eq_true, if_false]
      split <;> rfl
    · simp only [hmid, Bool.false_eq_true, if_false]
      split <;> rfl
  · simp only [htop, Bool.false_eq_true, if_false]
    split <;> rfl

section
variable {frames : List Pa} {root : Pa} {level : Pa → Option Nat} {m : PhysMem}

theorem and_rx_leaf (h : Aligned pa) (perms : PtePerms) : leaf pa perms &&& (Pte.r ||| Pte.x) = perms &&& (r ||| x) :=
  and_leaf h perms _ (by decide)

theorem and_rx_branch (h : Aligned c) : branch c &&& (Pte.r ||| Pte.x) = 0 := by
  have hrwx := rwx_branch h
  have hsub : (r ||| w ||| x) &&& (Pte.r ||| Pte.x) = Pte.r ||| Pte.x := by decide
  rw [← hsub, ← BitVec.and_assoc, show branch c &&& _ = 0 from hrwx]
  simp

theorem isLeaf_of_readable (h : Aligned pa) (hp : Readable perms) : isLeaf (leaf pa perms) = true := by
  refine isLeaf_leaf h fun h0 => hp.2 ?_
  have hsub : (r ||| w ||| x) &&& (r ||| x) =
      r ||| x := by decide
  rw [← hsub, ← BitVec.and_assoc, h0]
  simp

variable (h : Layered frames root level m)
include h

theorem Layered.pageOf (hp : level p = some l) : PageOf 0 p :=
  h.aligned p (h.frame p l hp)

theorem Layered.read (hr : LaidOut frames m ram) (va : U64) (hp : level p = some l) (k : Nat) :
    ram.read .d (p + vpn va k * 8) = .ok (m.readEntry p (va.toNat / 2 ^ (12 + 9 * k) % 512)) := by
  have hlt : va.toNat / 2 ^ (12 + 9 * k) % 512 < 512 := Nat.mod_lt _ (by decide)
  have hv : vpn va k = BitVec.ofNat 64 (va.toNat / 2 ^ (12 + 9 * k) % 512) := by
    rw [← vpn_toNat, ofNat_toNat, setWidth_eq]
  rw [hv]
  exact hr p (h.frame p l hp) _ hlt

/-- An entry of a table reads alike on both sides: as nothing, as a page, or as the same table of the next level. -/
theorem Layered.entry (he : Good level l e) : (e &&& Pte.v = 0 ∧ isLeaf e = false ∧ isBranch e = false) ∨
    (e &&& Pte.v ≠ 0 ∧ e &&& (Pte.r ||| Pte.x) ≠ 0 ∧ isLeaf e = true) ∨
    (e &&& Pte.v ≠ 0 ∧ e &&& (Pte.r ||| Pte.x) = 0 ∧ isLeaf e = false ∧ isBranch e = true ∧
      ((e >>> 10) &&& ppnMask) <<< 12 = childPa e ∧ ∃ l', l = l' + 1 ∧ level (childPa e) = some l') := by
  cases he with
  | invalid hv => exact .inl ⟨(and_v_eq_zero _).2 hv, by simp [isLeaf, hv], by simp [isBranch, hv]⟩
  | leaf hpa hperms =>
    refine .inr (.inl ⟨?_, ?_, isLeaf_of_readable hpa.aligned hperms⟩)
    · rw [Ne, and_v_eq_zero, isValid_leaf]
      exact Bool.true_eq_false_eq_False
    · rw [and_rx_leaf hpa.aligned]
      exact hperms.2
  | @branch c l' hl hc =>
    have hpage := h.pageOf hc
    have hchild : childPa (branch c) = c := childPa_branch hpage.aligned
    refine .inr (.inr ⟨?_, and_rx_branch hpage.aligned, isLeaf_branch hpage.aligned,
      isBranch_branch hpage.aligned, ?_, l', hl, ?_⟩)
    · rw [Ne, and_v_eq_zero, isValid_branch]
      exact Bool.true_eq_false_eq_False
    · rw [hchild]
      exact ppn_eq hchild hpage.2
    · rw [hchild]
      exact hc

theorem Layered.child (he : Good level l e) (hb : isBranch e = true) : ∃ l', l = l' + 1 ∧ level (childPa e) = some l' := by
  obtain ⟨-, -, hb'⟩ | ⟨-, -, hl⟩ | ⟨-, -, -, -, -, hchild⟩ := h.entry he
  · simp [hb] at hb'
  · simp [isLeaf_of_isBranch hb] at hl
  · exact hchild

theorem walkFrom_succ (hr : LaidOut frames m ram) (va : U64) (hp : level p = some l)
    (hnext : ∀ c l', l = l' + 1 → level c = some l' → walkFrom ram va l c = (kernelWalk m va.toNat l c).map (asWalked va)) :
    walkFrom ram va (l + 1) p = (kernelWalk m va.toNat (l + 1) p).map (asWalked va) := by
  have hgood : Good level l (m.readEntry p (va.toNat / 2 ^ (12 + 9 * l) % 512)) :=
    h.entries p l hp _ (Nat.mod_lt _ (by decide))
  rw [walkFrom, h.read hr va hp, kernelWalk]
  generalize m.readEntry p _ = e at hgood
  obtain ⟨hv, hleaf, hbranch⟩ | ⟨hv, hrx, hleaf⟩ | ⟨hv, hrx, hleaf, hbranch, hppn, l', hl, hc⟩ := h.entry hgood
  · simp [hv, hleaf, hbranch]
  · simp only [hv, hrx, hleaf, if_false, if_true, ne_eq, not_false_eq_true]
    rfl
  · simp only [hv, hrx, hleaf, hbranch, hppn, if_false, ne_eq, not_true_eq_false, Bool.false_eq_true, if_true]
    exact hnext _ l' hl hc

theorem walkFrom_eq (hr : LaidOut frames m ram) (va : U64) (l : Nat) (hp : level p = some l) :
    walkFrom ram va (l + 1) p = (kernelWalk m va.toNat (l + 1) p).map (asWalked va) := by
  induction l generalizing p with
  | zero => exact walkFrom_succ h hr va hp (fun _ _ hl => nomatch hl)
  | succ l ih =>
    refine walkFrom_succ h hr va hp fun c l' hl hc => ?_
    obtain rfl : l = l' := by omega
    exact ih hc

omit h

theorem satpFor_table (h : PageOf 0 root) : (satpFor root &&& ppnMask) <<< 12 = root := by
  have hmode : satpFor root &&& ppnMask = (root >>> 12) &&& ppnMask := by
    have hdistrib : (8#64 <<< 60 ||| root >>> 12) &&& ppnMask =
        (8#64 <<< 60 &&& ppnMask) ||| (root >>> 12 &&& ppnMask) := by
      rw [BitVec.and_comm, and_or_distrib_left, BitVec.and_comm, BitVec.and_comm ppnMask]
    rw [satpFor, hdistrib, show 8#64 <<< 60 &&& ppnMask = 0#64 from by decide, zero_or]
  rw [hmode]
  apply eq_of_toNat_eq
  have h0 : root.toNat % 2 ^ 12 = 0 := h.1
  have hlt := h.2
  rw [toNat_shiftLeft, toNat_and, show ppnMask.toNat = 2 ^ 44 - 1 from rfl,
    Nat.and_two_pow_sub_one_eq_mod, toNat_ushiftRight, Nat.shiftRight_eq_div_pow, Nat.shiftLeft_eq]
  omega

theorem walk_eq (h : Layered frames root level m) (hr : LaidOut frames m ram) (va : U64) :
    walk (satpFor root) va ram = (m.translation root va.toNat).map (asWalked va) := by
  rw [walk, satpFor_table (h.pageOf h.root), ← kernelWalk_eq]
  exact walkFrom_eq h hr va 2 h.root

theorem Layered.kernelWalk (h : Layered frames root level m) (l : Nat)
    (hp : level p = some l) (hw : kernelWalk m va (l + 1) p = some (k, e)) : Good level k e ∧ isLeaf e = true := by
  induction l generalizing p with
  | zero =>
    have hgood := h.entries p 0 hp _ (Nat.mod_lt (va / 2 ^ (12 + 9 * 0)) (by decide))
    rw [Snemu.kernelWalk] at hw
    split at hw
    · rename_i hleaf
      cases hw
      exact ⟨hgood, hleaf⟩
    · split at hw <;> cases hw
  | succ l ih =>
    have hgood := h.entries p _ hp _ (Nat.mod_lt (va / 2 ^ (12 + 9 * (l + 1))) (by decide))
    rw [Snemu.kernelWalk] at hw
    split at hw
    · rename_i hleaf
      cases hw
      exact ⟨hgood, hleaf⟩
    split at hw
    · rename_i hbranch
      obtain ⟨l', hl, hc⟩ := h.child hgood hbranch
      obtain rfl : l = l' := by omega
      exact ih hc hw
    · cases hw

/-! ### The operations keep the layers -/

/-- More frames are tables. -/
def Extends (level level' : Pa → Option Nat) : Prop := ∀ p l, level p = some l → level' p = some l

theorem Extends.refl (level : Pa → Option Nat) : Extends level level := fun _ _ h => h

theorem Extends.trans {a b c : Pa → Option Nat} (h : Extends a b) (h' : Extends b c) : Extends a c :=
  fun p l hp => h' p l (h p l hp)

theorem Good.mono (hle : Extends level level') (h : Good level l e) : Good level' l e := by
  cases h with
  | invalid hv => exact .invalid hv
  | branch hl hc => exact .branch hl (hle _ _ hc)
  | leaf hpa hperms => exact .leaf hpa hperms

theorem good_zero (level : Pa → Option Nat) (l : Nat) : Good level l 0 := .invalid (by decide)

variable (h : Layered frames root level m)
include h

theorem Layered.write (he : ∀ l, level p = some l → Good level l e) : Layered frames root level (m.writeEntry p i e) := by
  refine { h with entries := fun q l hq j hj => ?_ }
  show Good level l (if q = p ∧ j = i then e else m.word q j)
  split
  · rename_i hsame
    exact he l (hsame.1 ▸ hq)
  · exact h.entries q l hq j hj

theorem Layered.alloc (ha : m.allocZeroed = some (new, m')) (l : Nat) :
    Extends level (update level new (some l)) ∧ Layered frames root (update level new (some l)) m' := by
  unfold PhysMem.allocZeroed at ha
  split at ha
  · cases ha
  rename_i p rest hfree
  cases ha
  obtain ⟨hnone, hin⟩ := h.free new (by rw [hfree]; exact mem_cons_self)
  have hnodup := h.nodup
  rw [hfree, nodup_cons] at hnodup
  have hext : Extends level (update level new (some l)) := by
    intro q k hq
    rw [update_of_ne]
    · exact hq
    rintro rfl
    rw [hnone] at hq
    cases hq
  refine ⟨hext, hext _ _ h.root, ?_, h.aligned, ?_, hnodup.2, ?_⟩
  · intro q k hq
    by_cases hqn : q = new
    · rwa [hqn]
    rw [update_of_ne hqn] at hq
    exact h.frame q k hq
  · intro q hq
    have hqn : q ≠ new := fun he => hnodup.1 (he ▸ hq)
    rw [update_of_ne hqn]
    exact h.free q (by rw [hfree]; exact mem_cons_of_mem _ hq)
  · intro q k hq j hj
    dsimp only
    split
    · exact good_zero _ _
    rename_i hqn
    rw [update_of_ne hqn] at hq
    exact (h.entries q k hq j hj).mono hext

theorem Layered.walkOrInstall (ht : level table = some (l + 1)) (hi : i < 512) :
    ∃ level', Extends level level' ∧ Layered frames root level' (m.walkOrInstall table i).1 ∧
      ∀ c, (m.walkOrInstall table i).2 = .ok c → level' c = some l := by
  have hgood : Good level (l + 1) (m.readEntry table i) := h.entries table _ ht i hi
  unfold PhysMem.walkOrInstall
  dsimp only
  split
  · exact ⟨level, .refl _, h, nofun⟩
  split
  · rename_i hbranch
    refine ⟨level, .refl _, h, ?_⟩
    rintro c ⟨⟩
    obtain ⟨l', hl, hc⟩ := h.child hgood hbranch
    obtain rfl : l = l' := by omega
    exact hc
  · split
    · exact ⟨level, .refl _, h, nofun⟩
    rename_i new m' ha
    obtain ⟨hext, hm'⟩ := h.alloc ha l
    refine ⟨_, hext, hm'.write fun k hk => ?_, ?_⟩
    · obtain rfl : l + 1 = k := some.inj ((hext _ _ ht).symm.trans hk)
      exact .branch rfl (update_self ..)
    · rintro c ⟨⟩
      exact update_self ..

theorem Layered.map (hpa : PageOf 0 pa)
    (hp : Readable perms) : ∃ level', Extends level level' ∧ Layered frames root level' (m.map root va pa perms).1 := by
  obtain ⟨level₁, hext₁, h₁, hmid⟩ := h.walkOrInstall h.root (splitVa_vpn2_lt va)
  unfold PhysMem.map
  dsimp only
  split
  · rename_i he
    rw [he] at h₁
    exact ⟨level₁, hext₁, h₁⟩
  rename_i m₁ mid he
  rw [he] at h₁ hmid
  obtain ⟨level₂, hext₂, h₂, hleaf⟩ := h₁.walkOrInstall (hmid mid rfl) (splitVa_vpn1_lt va)
  split
  · rename_i he'
    rw [he'] at h₂
    exact ⟨level₂, hext₁.trans hext₂, h₂⟩
  rename_i m₂ table he'
  rw [he'] at h₂ hleaf
  split
  · exact ⟨level₂, hext₁.trans hext₂, h₂⟩
  refine ⟨level₂, hext₁.trans hext₂, h₂.write fun l hl => ?_⟩
  obtain rfl : 0 = l := some.inj ((hleaf table rfl).symm.trans hl)
  exact .leaf hpa hp

theorem Layered.walkExisting (ht : level table = some (l + 1)) (hi : i < 512)
    (hw : m.walkExisting table i = .ok c) : level c = some l := by
  have hgood : Good level (l + 1) (m.readEntry table i) := h.entries table _ ht i hi
  rw [walkExisting_eq] at hw
  split at hw
  · rename_i hbranch
    cases hw
    obtain ⟨l', hl, hc⟩ := h.child hgood hbranch
    obtain rfl : l = l' := by omega
    exact hc
  · cases hw

theorem Layered.walkLeafTable (hw : m.walkLeafTable root va = .ok c) : level c = some 0 := by
  unfold PhysMem.walkLeafTable at hw
  split at hw
  · cases hw
  rename_i mid hmid
  exact h.walkExisting (h.walkExisting h.root (splitVa_vpn2_lt va) hmid) (splitVa_vpn1_lt va) hw

theorem Layered.remap (hpa : PageOf 0 pa) (hp : Readable perms) : Layered frames root level (m.remap root va pa perms).1 := by
  unfold PhysMem.remap
  split
  · exact h
  rename_i table hw
  split
  · refine h.write fun l hl => ?_
    obtain rfl : 0 = l := some.inj ((h.walkLeafTable hw).symm.trans hl)
    exact .leaf hpa hp
  · exact h

theorem Layered.unmap (va : Nat) : Layered frames root level (m.unmap root va).1 := by
  unfold PhysMem.unmap
  split
  · exact h
  dsimp only
  split
  · exact h.write fun l _ => good_zero _ _
  · exact h

omit h in
theorem PageOf.sub (h : PageOf 1 pa) (hi : i < 512) : PageOf 0 (pa + BitVec.ofNat 64 (i * pageSize)) := by
  have h0 : pa.toNat % 2 ^ 21 = 0 := h.1
  have hlt := h.2
  have hadd : (pa + BitVec.ofNat 64 (i * pageSize)).toNat = pa.toNat + i * 4096 := by
    rw [toNat_add, toNat_ofNat, show pageSize = 4096 from rfl]
    omega
  refine ⟨?_, ?_⟩
  · rw [hadd]
    omega
  · rw [hadd]
    omega

theorem Layered.foldl_write (hp : level p = some l) (e : Nat → U64) (idxs : List Nat) (he : ∀ i ∈ idxs, Good level l (e i)) :
    Layered frames root level (idxs.foldl (fun m i => m.writeEntry p i (e i)) m) := by
  induction idxs generalizing m with
  | nil => exact h
  | cons i idxs ih =>
    refine ih (h.write fun k hk => ?_) fun j hj => he j (mem_cons_of_mem _ hj)
    obtain rfl : l = k := some.inj (hp.symm.trans hk)
    exact he i mem_cons_self

theorem Layered.leaf (he : Good level l e)
    (hleaf : isLeaf e = true) : PageOf l (Mem.Pte.leafPa e) ∧ Readable (Mem.Pte.perms e) := by
  cases he with
  | invalid hv => simp [isLeaf, hv] at hleaf
  | branch _ hc => simp [Mem.Pte.isLeaf_branch (h.pageOf hc).aligned] at hleaf
  | leaf hpa hperms =>
    rw [Mem.Pte.leafPa_leaf hpa.aligned _ hperms.1, Mem.Pte.perms_leaf hpa.aligned hperms.1]
    exact ⟨hpa, hperms⟩

theorem Layered.splitHugeLeaf (va : Nat) :
    ∃ level', Extends level level' ∧ Layered frames root level' (m.splitHugeLeaf root va).1 := by
  unfold PhysMem.splitHugeLeaf
  split
  · exact ⟨level, .refl _, h⟩
  rename_i mid hmid
  have hlevel := h.walkExisting h.root (splitVa_vpn2_lt va) hmid
  have hgood : Good level 1 (m.readEntry mid (splitVa va).vpn1) := h.entries mid 1 hlevel _ (splitVa_vpn1_lt va)
  dsimp only
  split
  · rename_i hleaf
    split
    · exact ⟨level, .refl _, h⟩
    rename_i l0 m' ha
    obtain ⟨hext, hm'⟩ := h.alloc ha 0
    have hl0 : update level l0 (some 0) l0 = some 0 := update_self ..
    refine ⟨_, hext, (hm'.foldl_write hl0 _ _ fun i hi => ?_).write fun k hk => ?_⟩
    · obtain ⟨hpa, hperms⟩ := h.leaf hgood hleaf
      exact .leaf (hpa.sub (mem_range.1 hi)) hperms
    · obtain rfl : 1 = k := some.inj ((hext _ _ hlevel).symm.trans hk)
      exact .branch rfl hl0
  · exact ⟨level, .refl _, h⟩

theorem Layered.map2mib (hmid : level mid = some 1)
    (hpa : PageOf 1 pa) (hp : Readable perms) : Layered frames root level (m.map2mib root mid va pa perms).1 := by
  have hroot : Layered frames root level (if (m.readEntry root (splitVa va).vpn2).isValid then m
      else m.writeEntry root (splitVa va).vpn2 (branch mid)) := by
    split
    · exact h
    refine h.write fun l hl => ?_
    obtain rfl : 2 = l := some.inj (h.root.symm.trans hl)
    exact .branch rfl hmid
  unfold PhysMem.map2mib
  dsimp only
  split
  · exact h
  generalize (if (m.readEntry root (splitVa va).vpn2).isValid then m
    else m.writeEntry root (splitVa va).vpn2 (branch mid)) = m' at hroot
  split
  · exact hroot
  split
  · exact hroot
  refine hroot.write fun l hl => ?_
  obtain rfl : 1 = l := some.inj (hmid.symm.trans hl)
  exact .leaf hpa hp

end

/-! ### Trees the kernel builds -/

/-- One empty root and some empty tables set aside for 2 MiB leaves, in frames of their own. -/
structure Start (root : Pa) (mids : List Pa) (m : PhysMem) : Prop where
  frames : ∀ p ∈ root :: mids ++ m.free, PageOf 0 p
  nodup : (root :: mids ++ m.free).Nodup
  empty : ∀ p ∈ root :: mids, ∀ i < 512, m.word p i = 0

/-- What a sequence of operations makes of `m₀`, if it maps only what `grant` allows. A table for 2 MiB leaves is one
that was set aside or the one the root already has there; the allocator may hand frames to others at any time. -/
inductive Built (grant : Pa → PtePerms → Prop) (root : Pa) (mids : List Pa) (m₀ : PhysMem) : PhysMem → Prop
  | start : Built grant root mids m₀ m₀
  | taken {m : PhysMem} {free : List Pa} : Built grant root mids m₀ m → free.Sublist m.free →
      Built grant root mids m₀ { m with free := free }
  | map {m : PhysMem} {va : Nat} {pa : Pa} {perms : PtePerms} : Built grant root mids m₀ m →
      pa.toNat % 2 ^ 12 = 0 → perms &&& 0b111110#64 = perms → grant pa perms →
      Built grant root mids m₀ (m.map root va pa perms).1
  | remap {m : PhysMem} {va : Nat} {pa : Pa} {perms : PtePerms} : Built grant root mids m₀ m →
      pa.toNat % 2 ^ 12 = 0 → perms &&& 0b111110#64 = perms → grant pa perms →
      Built grant root mids m₀ (m.remap root va pa perms).1
  | unmap {m : PhysMem} {va : Nat} : Built grant root mids m₀ m → Built grant root mids m₀ (m.unmap root va).1
  | map2mib {m : PhysMem} {mid : Pa} {va : Nat} {pa : Pa} {perms : PtePerms} : Built grant root mids m₀ m →
      (mid ∈ mids ∨ Aligned mid ∧ m.readEntry root (splitVa va).vpn2 = branch mid) →
      pa.toNat % 2 ^ 21 = 0 → perms &&& 0b111110#64 = perms → grant pa perms →
      Built grant root mids m₀ (m.map2mib root mid va pa perms).1
  | splitHugeLeaf {m : PhysMem} {va : Nat} : Built grant root mids m₀ m →
      Built grant root mids m₀ (m.splitHugeLeaf root va).1

/-- A permission of any kind. -/
def SomeAccess (_ : Pa) (perms : PtePerms) : Prop := perms &&& (r ||| w ||| x) ≠ 0

/-- A page the emulated walk can end at: readable or executable, at an address an entry has room for. -/
def Walkable (pa : Pa) (perms : PtePerms) : Prop := perms &&& (r ||| x) ≠ 0 ∧ pa.toNat < 2 ^ 56

theorem Start.layered (h : Start root mids m) : Layered (root :: mids ++ m.free) root
      (fun p => if p = root then some 2 else if p ∈ mids then some 1 else none) m where
  root := if_pos rfl
  frame := by
    intro p l hp
    split at hp
    · simp_all
    split at hp
    · simp_all
    · cases hp
  aligned := h.frames
  free := by
    intro p hp
    have hd := (nodup_append.1 h.nodup).2.2
    refine ⟨?_, mem_append_right _ hp⟩
    rw [if_neg, if_neg]
    · exact fun hm => hd p (mem_cons_of_mem _ hm) p hp rfl
    rintro rfl
    exact hd p mem_cons_self p hp rfl
  nodup := (nodup_append.1 h.nodup).2.1
  entries := by
    intro p l hp i hi
    have hin : p ∈ root :: mids := by
      split at hp
      · simp_all
      split at hp
      · simp_all
      · cases hp
    rw [h.empty p hin i hi]
    exact good_zero _ _

theorem Layered.taken (h : Layered frames root level m) {free : List Pa}
    (hs : free.Sublist m.free) : Layered frames root level { m with free := free } :=
  { h with
    free := fun p hp => h.free p (hs.subset hp)
    nodup := h.nodup.sublist hs }

/-- The levels of a tree the kernel builds; the tables set aside stay what they are. -/
theorem Built.layered (hs : Start root mids m₀)
    (h : Built Walkable root mids m₀ m) : ∃ level, Layered (root :: mids ++ m₀.free) root level m ∧
      ∀ p ∈ mids, level p = some 1 := by
  have hroot : root ∉ mids := by
    have hnodup := (nodup_append.1 hs.nodup).1
    rw [nodup_cons] at hnodup
    exact hnodup.1
  induction h with
  | start =>
    refine ⟨_, hs.layered, fun p hp => ?_⟩
    rw [if_neg, if_pos hp]
    rintro rfl
    exact hroot hp
  | taken _ hsub ih =>
    obtain ⟨level, hl, hm⟩ := ih
    exact ⟨level, hl.taken hsub, hm⟩
  | map _ ha hp hg ih =>
    obtain ⟨level, hl, hm⟩ := ih
    obtain ⟨level', hext, hl'⟩ := hl.map ⟨ha, hg.2⟩ ⟨hp, hg.1⟩
    exact ⟨level', hl', fun p hp => hext _ _ (hm p hp)⟩
  | remap _ ha hp hg ih =>
    obtain ⟨level, hl, hm⟩ := ih
    exact ⟨level, hl.remap ⟨ha, hg.2⟩ ⟨hp, hg.1⟩, hm⟩
  | unmap _ ih =>
    obtain ⟨level, hl, hm⟩ := ih
    exact ⟨level, hl.unmap _, hm⟩
  | @map2mib _ _ va _ _ _ hmid ha hp hg ih =>
    obtain ⟨level, hl, hm⟩ := ih
    refine ⟨level, hl.map2mib ?_ ⟨ha, hg.2⟩ ⟨hp, hg.1⟩, hm⟩
    obtain hin | ⟨haligned, hentry⟩ := hmid
    · exact hm _ hin
    refine hl.walkExisting hl.root (splitVa_vpn2_lt va) ?_
    rw [walkExisting_eq, hentry, isBranch_branch haligned, childPa_branch haligned]
    rfl
  | splitHugeLeaf _ ih =>
    obtain ⟨level, hl, hm⟩ := ih
    obtain ⟨level', hext, hl'⟩ := hl.splitHugeLeaf _
    exact ⟨level', hl', fun p hp => hext _ _ (hm p hp)⟩

def Walked.page (w : Walked) : Pa := w.pa &&& ~~~0xfff

theorem page_asWalked (h : PageOf 0 (leafPa e)) (va : U64) : (asWalked va (0, e)).page = leafPa e := by
  have hppn : ((e >>> 10) &&& ppnMask) <<< 12 = leafPa e := ppn_eq rfl h.2
  have hmask : offsetMask 0 = 0xfff := by decide
  have haligned : leafPa e &&& 0xfff#64 = 0#64 := h.aligned
  show (_ &&& ~~~offsetMask 0 ||| va &&& offsetMask 0) &&& ~~~0xfff = _
  rw [hppn, hmask]
  generalize leafPa e = pa at haligned
  apply eq_of_getLsbD_eq
  intro i hi
  have hbit := congrArg (getLsbD · i) haligned
  simp only [getLsbD_and, getLsbD_or, getLsbD_not, getLsbD_zero] at hbit ⊢
  revert hbit
  cases pa.getLsbD i <;> cases (0xfff#64).getLsbD i <;> simp [hi]

theorem bit_of_checkPerms {user sum : Bool}
    (h : checkPerms pte access user sum = true) : (pte &&& 0b111110) &&& access.bit ≠ 0 := by
  have hbit : pte &&& access.bit ≠ 0 := by
    simp only [checkPerms, Bool.and_eq_true, bne_iff_ne] at h
    exact h.2
  have hsub : 0b111110 &&& access.bit = access.bit := by cases access <;> decide
  rwa [BitVec.and_assoc, hsub]

/-- The kernel's translation of an address is the emulated walk that ends at a 4 KiB leaf, and an access the emulator
allows there is one the kernel granted. -/
theorem kernel_tables_as_walked {root : Pa} {mids : List Pa} {m₀ m : PhysMem} {ram : Memory}
    (hs : Start root mids m₀) (h : Built Walkable root mids m₀ m)
    (hr : LaidOut (root :: mids ++ m₀.free) m ram) (va : U64) :
    (∀ leaf, m.translate root va.toNat = some leaf ↔
      ∃ w, walk (satpFor root) va ram = some w ∧ w.level = 0 ∧ w.page = leaf.pa ∧ w.pte &&& 0b111110 = leaf.perms) ∧
    ∀ w access user sum, walk (satpFor root) va ram = some w → w.level = 0 →
      checkPerms w.pte access user sum = true →
      ∃ leaf, m.translate root va.toNat = some leaf ∧ leaf.perms &&& access.bit ≠ 0 := by
  obtain ⟨level, hl, -⟩ := h.layered hs
  have hpage : ∀ e, m.translation root va.toNat = some (0, e) → PageOf 0 (Mem.Pte.leafPa e) := by
    intro e he
    rw [← kernelWalk_eq] at he
    obtain ⟨hgood, hleaf⟩ := hl.kernelWalk 2 hl.root he
    exact (hl.leaf hgood hleaf).1
  rw [walk_eq hl hr, translate_eq]
  generalize hfound : m.translation root va.toNat = found at hpage
  constructor
  · rintro ⟨pa, perms⟩
    cases found with
    | none => simp
    | some found =>
      obtain ⟨k, e⟩ := found
      simp only [bind_some, map_some, some.injEq, exists_eq_left']
      by_cases hk : k = 0
      · subst hk
        rw [page_asWalked (hpage e rfl)]
        simp [asWalked, Mem.Pte.perms]
      · simp [hk, asWalked]
  · intro w access user sum hw h0 hcheck
    obtain ⟨⟨k, e⟩, rfl, rfl⟩ := map_eq_some_iff.1 hw
    obtain rfl : k = 0 := h0
    exact ⟨⟨Mem.Pte.leafPa e, Mem.Pte.perms e⟩, rfl, bit_of_checkPerms hcheck⟩

/-! ### A layout -/

/-- RAM that holds the frames of `m`. -/
def layout (m : PhysMem) (size : Nat) (h : size < 2 ^ 63) : Memory where
  size := size
  sizeLt := h
  byte := fun i =>
    (toBytes 8 (m.word (BitVec.ofNat 64 (0x80000000 + i / 4096 * 4096)) (i % 4096 / 8)).toNat).getD (i % 8) 0
  highWater := size
  scramble := none

theorem layout_read (m : PhysMem) (h : size < 2 ^ 63) (haddr : addr.toNat = 0x80000000 + raw)
    (hend : raw + 8 ≤ size) : (layout m size h).read .d addr =
      .ok (BitVec.ofNat 64 (ofBytes ((List.range 8).map fun k => (layout m size h).byte (raw + k)))) := by
  have hraw : (addr - ramBase).toNat = raw := by
    rw [toNat_sub, haddr, show ramBase.toNat = 0x80000000 from rfl]
    omega
  have hoffset : (layout m size h).rawOffset addr 8 = .ok raw := by
    rw [Memory.rawOffset, hraw]
    exact if_pos ⟨show 0x80000000 ≤ addr.toNat by omega, hend⟩
  have hspan : (layout m size h).span addr 8 = .ok raw := by
    rw [Memory.span, hoffset]
    exact if_pos hend
  have hbytes : (layout m size h).readBytes addr 8 = .ok ((layout m size h).slice raw 8) := by
    rw [Memory.readBytes, show (layout m size h).needsSplit addr 8 = false from rfl, hspan]
    rfl
  rw [Memory.read, show Width.d.len = 8 from rfl, hbytes]
  rfl

theorem laidOut_layout (m : PhysMem) (h : size < 2 ^ 63)
    (hf : ∀ p ∈ frames, p.toNat % 2 ^ 12 = 0 ∧ 0x80000000 ≤ p.toNat ∧ p.toNat + 4096 ≤ 0x80000000 + size) :
    LaidOut frames m (layout m size h) := by
  intro p hp i hi
  obtain ⟨halign, hbase, hend⟩ := hf p hp
  have haddr : (p + BitVec.ofNat 64 i * 8).toNat = 0x80000000 + (p.toNat - 0x80000000 + i * 8) := by
    show (p.toNat + i % 2 ^ 64 * 8 % 2 ^ 64) % 2 ^ 64 = _
    omega
  have hbytes : (List.range 8).map (fun k => (layout m size h).byte (p.toNat - 0x80000000 + i * 8 + k)) =
      toBytes 8 (m.word p i).toNat := by
    apply ext_getElem
    · simp
    intro k hk hk'
    rw [length_toBytes] at hk'
    simp only [getElem_map, getElem_range, layout]
    have hframe : BitVec.ofNat 64 (0x80000000 + (p.toNat - 0x80000000 + i * 8 + k) / 4096 * 4096) = p := by
      apply eq_of_toNat_eq
      rw [toNat_ofNat]
      omega
    rw [hframe, show (p.toNat - 0x80000000 + i * 8 + k) % 4096 / 8 = i by omega,
      show (p.toNat - 0x80000000 + i * 8 + k) % 8 = k by omega, getD_eq_getElem]
  rw [layout_read m h haddr (by omega), hbytes, ofBytes_toBytes]
  rw [Nat.mod_eq_of_lt (by omega), ofNat_toNat, setWidth_eq]

def fourFrames : PhysMem := ⟨fun _ _ => 0, [0x80001000, 0x80002000, 0x80003000]⟩

theorem fourFrames_start : Start 0x80000000 [] fourFrames where
  frames := by simp [fourFrames, PageOf]
  nodup := by decide
  empty := fun _ _ _ _ => rfl

def onePage (perms : PtePerms) : PhysMem := (fourFrames.map 0x80000000 0x1000 0x80003000 perms).1

def onePageRam (perms : PtePerms) : Memory := layout (onePage perms) 0x4000 (by decide)

theorem onePage_laidOut (perms : PtePerms) : LaidOut (0x80000000 :: [] ++ fourFrames.free) (onePage perms) (onePageRam perms) :=
  laidOut_layout _ _ (by simp [fourFrames])

theorem kernel_tables_as_walked_readable :
    ∃ w, walk (satpFor 0x80000000) 0x1234 (onePageRam r) = some w ∧ w.level = 0 ∧
      w.page = 0x80003000 ∧ w.pte &&& 0b111110 = r :=
  ((kernel_tables_as_walked fourFrames_start
    (.map .start (by decide) (by decide) ⟨by decide, by decide⟩) (onePage_laidOut r) 0x1234).1
      ⟨0x80003000, r⟩).1 (by decide)

/-- A page that is only writable: the kernel finds it, the emulated walk faults. -/
theorem write_only_page_not_walked :
    Start 0x80000000 [] fourFrames ∧ Built SomeAccess 0x80000000 [] fourFrames (onePage w) ∧
      LaidOut (0x80000000 :: [] ++ fourFrames.free) (onePage w) (onePageRam w) ∧
      (onePage w).translate 0x80000000 0x1000 = some ⟨0x80003000, w⟩ ∧
      walk (satpFor 0x80000000) 0x1000 (onePageRam w) = none :=
  ⟨fourFrames_start, .map .start (by decide) (by decide) (by unfold SomeAccess; decide), onePage_laidOut _,
    by decide, by decide⟩

end SnitchOs.Snemu
