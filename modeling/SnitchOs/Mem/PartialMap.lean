import SnitchOs.Mem.Translate

/-!
# The page-table operations implement a partial map

`map`, `remap`, `unmap` and `split_huge_leaf` on a tree that starts as one empty root, over an allocator that may run
dry at any point of any operation. The tree invariant names the frame of every table and what every entry of a leaf
table holds; `translate` reads the latter, and each operation changes it at one page or nowhere. A leaf without R, W
and X is written like any other but read back as a branch, so `translate` does not find it.
-/

namespace SnitchOs.Mem

open List BitVec PtePerms Pte

/-! ### Leaf entries -/

namespace Pte

variable {pa : Pa} {perms : PtePerms}

variable (h : Aligned pa)
include h

theorem leafPa_leaf (perms : PtePerms) (hp : perms &&& 0b111110#64 = perms) : leafPa (leaf pa perms) = pa := by
  have hhigh : ∀ i, 6 ≤ i → perms.getLsbD i = false := by
    intro i hi
    have hmask : (0b111110#64).getLsbD i = false := by
      by_cases hlt : i < 64
      · interval_cases i <;> rfl
      · exact getLsbD_of_ge _ _ (not_lt.mp hlt)
    rw [← hp, getLsbD_and, hmask, Bool.and_false]
  apply eq_of_getLsbD_eq
  intro i hi
  simp only [leafPa, leaf, paToPtePpn, getLsbD_shiftLeft, getLsbD_ushiftRight, getLsbD_or]
  by_cases hlow : i < 12
  · simp [hlow, h.bit hlow]
  have hidx : 2 + (10 + (i - 12)) = i := by omega
  have hflag : ∀ f : Pte, f = v ∨ f = a ∨ f = d → f.getLsbD (10 + (i - 12)) = false := by
    have hlt : 10 + (i - 12) < 64 := by omega
    have hge : 10 ≤ 10 + (i - 12) := Nat.le_add_right _ _
    generalize 10 + (i - 12) = j at hlt hge
    rintro f (rfl | rfl | rfl) <;> interval_cases j <;> rfl
  rw [hflag v (.inl rfl), hflag a (.inr (.inl rfl)), hflag d (.inr (.inr rfl)), hhigh (10 + (i - 12)) (by omega), hidx]
  simp [hlow, hi]

theorem and_leaf (perms mask : PtePerms) (hm : mask &&& 0b111110#64 = mask) : leaf pa perms &&& mask = perms &&& mask := by
  apply eq_of_getLsbD_eq
  intro i hi
  simp only [leaf, paToPtePpn, getLsbD_and, getLsbD_or, getLsbD_ushiftRight]
  have hmask : mask.getLsbD i = (mask.getLsbD i && (0b111110#64).getLsbD i) := by
    rw [← getLsbD_and, hm]
  by_cases hlow : i < 6
  · rw [h.bit (by omega : 2 + i < 12), hmask]
    interval_cases i <;> simp [v, a, d]
  have hout : (0b111110#64).getLsbD i = false := by
    interval_cases i <;> rfl
  rw [hmask, hout]
  simp

theorem perms_leaf (hp : perms &&& 0b111110#64 = perms) : Pte.perms (leaf pa perms) = perms := by
  rw [Pte.perms, and_leaf h perms _ (by decide), hp]

theorem rwx_leaf (perms : PtePerms) : rwx (leaf pa perms) = perms &&& (r ||| w ||| x) :=
  and_leaf h perms _ (by decide)

theorem isLeaf_leaf (hp : perms &&& (r ||| w ||| x) ≠ 0#64) : isLeaf (leaf pa perms) = true := by
  simp [isLeaf, isValid_leaf, rwx_leaf h, hp]

omit h

def toLeaf (p : Pte) : Option Leaf := if p.isLeaf then some ⟨p.leafPa, p.perms⟩ else none

theorem toLeaf_invalid : toLeaf invalid = none := by decide

theorem toLeaf_of_not_valid (h : p.isValid = false) : toLeaf p = none := by
  simp [toLeaf, isLeaf, h]

theorem toLeaf_leaf (h : Aligned pa) (hp : perms &&& 0b111110#64 = perms) (hrwx : perms &&& (r ||| w ||| x) ≠ 0#64) :
    toLeaf (leaf pa perms) = some ⟨pa, perms⟩ := by
  rw [toLeaf, if_pos (isLeaf_leaf h hrwx), leafPa_leaf h perms hp, perms_leaf h hp]

end Pte

variable {tables : Node → Option Pa} {va : Nat} {q root : Pa}

/-! ### Walks through a tree -/

theorem PhysMem.walkExisting_eq {m : PhysMem} (hread : m.readEntry table i = (tables c).elim invalid branch)
    (haligned : ∀ q, tables c = some q → Aligned q) : m.walkExisting table i = (tables c).elim (.error .notMapped) .ok := by
  unfold PhysMem.walkExisting
  rw [hread]
  cases hc : tables c with
  | none => exact if_neg (by rw [Option.elim_none]; exact Bool.eq_false_iff.mp isBranch_zero)
  | some q => simp [isBranch_branch (haligned q hc), childPa_branch (haligned q hc)]

abbrev leafOf (va : Nat) : Node := .leaf (splitVa va).vpn2 (splitVa va).vpn1

abbrev entryOf (page : Nat → Nat → Nat → Pte) (va : Nat) : Pte :=
  page (splitVa va).vpn2 (splitVa va).vpn1 (splitVa va).vpn0

namespace TreeBelow

variable {m : PhysMem} {kernel : Pa → Prop}
  {root : Pa} {va : Nat}

theorem walkLeafTable (h : TreeBelow half m kernel tables page) (hroot : tables .root = some root)
    (hva : (splitVa va).vpn2 < half) : m.walkLeafTable root va = (tables (leafOf va)).elim (.error .notMapped) .ok := by
  unfold PhysMem.walkLeafTable
  rw [PhysMem.walkExisting_eq (h.reads .root root _ hroot hva) (h.aligned _)]
  cases hmid : tables (.mid (splitVa va).vpn2) with
  | none =>
    rw [h.rooted _ _ hmid]
    rfl
  | some q => exact PhysMem.walkExisting_eq (h.reads (.mid (splitVa va).vpn2) q _ hmid trivial) (h.aligned _)

theorem translate (h : TreeBelow half m kernel tables page) (hroot : tables .root = some root)
    (hva : (splitVa va).vpn2 < half) : m.translate root va = (entryOf page va).toLeaf := by
  unfold PhysMem.translate
  rw [h.walkLeafTable hroot hva]
  cases hleaf : tables (leafOf va) with
  | none =>
    rw [show entryOf page va = _ from h.unmapped _ _ _ hleaf]
    exact toLeaf_invalid.symm
  | some q =>
    simp only [Option.elim]
    rw [show m.readEntry q _ = _ from h.reads (leafOf va) q _ hleaf trivial]
    rfl

end TreeBelow

/-! ### The whole tree -/

/-- The addresses are on one page: they have the same three indices. -/
def SamePage (va va' : Nat) : Prop :=
  (splitVa va').vpn2 = (splitVa va).vpn2 ∧ (splitVa va').vpn1 = (splitVa va).vpn1 ∧
    (splitVa va').vpn0 = (splitVa va).vpn0

instance (va va' : Nat) : Decidable (SamePage va va') := inferInstanceAs (Decidable (_ ∧ _))

def setPage (page : Nat → Nat → Nat → Pte) (va : Nat) (pte : Pte) (i j l : Nat) : Pte :=
  if i = (splitVa va).vpn2 ∧ j = (splitVa va).vpn1 ∧ l = (splitVa va).vpn0 then pte else page i j l

theorem setPage_apply (page : Nat → Nat → Nat → Pte) (va : Nat) (pte : Pte) (va' : Nat) :
    entryOf (setPage page va pte) va' = if SamePage va va' then pte else entryOf page va' :=
  rfl

structure TableTree (m : PhysMem) (root : Pa) (tables : Node → Option Pa)
    (page : Nat → Nat → Nat → Pte) : Prop where
  tree : TreeBelow 512 m (fun _ => False) tables page
  rooted : tables .root = some root

namespace TableTree

variable {m : PhysMem} {root : Pa} {tables : Node → Option Pa} {page : Nat → Nat → Nat → Pte}

variable (h : TableTree m root tables page)
include h

theorem walkLeafTable (va : Nat) : m.walkLeafTable root va = (tables (leafOf va)).elim (.error .notMapped) .ok :=
  h.tree.walkLeafTable h.rooted (splitVa_vpn2_lt va)

theorem translate (va : Nat) : m.translate root va = (entryOf page va).toLeaf :=
  h.tree.translate h.rooted (splitVa_vpn2_lt va)

theorem writePage (hq : tables (leafOf va) = some q) (pte : Pte) :
    TableTree (m.writeEntry q (splitVa va).vpn0 pte) root tables (setPage page va pte) :=
  ⟨h.tree.write_page hq _ pte, h.rooted⟩

theorem withFree (hnodup : free.Nodup) (haligned : ∀ p ∈ free, Aligned p)
    (howned : ∀ a p, tables a = some p → p ∉ free) : TableTree { m with free := free } root tables page where
  tree := ⟨h.tree.aligned, howned, h.tree.apart, h.tree.inj, h.tree.reads, h.tree.rooted, h.tree.unmapped,
    hnodup, haligned, fun _ _ => id⟩
  rooted := h.rooted

end TableTree

/-! ### Operations -/

/-- What a page may be mapped to: a frame, with a combination of the R, W, X, U and G bits. -/
structure Target where
  pa : Pa
  perms : PtePerms
  aligned : Aligned pa
  known : perms &&& 0b111110#64 = perms

/-- Some access is allowed, so that the entry is a leaf to the hardware. -/
def Target.accessible (t : Target) : Bool := t.perms &&& (r ||| w ||| x) != 0#64

inductive TableOp
  | map (va : Nat) (target : Target)
  | remap (va : Nat) (target : Target)
  | unmap (va : Nat)
  | splitHugeLeaf (va : Nat)

namespace TableOp

/-- The page frame `unmap` answers with, nothing for the others. -/
abbrev Result := Except MapError (Option Pa)

def apply (root : Pa) (m : PhysMem) : TableOp → PhysMem × Result
  | map va t => ((m.map root va t.pa t.perms).1, (m.map root va t.pa t.perms).2.map fun _ => none)
  | remap va t => ((m.remap root va t.pa t.perms).1, (m.remap root va t.pa t.perms).2.map fun _ => none)
  | unmap va => ((m.unmap root va).1, (m.unmap root va).2.map some)
  | splitHugeLeaf va => ((m.splitHugeLeaf root va).1, (m.splitHugeLeaf root va).2.map fun _ => none)

/-- The operation, with an allocator that has `frames` frames left for it. -/
def applyWith (root : Pa) (m : PhysMem) (s : TableOp × Nat) : PhysMem × Result :=
  let r := s.1.apply root { m with free := m.free.take s.2 }
  ({ r.1 with free := r.1.free ++ m.free.drop s.2 }, r.2)

def accessible : TableOp → Bool
  | map _ t | remap _ t => t.accessible
  | unmap _ | splitHugeLeaf _ => true

end TableOp

def PhysMem.afterOps (root : Pa) (m : PhysMem) (ops : List (TableOp × Nat)) : PhysMem :=
  ops.foldl (fun m s => (TableOp.applyWith root m s).1) m

/-- An empty root, and frames to hand out that are distinct and not the root. -/
structure PhysMem.EmptyRoot (m : PhysMem) (root : Pa) : Prop where
  aligned : Aligned root
  empty : ∀ i < 512, m.word root i = 0
  not_free : root ∉ m.free
  nodup : m.free.Nodup
  free_aligned : ∀ p ∈ m.free, Aligned p

/-! ### The partial map -/

/-- How a partial map from addresses to pages changes: a failing operation changes nothing, and a
successful one one page. Splitting a huge leaf does not succeed where there is none. -/
inductive MapStep (before after : Nat → Option Leaf) : TableOp → TableOp.Result → Prop
  | failed (op : TableOp) (e : MapError) (h : ∀ va, after va = before va) : MapStep before after op (.error e)
  | mapped {va : Nat} {t : Target} (hnew : before va = none)
      (h : ∀ va', after va' = if SamePage va va' then some ⟨t.pa, t.perms⟩ else before va') :
      MapStep before after (.map va t) (.ok none)
  | remapped {va : Nat} {t : Target} (hold : before va ≠ none)
      (h : ∀ va', after va' = if SamePage va va' then some ⟨t.pa, t.perms⟩ else before va') :
      MapStep before after (.remap va t) (.ok none)
  | unmapped {va : Nat} {leaf : Leaf} (hold : before va = some leaf)
      (h : ∀ va', after va' = if SamePage va va' then none else before va') :
      MapStep before after (.unmap va) (.ok (some leaf.pa))

namespace TableTree

variable {m : PhysMem} {root : Pa} {tables : Node → Option Pa} {page : Nat → Nat → Nat → Pte}

/-- The tree after an operation has the pages `page'`, and its new tables come from the free list. -/
def After (m m' : PhysMem) (root : Pa) (tables : Node → Option Pa) (page' : Nat → Nat → Nat → Pte) : Prop :=
  ∃ tables', TableTree m' root tables' page' ∧ Grows m.free tables tables' ∧ m'.free.Sublist m.free

variable (h : TableTree m root tables page)
include h

theorem After.same : After m m root tables page :=
  ⟨tables, h, .refl _ _, .refl _⟩

theorem After.write (hq : tables (leafOf va) = some q) (pte : Pte) :
    After m (m.writeEntry q (splitVa va).vpn0 pte) root tables (setPage page va pte) :=
  ⟨tables, h.writePage hq pte, .refl _ _, .refl _⟩

theorem entry_eq (hq : tables (leafOf va) = some q) : m.readEntry q (splitVa va).vpn0 = entryOf page va :=
  h.tree.reads (leafOf va) q _ hq trivial

theorem After.translate_set (ha : After m m' root tables (setPage page va pte)) (va' : Nat) :
    m'.translate root va' = if SamePage va va' then pte.toLeaf else m.translate root va' := by
  obtain ⟨tables', h', -, -⟩ := ha
  rw [h'.translate va', h.translate va', setPage_apply]
  split <;> rfl

theorem After.translate_same (ha : After m m' root tables page) (va' : Nat) : m'.translate root va' = m.translate root va' := by
  obtain ⟨tables', h', -, -⟩ := ha
  rw [h'.translate va', h.translate va']

/-- `map` fails without a change to the pages, or writes one that was not mapped. -/
theorem map (va : Nat) (pa : Pa) (perms : PtePerms) : (∃ e, (m.map root va pa perms).2 = .error e ∧
      After m (m.map root va pa perms).1 root tables page) ∨ ((m.map root va pa perms).2 = .ok () ∧
      (entryOf page va).isValid = false ∧ After m (m.map root va pa perms).1 root tables (setPage page va (leaf pa perms))) := by
  obtain ⟨m', tables', r, hmap, -, hi, hcase⟩ := h.tree.map_cases h.rooted (splitVa_vpn2_lt va) pa perms
  rw [hmap]
  have hroot := hi.grows.keep _ _ h.rooted
  rcases hcase with ⟨ht, hr⟩ | ⟨rfl, hnew, ht⟩
  · rcases hr with ⟨rfl, -⟩ | ⟨-, rfl⟩ <;> exact .inl ⟨_, rfl, tables', ⟨ht, hroot⟩, hi.grows, hi.sublist⟩
  · exact .inr ⟨rfl, hnew, tables', ⟨ht, hroot⟩, hi.grows, hi.sublist⟩

theorem remap (va : Nat) (pa : Pa) (perms : PtePerms) : (∃ e, m.remap root va pa perms = (m, .error e)) ∨
    ((m.remap root va pa perms).2 = .ok () ∧ (entryOf page va).isLeaf = true ∧
      After m (m.remap root va pa perms).1 root tables (setPage page va (leaf pa perms))) := by
  unfold PhysMem.remap
  rw [h.walkLeafTable va]
  cases hleaf : tables (leafOf va) with
  | none => exact .inl ⟨_, rfl⟩
  | some q =>
    simp only [Option.elim, h.entry_eq hleaf]
    split
    · next hl => exact .inr ⟨rfl, hl, After.write h hleaf _⟩
    · exact .inl ⟨_, rfl⟩

theorem unmap (va : Nat) : (∃ e, m.unmap root va = (m, .error e)) ∨
    ((m.unmap root va).2 = .ok (entryOf page va).leafPa ∧ (entryOf page va).isLeaf = true ∧
      After m (m.unmap root va).1 root tables (setPage page va invalid)) := by
  unfold PhysMem.unmap
  rw [h.walkLeafTable va]
  cases hleaf : tables (leafOf va) with
  | none => exact .inl ⟨_, rfl⟩
  | some q =>
    simp only [Option.elim, h.entry_eq hleaf]
    split
    · next hl => exact .inr ⟨rfl, hl, After.write h hleaf _⟩
    · exact .inl ⟨_, rfl⟩

theorem splitHugeLeaf (va : Nat) : m.splitHugeLeaf root va = (m, .error .notMapped) := by
  unfold PhysMem.splitHugeLeaf
  rw [PhysMem.walkExisting_eq (h.tree.reads .root root _ h.rooted (splitVa_vpn2_lt va)) (h.tree.aligned _)]
  cases hmid : tables (.mid (splitVa va).vpn2) with
  | none => rfl
  | some q =>
    have hentry : (m.readEntry q (splitVa va).vpn1).isLeaf = false := by
      rw [show m.readEntry q _ = _ from h.tree.reads (.mid (splitVa va).vpn2) q _ hmid trivial, Node.content_child rfl]
      cases hleaf : tables (leafOf va) with
      | none => exact isLeaf_zero
      | some l => exact isLeaf_branch (h.tree.aligned _ l hleaf)
    simp [Option.elim, hentry, Bool.false_eq_true]

/-! ### One operation -/

theorem apply (op : TableOp) : ∃ page', After m (op.apply root m).1 root tables page' := by
  cases op with
  | map va t =>
    rcases h.map va t.pa t.perms with ⟨e, -, ha⟩ | ⟨-, -, ha⟩
    · exact ⟨_, ha⟩
    · exact ⟨_, ha⟩
  | remap va t =>
    rcases h.remap va t.pa t.perms with ⟨e, he⟩ | ⟨-, -, ha⟩
    · refine ⟨page, ?_⟩
      simp only [TableOp.apply, he]
      exact After.same h
    · exact ⟨_, ha⟩
  | unmap va =>
    rcases h.unmap va with ⟨e, he⟩ | ⟨-, -, ha⟩
    · refine ⟨page, ?_⟩
      simp only [TableOp.apply, he]
      exact After.same h
    · exact ⟨_, ha⟩
  | splitHugeLeaf va =>
    refine ⟨page, ?_⟩
    simp only [TableOp.apply, h.splitHugeLeaf va]
    exact After.same h

theorem mapStep (hop : op.accessible = true) :
    MapStep (m.translate root) ((op.apply root m).1.translate root) op (op.apply root m).2 := by
  have some_of_isLeaf : ∀ {p : Pte}, p.isLeaf = true → p.toLeaf = some ⟨p.leafPa, p.perms⟩ := fun hl =>
    if_pos hl
  have target : ∀ {t : Target}, t.accessible = true → (leaf t.pa t.perms).toLeaf = some ⟨t.pa, t.perms⟩ :=
    fun ht => toLeaf_leaf (Target.aligned _) (Target.known _) (by simpa [Target.accessible] using ht)
  cases op with
  | map va t =>
    rcases h.map va t.pa t.perms with ⟨e, he, ha⟩ | ⟨hok, hnew, ha⟩
    · simp only [TableOp.apply, he]
      exact .failed _ e (ha.translate_same h)
    · simp only [TableOp.apply, hok]
      refine .mapped ((h.translate va).trans (toLeaf_of_not_valid hnew)) fun va' => ?_
      rw [ha.translate_set h va', target hop]
  | remap va t =>
    rcases h.remap va t.pa t.perms with ⟨e, he⟩ | ⟨hok, hold, ha⟩
    · simp only [TableOp.apply, he]
      exact .failed _ e fun _ => rfl
    simp only [TableOp.apply, hok]
    refine .remapped ?_ fun va' => ?_
    · rw [h.translate va, some_of_isLeaf hold]
      exact Option.some_ne_none _
    · rw [ha.translate_set h va', target hop]
  | unmap va =>
    rcases h.unmap va with ⟨e, he⟩ | ⟨hok, hold, ha⟩
    · simp only [TableOp.apply, he]
      exact .failed _ e fun _ => rfl
    · simp only [TableOp.apply, hok]
      refine .unmapped ((h.translate va).trans (some_of_isLeaf hold)) fun va' => ?_
      rw [ha.translate_set h va', toLeaf_invalid]
  | splitHugeLeaf va =>
    simp only [TableOp.apply, h.splitHugeLeaf va]
    exact .failed _ _ fun _ => rfl

/-! ### An allocator that runs dry -/

theorem limit (frames : Nat) : TableTree { m with free := m.free.take frames } root tables page :=
  h.withFree (h.tree.free_nodup.sublist (take_sublist _ _)) (fun p hp => h.tree.free_aligned p (mem_of_mem_take hp))
    (fun a p ha hp => h.tree.owned a p ha (mem_of_mem_take hp))

theorem unlimit (ha : After { m with free := m.free.take frames } m' root tables page') :
    ∃ tables', TableTree { m' with free := m'.free ++ m.free.drop frames } root tables' page' := by
  obtain ⟨tables', h', hg, hsub⟩ := ha
  have hsplit : (m.free.take frames ++ m.free.drop frames).Nodup := by
    rw [take_append_drop]
    exact h.tree.free_nodup
  have hdisj := (nodup_append.mp hsplit).2.2
  refine ⟨tables', h'.withFree ?_ ?_ ?_⟩
  · exact hsplit.sublist (hsub.append_right _)
  · intro p hp
    rcases mem_append.mp hp with hp | hp
    · exact h'.tree.free_aligned p hp
    · exact h.tree.free_aligned p (mem_of_mem_drop hp)
  · intro a p htab hp
    rcases mem_append.mp hp with hp | hp
    · exact h'.tree.owned a p htab hp
    -- a new table is one of the frames handed out, an old one was not free
    rcases hg.origin a p htab with hold | hnew
    · exact h.tree.owned a p hold (mem_of_mem_drop hp)
    · exact hdisj p hnew p hp rfl

theorem applyWith (s : TableOp × Nat) : ∃ tables' page', TableTree (TableOp.applyWith root m s).1 root tables' page' := by
  obtain ⟨page', ha⟩ := (h.limit s.2).apply s.1
  obtain ⟨tables', h'⟩ := h.unlimit ha
  exact ⟨tables', page', h'⟩

end TableTree

/-! ### Every tree -/

theorem PhysMem.EmptyRoot.tree (h : m.EmptyRoot root) :
    TableTree m root (Function.update (fun _ => none) .root (some root)) (fun _ _ _ => invalid) := by
  refine ⟨⟨?_, ?_, fun _ _ _ => id, ?_, ?_, fun _ _ _ => rfl, fun _ _ _ _ => rfl, h.nodup, h.free_aligned,
    fun _ _ => id⟩, Function.update_self ..⟩
  · intro a p ha
    exact (eq_root_of_fresh ha).2 ▸ h.aligned
  · intro a p ha
    exact (eq_root_of_fresh ha).2 ▸ h.not_free
  · intro a b p ha hb
    exact (eq_root_of_fresh ha).1.trans (eq_root_of_fresh hb).1.symm
  · intro a p i ha hu
    obtain ⟨rfl, rfl⟩ := eq_root_of_fresh ha
    exact h.empty i hu

theorem TableTree.afterOps (h : TableTree m root tables page) (ops : List (TableOp × Nat)) :
    ∃ tables' page', TableTree (m.afterOps root ops) root tables' page' := by
  induction ops generalizing m tables page with
  | nil => exact ⟨tables, page, h⟩
  | cons s ops ih =>
    obtain ⟨tables', page', h'⟩ := h.applyWith s
    exact ih h'

/-- In every tree that any sequence of operations makes of an empty root, whenever the allocator runs dry:
an operation that asks for some access steps the partial map. -/
theorem page_tables_implement_partial_map {m : PhysMem} {root : Pa} (h : m.EmptyRoot root)
    (ops : List (TableOp × Nat)) (s : TableOp × Nat) (hop : s.1.accessible = true) :
    MapStep ((m.afterOps root ops).translate root)
      ((TableOp.applyWith root (m.afterOps root ops) s).1.translate root) s.1
      (TableOp.applyWith root (m.afterOps root ops) s).2 := by
  obtain ⟨tables, page, ht⟩ := h.tree.afterOps ops
  exact (ht.limit s.2).mapStep hop

def threeFrames : PhysMem where
  word _ _ := 0
  free := [0x2000, 0x3000]

theorem threeFrames_emptyRoot : threeFrames.EmptyRoot 0x1000 where
  aligned := by decide
  empty := fun _ _ => rfl
  not_free := by decide
  nodup := by decide
  free_aligned := by
    intro p hp
    simp only [threeFrames, mem_cons, not_mem_nil, or_false] at hp
    rcases hp with rfl | rfl <;> decide

def readable : Target where
  pa := 0x4000
  perms := r ||| u
  aligned := by decide
  known := by decide

theorem page_tables_implement_partial_map_readable :
    (TableOp.applyWith 0x1000 threeFrames (.map 0x5000 readable, 2)).2 = .ok none ∧
      MapStep (threeFrames.translate 0x1000)
        ((TableOp.applyWith 0x1000 threeFrames (.map 0x5000 readable, 2)).1.translate 0x1000)
        (.map 0x5000 readable) (TableOp.applyWith 0x1000 threeFrames (.map 0x5000 readable, 2)).2 :=
  ⟨by decide, page_tables_implement_partial_map threeFrames_emptyRoot [] (.map 0x5000 readable, 2) (by decide)⟩

/-- A page of a segment with none of the flags R, W and X: `perms_for` answers U alone. -/
def inaccessible : Target where
  pa := 0x4000
  perms := u
  aligned := by decide
  known := by decide

/-- Mapping it succeeds, and there is no translation; nor can it be unmapped, or mapped again. -/
theorem mapped_page_without_translation :
    threeFrames.EmptyRoot 0x1000 ∧ ∃ m, (TableOp.map 0x5000 inaccessible).apply 0x1000 threeFrames = (m, .ok none) ∧
      m.translate 0x1000 0x5000 = none ∧ (m.unmap 0x1000 0x5000).2 = .error .notMapped ∧
      (m.map 0x1000 0x5000 0x6000 (r ||| u)).2 = .error .alreadyMapped := by
  have hok : ((TableOp.map 0x5000 inaccessible).apply 0x1000 threeFrames).2 = .ok none := by decide
  refine ⟨threeFrames_emptyRoot, _, Prod.ext rfl hok, ?_⟩
  decide

end SnitchOs.Mem
