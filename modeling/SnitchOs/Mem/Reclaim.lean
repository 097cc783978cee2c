import SnitchOs.Mem.PartialMap
import Mathlib.Data.List.Nodup

/-!
# Reclaiming an address space

`free_user_tree` finds the frames of an address space by walking its tables again, not from a record of what was taken
for it. The record is kept beside the model: which frames became tables, and which frame each page was mapped to. What
the walk frees is compared with it, for every address space that `map_in` builds while other code takes, writes and
returns frames.
-/

namespace SnitchOs.Mem

open List Pte

variable {p : Pa} {i j : Nat} {m : PhysMem}

/-! ### The walk -/

namespace PhysMem

variable (m : PhysMem)

/-- The frames `free` is called with, in this order. -/
def freeUserTree (root : Pa) : List Pa :=
  ((List.range 256).flatMap fun vpn2 =>
    let e2 := m.readEntry root vpn2
    if e2.isBranch then
      ((List.range 512).flatMap fun vpn1 =>
        let e1 := m.readEntry e2.childPa vpn1
        if e1.isBranch then
          ((List.range 512).filterMap fun vpn0 =>
            let e0 := m.readEntry e1.childPa vpn0
            if e0.isLeaf then some e0.leafPa else none) ++ [e1.childPa]
        else []) ++ [e2.childPa]
    else []) ++ [root]

/-- Frame `p` is reached through entry `i` of the root: a table, a page, or part of a huge page. -/
def Under (root : Pa) (i : Nat) (p : Pa) : Prop :=
  let e2 := m.readEntry root i
  (e2.isLeaf ∧ ∃ k < 512 * 512, p = e2.leafPa + BitVec.ofNat 64 (k * pageSize)) ∨
  e2.isBranch ∧ (p = e2.childPa ∨ ∃ j < 512,
    let e1 := m.readEntry e2.childPa j
    (e1.isLeaf ∧ ∃ k < 512, p = e1.leafPa + BitVec.ofNat 64 (k * pageSize)) ∨
    e1.isBranch ∧ (p = e1.childPa ∨ ∃ l < 512,
      let e0 := m.readEntry e1.childPa l
      e0.isLeaf ∧ p = e0.leafPa))

/-- Reached through the shared high half and in no other way. -/
def OnlyHigh (root p : Pa) : Prop :=
  p ≠ root ∧ (∃ i, 256 ≤ i ∧ i < 512 ∧ m.Under root i p) ∧ ∀ i < 256, ¬ m.Under root i p

theorem under_of_mem_freeUserTree (h : p ∈ m.freeUserTree root) : p = root ∨ ∃ i < 256, m.Under root i p := by
  rcases mem_append.mp h with h | h
  · obtain ⟨i, hi, h⟩ := mem_flatMap.mp h
    refine .inr ⟨i, mem_range.mp hi, .inr ?_⟩
    dsimp only at h
    split at h
    · next hb =>
      refine ⟨hb, ?_⟩
      rcases mem_append.mp h with h | h
      · obtain ⟨j, hj, h⟩ := mem_flatMap.mp h
        refine .inr ⟨j, mem_range.mp hj, .inr ?_⟩
        split at h
        · next hb' =>
          refine ⟨hb', ?_⟩
          rcases mem_append.mp h with h | h
          · obtain ⟨l, hl, h⟩ := mem_filterMap.mp h
            refine .inr ⟨l, mem_range.mp hl, ?_⟩
            split at h
            · next hleaf => exact ⟨hleaf, (Option.some.inj h).symm⟩
            · exact absurd h.symm (Option.some_ne_none _)
          · exact .inl (mem_singleton.mp h)
        · exact absurd h not_mem_nil
      · exact .inl (mem_singleton.mp h)
    · exact absurd h not_mem_nil
  · exact .inl (mem_singleton.mp h)

end PhysMem

/-! ### Places in the tree -/

/-- Where a frame can sit: as a table, or as the page of an entry. -/
inductive Place
  | table (a : Node)
  | page (vpn2 vpn1 vpn0 : Nat)

namespace Place

def underLeaf (i j : Nat) : List Place := (List.range 512).map (page i j) ++ [table (.leaf i j)]

def underMid (i : Nat) : List Place := (List.range 512).flatMap (underLeaf i) ++ [table (.mid i)]

def all : List Place := (List.range 256).flatMap underMid ++ [table .root]

theorem mem_underLeaf : x ∈ underLeaf i j ↔ (∃ l < 512, x = page i j l) ∨ x = table (.leaf i j) := by
  simp [underLeaf, eq_comm]

theorem mem_underMid : x ∈ underMid i ↔ (∃ j < 512, x ∈ underLeaf i j) ∨ x = table (.mid i) := by
  simp [underMid]

theorem mem_all : x ∈ all ↔ (∃ i < 256, x ∈ underMid i) ∨ x = table .root := by
  simp [all]

theorem nodup_underLeaf (i j : Nat) : (underLeaf i j).Nodup := by
  refine nodup_append.mpr ⟨nodup_range.map ?_, nodup_singleton _, ?_⟩
  · intro l l' h
    cases h
    rfl
  · intro x hx y hy
    obtain ⟨l, -, rfl⟩ := mem_map.mp hx
    rw [mem_singleton.mp hy]
    exact Place.noConfusion

/-- Lists for different indices share nothing, as every place in one has its index. -/
theorem nodup_flatMap_range (index : Place → Nat)
    (hnodup : ∀ i, (f i).Nodup) (hindex : ∀ i, ∀ x ∈ f i, index x = i) : ((List.range n).flatMap f).Nodup := by
  refine nodup_flatMap.mpr ⟨fun i _ => hnodup i, nodup_range.imp ?_⟩
  intro i i' hne x hx hx'
  exact hne ((hindex i x hx).symm.trans (hindex i' x hx'))

/-- The place's index in the root, and in the mid table. -/
def vpn2 : Place → Nat
  | table .root => 0
  | table (.mid i) | table (.leaf i _) | page i _ _ => i

def vpn1 : Place → Nat
  | table .root | table (.mid _) => 0
  | table (.leaf _ j) | page _ j _ => j

theorem vpn_underLeaf (hx : x ∈ underLeaf i j) : x.vpn2 = i ∧ x.vpn1 = j ∧ x ≠ table (.mid i) ∧ x ≠ table .root := by
  rcases mem_underLeaf.mp hx with ⟨l, -, rfl⟩ | rfl <;> simp [vpn2, vpn1]

theorem vpn_underMid (hx : x ∈ underMid i) : x.vpn2 = i ∧ x ≠ table .root := by
  rcases mem_underMid.mp hx with ⟨j, -, hx⟩ | rfl
  · exact ⟨(vpn_underLeaf hx).1, (vpn_underLeaf hx).2.2.2⟩
  · simp [vpn2]

theorem nodup_underMid (i : Nat) : (underMid i).Nodup := by
  refine nodup_append.mpr ⟨nodup_flatMap_range vpn1 (nodup_underLeaf i) fun j x hx => (vpn_underLeaf hx).2.1,
    nodup_singleton _, ?_⟩
  intro x hx y hy
  obtain ⟨j, -, hx⟩ := mem_flatMap.mp hx
  rw [mem_singleton.mp hy]
  exact (vpn_underLeaf hx).2.2.1

theorem nodup_all : all.Nodup := by
  refine nodup_append.mpr ⟨nodup_flatMap_range vpn2 nodup_underMid fun i x hx => (vpn_underMid hx).1, nodup_singleton _, ?_⟩
  intro x hx y hy
  obtain ⟨i, -, hx⟩ := mem_flatMap.mp hx
  rw [mem_singleton.mp hy]
  exact (vpn_underMid hx).2

/-- The frame at a place, as the walk sees it. -/
def frame (tables : Node → Option Pa) (page : Nat → Nat → Nat → Pte) : Place → Option Pa
  | .table a => tables a
  | .page i j l => (page i j l).toLeaf.map (·.pa)

end Place

theorem UserTree.freeUserTree_eq {kernel : Pa → Prop} (h : UserTree m kernel tables page)
    (hroot : tables .root = some root) : m.freeUserTree root = Place.all.filterMap (Place.frame tables page) := by
  have hleaf : ∀ i j, (Place.underLeaf i j).filterMap (Place.frame tables page) =
      (tables (.leaf i j)).elim [] fun q =>
        ((List.range 512).filterMap fun l => (page i j l).toLeaf.map (·.pa)) ++ [q] := by
    intro i j
    rw [Place.underLeaf, filterMap_append, filterMap_map]
    cases hq : tables (.leaf i j) with
    | some q => simp [Place.frame, hq, Function.comp_def]
    | none =>
      have hnone : ∀ l, (page i j l).toLeaf = none := fun l => by
        rw [h.unmapped i j l hq]
        exact toLeaf_invalid
      simp [Place.frame, hq, Function.comp_def, hnone]
  have hmid : ∀ i, (Place.underMid i).filterMap (Place.frame tables page) =
      (tables (.mid i)).elim [] fun q =>
        ((List.range 512).flatMap fun j => (Place.underLeaf i j).filterMap (Place.frame tables page)) ++ [q] := by
    intro i
    rw [Place.underMid, filterMap_append, filterMap_flatMap]
    cases hq : tables (.mid i) with
    | some q => simp [Place.frame, hq]
    | none =>
      have hnone : ∀ j, (Place.underLeaf i j).filterMap (Place.frame tables page) = [] := fun j => by
        rw [hleaf i j, h.rooted i j hq]
        rfl
      simp [Place.frame, hq, hnone]
  rw [Place.all, filterMap_append, filterMap_flatMap]
  have hlast : [Place.table .root].filterMap (Place.frame tables page) = [root] := by
    simp [Place.frame, hroot]
  have hnobranch : isBranch invalid = false := isBranch_zero
  rw [hlast, PhysMem.freeUserTree]
  refine congrArg (· ++ [root]) (flatMap_congr fun i hi => ?_)
  have he2 : m.readEntry root i = (tables (.mid i)).elim invalid branch :=
    h.reads _ _ i hroot (mem_range.mp hi)
  rw [hmid i]
  cases hq : tables (.mid i) with
  | none => simp [he2, hq, Option.elim, hnobranch, Bool.false_eq_true]
  | some mid =>
    have halign := h.aligned _ _ hq
    simp only [he2, hq, Option.elim, isBranch_branch halign, childPa_branch halign, if_true]
    refine congrArg (· ++ [mid]) (flatMap_congr fun j _ => ?_)
    have he1 : m.readEntry mid j = (tables (.leaf i j)).elim invalid branch :=
      h.reads (.mid i) _ j hq trivial
    rw [hleaf i j]
    cases hq' : tables (.leaf i j) with
    | none => simp [he1, hq', Option.elim, hnobranch, Bool.false_eq_true]
    | some q =>
      have halign' := h.aligned _ _ hq'
      simp only [he1, hq', Option.elim, isBranch_branch halign', childPa_branch halign', if_true]
      refine congrArg (· ++ [q]) (filterMap_congr fun l _ => ?_)
      have he0 : m.readEntry q l = page i j l := h.reads (.leaf i j) _ l hq' trivial
      rw [he0, toLeaf]
      split <;> rfl

/-! ### The record of an address space -/

structure Page where
  va : Nat
  frame : Pa
  perms : PtePerms

namespace Page

def At (e : Page) (i j l : Nat) : Prop :=
  i = (splitVa e.va).vpn2 ∧ j = (splitVa e.va).vpn1 ∧ l = (splitVa e.va).vpn0

instance (e : Page) (i j l : Nat) : Decidable (e.At i j l) := inferInstanceAs (Decidable (_ ∧ _))

def accessible (e : Page) : Bool := e.perms &&& (PtePerms.r ||| PtePerms.w ||| PtePerms.x) != 0#64

end Page

/-- An address space: its root, the frames that became its tables, and its pages. -/
structure Space where
  root : Pa
  tables : List Pa
  pages : List Page

namespace Space

variable (s : Space)

def owned : List Pa := s.tables ++ s.pages.map (·.frame)

/-- What `map_in` adds: the frames that left the free list for tables, and the page if it was mapped. -/
def mapIn (m : PhysMem) (e : Page) : Space :=
  let r := m.map s.root e.va e.frame e.perms
  { s with
    tables := s.tables ++ m.free.filter (· ∉ r.1.free)
    pages := match r.2 with
      | .ok _ => e :: s.pages
      | .error _ => s.pages }

/-- The entry that the record gives a page. -/
def page (i j l : Nat) : Pte :=
  (s.pages.find? (fun e => decide (e.At i j l))).elim invalid fun e => leaf e.frame e.perms

end Space

/-- Other code runs: it takes, writes and returns frames, but no table of this address space, and it
returns none of its frames and none of the kernel's tables. -/
structure Elsewhere (kernel : Pa → Prop) (s : Space) (m m' : PhysMem) : Prop where
  tables : ∀ p ∈ s.tables, m'.word p = m.word p
  nodup : m'.free.Nodup
  aligned : ∀ p ∈ m'.free, Aligned p
  apart : ∀ p ∈ m'.free, p ∉ s.owned ∧ ¬ kernel p

/-- The address spaces built from a fresh root, made when memory was `m₀`, by mapping fresh frames in the
user half. The loader and `MapAnon` both take a frame and then call `map_in`. -/
inductive Built (m₀ : PhysMem) (boot : Pa) : PhysMem → Space → Prop
  | new {m : PhysMem} {root : Pa} (hm : m₀.WellFormed boot) (hr : m₀.newUserRoot boot = some (root, m)) :
      Built m₀ boot m ⟨root, [root], []⟩
  | mapIn {m m₁ : PhysMem} {s : Space} {e : Page} (h : Built m₀ boot m s) (hva : e.va < userVaEnd)
      (hperms : e.perms &&& 0b111110#64 = e.perms) (hframe : m.allocZeroed = some (e.frame, m₁)) :
      Built m₀ boot (m₁.map s.root e.va e.frame e.perms).1 (s.mapIn m₁ e)
  | elsewhere {m m' : PhysMem} {s : Space} (h : Built m₀ boot m s)
      (hother : Elsewhere (KernelTable m₀ boot) s m m') : Built m₀ boot m' s

/-! ### The record agrees with the tables -/

/-- The tables under the root are those of the record, its pages are mapped where it says, and no frame
has two uses. -/
structure Owns (m : PhysMem) (kernel : Pa → Prop) (s : Space) (tables : Node → Option Pa) : Prop where
  tree : UserTree m kernel tables s.page
  root : tables .root = some s.root
  low : ∀ i p, tables (.mid i) = some p → i < 256
  narrow : ∀ i j p, tables (.leaf i j) = some p → j < 512
  mem_tables : ∀ p, p ∈ s.tables ↔ ∃ a, tables a = some p
  user : ∀ e ∈ s.pages, e.va < userVaEnd
  known : ∀ e ∈ s.pages, e.perms &&& 0b111110#64 = e.perms
  aligned : ∀ e ∈ s.pages, Aligned e.frame
  taken : ∀ e ∈ s.pages, e.frame ∉ m.free
  apart : ∀ e ∈ s.pages, e.frame ∉ s.tables ∧ ¬ kernel e.frame
  frames : (s.pages.map (·.frame)).Nodup
  places : s.pages.Pairwise fun e e' => ¬ SamePage e'.va e.va

variable {e : Page} {m' m₁ : PhysMem}

namespace Space

variable {s : Space}

theorem page_cons (root : Pa) (tables : List Pa) (e : Page) (pages : List Page) (i j l : Nat) :
    Space.page ⟨root, tables, e :: pages⟩ i j l =
      if e.At i j l then leaf e.frame e.perms else Space.page ⟨root, tables, pages⟩ i j l := by
  simp only [page, find?_cons]
  by_cases h : e.At i j l
  · simp [h]
  · simp [h]

theorem page_of_mem (hs : s.pages.Pairwise fun e e' => ¬ SamePage e'.va e.va) (he : e ∈ s.pages)
    (hat : e.At i j l) : s.page i j l = leaf e.frame e.perms := by
  obtain ⟨root, tables, pages⟩ := s
  induction pages with
  | nil => exact absurd he not_mem_nil
  | cons e' pages ih =>
    obtain ⟨hfirst, hrest⟩ := pairwise_cons.mp hs
    rw [page_cons]
    rcases mem_cons.mp he with rfl | he
    · rw [if_pos hat]
    have hnot : ¬ e'.At i j l := fun h => hfirst e he
      ⟨h.1.symm.trans hat.1, h.2.1.symm.trans hat.2.1, h.2.2.symm.trans hat.2.2⟩
    rw [if_neg hnot]
    exact ih hrest he

theorem page_cases (s : Space) (i j l : Nat) :
    s.page i j l = invalid ∨ ∃ e ∈ s.pages, e.At i j l ∧ s.page i j l = leaf e.frame e.perms := by
  unfold page
  cases h : s.pages.find? (fun e => decide (e.At i j l)) with
  | none => exact .inl rfl
  | some e =>
    have hat := find?_some h
    exact .inr ⟨e, mem_of_find?_eq_some h, of_decide_eq_true hat, rfl⟩

end Space

namespace Owns

variable {m : PhysMem} {kernel : Pa → Prop} {s : Space} {tables : Node → Option Pa}

theorem frame_page (h : Owns m kernel s tables) : Place.frame tables s.page (.page i j l) = some p ↔
      ∃ e ∈ s.pages, e.At i j l ∧ e.accessible = true ∧ e.frame = p := by
  have hleaf : ∀ e ∈ s.pages, (leaf e.frame e.perms).toLeaf.map (·.pa) =
      if e.accessible then some e.frame else none := by
    intro e he
    by_cases hacc : e.accessible = true
    · rw [if_pos hacc, toLeaf_leaf (h.aligned e he) (h.known e he) (by simpa [Page.accessible] using hacc)]
      rfl
    rw [if_neg hacc]
    have hrwx : (leaf e.frame e.perms).rwx = 0#64 := by
      rw [rwx_leaf (h.aligned e he)]
      simpa [Page.accessible] using hacc
    simp [toLeaf, isLeaf, hrwx]
  constructor
  · intro hp
    rcases s.page_cases i j l with hnone | ⟨e, he, hat, heq⟩
    · simp [Place.frame, hnone, toLeaf_invalid] at hp
    simp only [Place.frame, heq, hleaf e he] at hp
    split at hp
    · next hacc => exact ⟨e, he, hat, hacc, Option.some.inj hp⟩
    · exact absurd hp.symm (Option.some_ne_none _)
  · rintro ⟨e, he, hat, hacc, rfl⟩
    rw [Place.frame, Space.page_of_mem h.places he hat, hleaf e he, if_pos hacc]

theorem table_mem_all (h : Owns m kernel s tables) {a : Node} (ha : tables a = some p) : Place.table a ∈ Place.all := by
  cases a with
  | root => exact Place.mem_all.mpr (.inr rfl)
  | mid i => exact Place.mem_all.mpr (.inl ⟨i, h.low i p ha, Place.mem_underMid.mpr (.inr rfl)⟩)
  | leaf i j =>
    have hi : i < 256 := by
      cases hmid : tables (.mid i) with
      | none =>
        rw [h.tree.rooted i j hmid] at ha
        exact absurd ha.symm (Option.some_ne_none _)
      | some q => exact h.low i q hmid
    exact Place.mem_all.mpr (.inl ⟨i, hi, Place.mem_underMid.mpr
      (.inl ⟨j, h.narrow i j p ha, Place.mem_underLeaf.mpr (.inr rfl)⟩)⟩)

theorem page_mem_all (hva : e.va < userVaEnd) (hat : e.At i j l) : Place.page i j l ∈ Place.all := by
  obtain ⟨rfl, rfl, rfl⟩ := hat
  exact Place.mem_all.mpr (.inl ⟨_, splitVa_low hva, Place.mem_underMid.mpr
    (.inl ⟨_, splitVa_vpn1_lt _, Place.mem_underLeaf.mpr (.inl ⟨_, splitVa_vpn0_lt _, rfl⟩)⟩)⟩)

variable (h : Owns m kernel s tables)
include h

/-- What the walk frees: the tables, and the pages whose entry it takes for a leaf. -/
theorem mem_freeUserTree : p ∈ m.freeUserTree s.root ↔ p ∈ s.tables ∨ ∃ e ∈ s.pages, e.accessible = true ∧ e.frame = p := by
  rw [h.tree.freeUserTree_eq h.root, mem_filterMap]
  constructor
  · rintro ⟨x, -, hx⟩
    cases x with
    | table a => exact .inl ((h.mem_tables p).mpr ⟨a, hx⟩)
    | page i j l =>
      obtain ⟨e, he, -, hacc, hp⟩ := h.frame_page.mp hx
      exact .inr ⟨e, he, hacc, hp⟩
  · rintro (hp | ⟨e, he, hacc, hp⟩)
    · obtain ⟨a, ha⟩ := (h.mem_tables p).mp hp
      exact ⟨.table a, h.table_mem_all ha, ha⟩
    · have hat : e.At _ _ _ := ⟨rfl, rfl, rfl⟩
      exact ⟨_, page_mem_all (h.user e he) hat, h.frame_page.mpr ⟨e, he, hat, hacc, hp⟩⟩

theorem nodup_freeUserTree : (m.freeUserTree s.root).Nodup := by
  rw [h.tree.freeUserTree_eq h.root]
  refine Place.nodup_all.filterMap ?_
  intro x y p hx hy
  cases x with
  | table a =>
    cases y with
    | table b => rw [h.tree.inj a b p hx hy]
    | page i j l =>
      obtain ⟨e, he, -, -, rfl⟩ := h.frame_page.mp hy
      exact absurd ((h.mem_tables _).mpr ⟨a, hx⟩) (h.apart e he).1
  | page i j l =>
    obtain ⟨e, he, hat, -, rfl⟩ := h.frame_page.mp hx
    cases y with
    | table b => exact absurd ((h.mem_tables _).mpr ⟨b, hy⟩) (h.apart e he).1
    | page i' j' l' =>
      obtain ⟨e', he', hat', -, hframe⟩ := h.frame_page.mp hy
      obtain rfl := inj_on_of_nodup_map h.frames he' he hframe
      obtain ⟨rfl, rfl, rfl⟩ := hat
      obtain ⟨rfl, rfl, rfl⟩ := hat'
      rfl

/-! ### Building keeps the record -/

theorem elsewhere (ho : Elsewhere kernel s m m') : Owns m' kernel s tables where
  tree := ⟨h.tree.aligned,
    fun a p ha hp => (ho.apart p hp).1 (mem_append_left _ ((h.mem_tables p).mpr ⟨a, ha⟩)),
    h.tree.apart, h.tree.inj, fun a p i ha hu => by
      rw [ho.tables p ((h.mem_tables p).mpr ⟨a, ha⟩)]
      exact h.tree.reads a p i ha hu,
    h.tree.rooted, h.tree.unmapped, ho.nodup, ho.aligned, fun p hp => (ho.apart p hp).2⟩
  root := h.root
  low := h.low
  narrow := h.narrow
  mem_tables := h.mem_tables
  user := h.user
  known := h.known
  aligned := h.aligned
  taken e he hp := (ho.apart _ hp).1 (mem_append_right _ (mem_map_of_mem he))
  apart := h.apart
  frames := h.frames
  places := h.places

theorem mem_tables_installs (hi : Installs path m₁.free m'.free tables tables') (howned : ∀ a p, tables' a = some p → p ∉ m'.free) (p : Pa) :
    p ∈ s.tables ++ m₁.free.filter (· ∉ m'.free) ↔ ∃ a, tables' a = some p := by
  simp only [mem_append, mem_filter, decide_eq_true_eq]
  constructor
  · rintro (hp | ⟨hp, hgone⟩)
    · obtain ⟨a, ha⟩ := (h.mem_tables p).mp hp
      exact ⟨a, hi.grows.keep a p ha⟩
    · exact (hi.taken p hp).resolve_left hgone
  · rintro ⟨a, ha⟩
    rcases hi.grows.origin a p ha with hold | hnew
    · exact .inl ((h.mem_tables p).mpr ⟨a, hold⟩)
    · exact .inr ⟨hnew, howned a p ha⟩

theorem mapIn (hva : e.va < userVaEnd) (hperms : e.perms &&& 0b111110#64 = e.perms)
    (hframe : m.allocZeroed = some (e.frame, m₁)) :
    ∃ tables', Owns (m₁.map s.root e.va e.frame e.perms).1 kernel (s.mapIn m₁ e) tables' := by
  -- the frame was free, so it is no table and no page yet
  obtain ⟨hfree, htree₁⟩ : m.free = e.frame :: m₁.free ∧ UserTree m₁ kernel tables s.page := by
    unfold PhysMem.allocZeroed at hframe
    cases hfree : m.free with
    | nil => simp [hfree] at hframe
    | cons f rest =>
      simp only [hfree, Option.some.injEq, Prod.mk.injEq] at hframe
      obtain ⟨rfl, rfl⟩ := hframe
      exact ⟨rfl, (h.tree.take_frame h.root hfree).1.mono fun _ => .inl⟩
  have hmem : e.frame ∈ m.free := hfree ▸ mem_cons_self
  have hsub : ∀ p ∈ m₁.free, p ∈ m.free := fun p hp => hfree ▸ mem_cons_of_mem _ hp
  have hgone : e.frame ∉ m₁.free := (nodup_cons.mp (hfree ▸ h.tree.free_nodup)).1
  have hnotable : e.frame ∉ s.tables := fun hp => by
    obtain ⟨a, ha⟩ := (h.mem_tables _).mp hp
    exact h.tree.owned a _ ha hmem
  obtain ⟨m', tables', r, hmap, -, hinst, hcases⟩ := htree₁.map_cases h.root (splitVa_low hva) e.frame e.perms
  refine ⟨tables', ?_⟩
  -- a frame that was not free before is none of the new tables
  have hnew : ∀ p, p ∉ s.tables → p ∉ m₁.free → p ∉ s.tables ++ m₁.free.filter (· ∉ m'.free) := by
    intro p hp hp'
    simp only [mem_append, mem_filter]
    rintro (h | ⟨h, -⟩)
    · exact hp h
    · exact hp' h
  have hroot := hinst.grows.keep _ _ h.root
  have hlow : ∀ i p, tables' (.mid i) = some p → i < 256 := by
    intro i p hi
    rcases hinst.place _ p hi with hold | hpath
    · exact h.low i p hold
    simp only [mem_cons, Node.mid.injEq, reduceCtorEq, not_mem_nil, or_false] at hpath
    exact hpath ▸ splitVa_low hva
  have hnarrow : ∀ i j p, tables' (.leaf i j) = some p → j < 512 := by
    intro i j p hi
    rcases hinst.place _ p hi with hold | hpath
    · exact h.narrow i j p hold
    simp only [mem_cons, Node.leaf.injEq, reduceCtorEq, not_mem_nil, or_false, false_or] at hpath
    exact hpath.2 ▸ splitVa_vpn1_lt _
  have htaken : ∀ e' ∈ s.pages, e'.frame ∉ m'.free := fun e' he' hp =>
    h.taken e' he' (hsub _ (hinst.sublist.subset hp))
  have hapart : ∀ e' ∈ s.pages, e'.frame ∉ s.tables ++ m₁.free.filter (· ∉ m'.free) ∧ ¬ kernel e'.frame :=
    fun e' he' => ⟨hnew _ (h.apart e' he').1 fun hp => h.taken e' he' (hsub _ hp), (h.apart e' he').2⟩
  rcases hcases with ⟨htree, hr⟩ | ⟨rfl, hinvalid, htree⟩
  · obtain ⟨x, rfl⟩ : ∃ x, r = .error x := by
      rcases hr with ⟨rfl, -⟩ | ⟨-, rfl⟩
      · exact ⟨_, rfl⟩
      · exact ⟨_, rfl⟩
    simp only [Space.mapIn, hmap]
    exact ⟨htree, hroot, hlow, hnarrow, h.mem_tables_installs hinst htree.owned, h.user, h.known, h.aligned,
      htaken, hapart, h.frames, h.places⟩
  simp only [Space.mapIn, hmap]
  refine ⟨?_, hroot, hlow, hnarrow, h.mem_tables_installs hinst htree.owned, ?_, ?_, ?_, ?_, ?_, ?_, ?_⟩
  · have hpage : Space.page ⟨s.root, s.tables ++ m₁.free.filter (· ∉ m'.free), e :: s.pages⟩ = fun i j l =>
        if i = (splitVa e.va).vpn2 ∧ j = (splitVa e.va).vpn1 ∧ l = (splitVa e.va).vpn0
        then leaf e.frame e.perms else s.page i j l := by
      funext i j l
      rw [Space.page_cons]
      rfl
    rw [hpage]
    exact htree
  · exact forall_mem_cons.mpr ⟨hva, h.user⟩
  · exact forall_mem_cons.mpr ⟨hperms, h.known⟩
  · exact forall_mem_cons.mpr ⟨h.tree.free_aligned _ hmem, h.aligned⟩
  · exact forall_mem_cons.mpr ⟨fun hp => hgone (hinst.sublist.subset hp), htaken⟩
  · exact forall_mem_cons.mpr ⟨⟨hnew _ hnotable hgone, h.tree.free_apart _ hmem⟩, hapart⟩
  · refine nodup_cons.mpr ⟨fun hp => ?_, h.frames⟩
    obtain ⟨e', he', heq⟩ := mem_map.mp hp
    exact h.taken e' he' (heq ▸ hmem)
  · refine pairwise_cons.mpr ⟨fun e' he' hsame => ?_, h.places⟩
    rw [Space.page_of_mem h.places he' hsame, isValid_leaf] at hinvalid
    exact absurd hinvalid (by decide)

end Owns

theorem Built.owns (h : Built m₀ boot m s) : ∃ tables, Owns m (KernelTable m₀ boot) s tables := by
  induction h with
  | @new m root hm hr =>
    have hnil : ∀ {P : Page → Prop}, ∀ e ∈ ([] : List Page), P e := fun e he => absurd he not_mem_nil
    refine ⟨_, hm.newUserRoot_tree hr, Function.update_self .., ?_, ?_, ?_, hnil, hnil, hnil, hnil, hnil,
      nodup_nil, List.Pairwise.nil⟩
    · intro i p hi
      exact Node.noConfusion (eq_root_of_fresh hi).1
    · intro i j p hi
      exact Node.noConfusion (eq_root_of_fresh hi).1
    intro p
    rw [mem_singleton]
    constructor
    · rintro rfl
      exact ⟨.root, Function.update_self ..⟩
    · rintro ⟨a, ha⟩
      exact (eq_root_of_fresh ha).2
  | mapIn _ hva hperms hframe ih =>
    obtain ⟨tables, h⟩ := ih
    exact h.mapIn hva hperms hframe
  | elsewhere _ hother ih =>
    obtain ⟨tables, h⟩ := ih
    exact ⟨tables, h.elsewhere hother⟩

/-- Every frame of the record is freed once, nothing else is, and nothing of the kernel's half is, if each
page may be read, written or executed. -/
theorem free_user_tree_frees_owned {m₀ m : PhysMem} {boot : Pa} {s : Space} (h : Built m₀ boot m s)
    (hacc : ∀ e ∈ s.pages, e.accessible = true) :
    (m.freeUserTree s.root).Nodup ∧ (∀ p, p ∈ m.freeUserTree s.root ↔ p ∈ s.owned) ∧
      ∀ p, m.OnlyHigh s.root p ∨ KernelTable m₀ boot p → p ∉ m.freeUserTree s.root := by
  obtain ⟨tables, ho⟩ := h.owns
  refine ⟨ho.nodup_freeUserTree, fun p => ?_, ?_⟩
  · rw [ho.mem_freeUserTree, Space.owned, mem_append, mem_map]
    refine or_congr_right ⟨fun ⟨e, he, _, hp⟩ => ⟨e, he, hp⟩, fun ⟨e, he, hp⟩ => ⟨e, he, hacc e he, hp⟩⟩
  rintro p (hhigh | hkernel) hp
  · rcases m.under_of_mem_freeUserTree hp with hroot | ⟨i, hi, hunder⟩
    · exact hhigh.1 hroot
    · exact hhigh.2.2 i hi hunder
  · rcases ho.mem_freeUserTree.mp hp with hp | ⟨e, he, -, rfl⟩
    · obtain ⟨a, ha⟩ := (ho.mem_tables p).mp hp
      exact ho.tree.apart a p ha hkernel
    · exact (ho.apart e he).2 hkernel

def fourFrames : PhysMem where
  word _ _ := 0
  free := [0x2000, 0x3000, 0x4000, 0x5000]

theorem fourFrames_wellFormed : fourFrames.WellFormed 0x1000 where
  nodup := by decide
  aligned p hp := by
    simp only [fourFrames, mem_cons, not_mem_nil, or_false] at hp
    rcases hp with rfl | rfl | rfl | rfl <;> decide
  kernel_not_free := by
    rintro p (rfl | ⟨i, -, -, hb, -⟩)
    · decide
    have hzero : fourFrames.readEntry 0x1000 i = 0 := rfl
    rw [hzero] at hb
    exact absurd hb (by decide)

def freshRoot : PhysMem where
  word _ _ := 0
  free := [0x3000, 0x4000, 0x5000]

theorem fourFrames_newUserRoot : fourFrames.newUserRoot 0x1000 = some (0x2000, freshRoot) := by
  cases hr : fourFrames.newUserRoot 0x1000 with
  | none => simp [PhysMem.newUserRoot, PhysMem.allocZeroed, fourFrames] at hr
  | some r =>
    obtain ⟨root, ⟨word, free⟩⟩ := r
    obtain ⟨hfree, hword⟩ := fourFrames_wellFormed.newUserRoot_eq hr
    obtain ⟨rfl, rfl⟩ := List.cons.inj hfree
    have hzero : word = fun _ _ => 0 := by
      funext p i
      refine (hword p i).trans ?_
      simp [fourFrames]
    rw [hzero]
    rfl

def pageTaken : PhysMem where
  word q i := if q = 0x3000 then 0 else freshRoot.word q i
  free := [0x4000, 0x5000]

def onePageSpace (perms : PtePerms) : Space :=
  Space.mapIn ⟨0x2000, [0x2000], []⟩ pageTaken ⟨0x5000, 0x3000, perms⟩

theorem onePageSpace_built {perms : PtePerms} (hperms : perms &&& 0b111110#64 = perms) :
    Built fourFrames 0x1000 (pageTaken.map 0x2000 0x5000 0x3000 perms).1 (onePageSpace perms) :=
  have hva : 0x5000 < userVaEnd := by decide
  Built.mapIn (e := ⟨0x5000, 0x3000, perms⟩) (.new fourFrames_wellFormed fourFrames_newUserRoot) hva hperms rfl

theorem free_user_tree_frees_owned_readable :
    (onePageSpace (PtePerms.r ||| PtePerms.u)).owned = [0x2000, 0x4000, 0x5000, 0x3000] ∧
      ∀ p, p ∈ (pageTaken.map 0x2000 0x5000 0x3000 (PtePerms.r ||| PtePerms.u)).1.freeUserTree 0x2000 ↔
        p ∈ (onePageSpace (PtePerms.r ||| PtePerms.u)).owned :=
  have hacc : ∀ e ∈ (onePageSpace (PtePerms.r ||| PtePerms.u)).pages, e.accessible = true :=
    all_eq_true.mp (by decide)
  ⟨by decide, (free_user_tree_frees_owned (onePageSpace_built (by decide)) hacc).2.1⟩

/-- The frame of a page of a segment without R, W and X stays taken when the address space is gone. -/
theorem inaccessible_page_not_freed :
    Built fourFrames 0x1000 (pageTaken.map 0x2000 0x5000 0x3000 PtePerms.u).1 (onePageSpace PtePerms.u) ∧
      0x3000 ∈ (onePageSpace PtePerms.u).owned ∧
      0x3000 ∉ (pageTaken.map 0x2000 0x5000 0x3000 PtePerms.u).1.freeUserTree (onePageSpace PtePerms.u).root := by
  have hbuilt := onePageSpace_built (show PtePerms.u &&& 0b111110#64 = PtePerms.u by decide)
  refine ⟨hbuilt, by decide, fun hp => ?_⟩
  obtain ⟨tables, ho⟩ := hbuilt.owns
  have hnone : (onePageSpace PtePerms.u).tables.contains 0x3000 = false ∧
      (onePageSpace PtePerms.u).pages.all (fun e => !e.accessible) = true := by decide
  rcases ho.mem_freeUserTree.mp hp with hp | ⟨e, he, hacc, -⟩
  · rw [contains_iff_mem.mpr hp] at hnone
    exact absurd hnone.1 (by decide)
  · have := all_eq_true.mp hnone.2 e he
    rw [hacc] at this
    exact absurd this (by decide)

end SnitchOs.Mem
