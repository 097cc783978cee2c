import SnitchOs.Cap.Table

/-!
# The revocation walk

`revokeDescendantsOf r` pops a node off a stack, sweeps its direct children out of every process's table, and pushes
each freed child. The loop is run on fuel; `walk_terminates` shows that the number of live holdings bounds it. On
tables whose live ids are distinct and non-zero it frees exactly the holdings that descend from `r` along
`parentCapId` links of live holdings (`Desc`).
-/

namespace SnitchOs.Cap

open Option

/-- The capability tables of all live processes, in the scheduler's task order. -/
abbrev Tables := List (TaskId × CapTable)

structure Revocation where
  holder : TaskId
  capId : Nat
  parentCapId : Nat
  cap : Capability
deriving DecidableEq

def revokeEach (task : TaskId) (parent : Nat) : List Nat → CapTable → CapTable × List Revocation
  | [], t => (t, [])
  | child :: rest, t =>
    match t.revokeByCapId child with
    | (some cap, t) =>
      let r := revokeEach task parent rest t
      (r.1, ⟨task, child, parent, cap⟩ :: r.2)
    | (none, t) => revokeEach task parent rest t

/-- One turn of the outer loop: revoke the direct children of `parent` in every table. -/
def sweep (parent : Nat) : Tables → Tables × List Revocation
  | [] => ([], [])
  | (task, t) :: rest =>
    let here := revokeEach task parent (t.childrenCapIds parent) t
    let others := sweep parent rest
    ((task, here.1) :: others.1, here.2 ++ others.2)

/-- The loop's state; the top of the `frontier` stack comes first. -/
structure Walk where
  tables : Tables
  frontier : List Nat
  revoked : List Revocation := []

def Walk.step (w : Walk) : Walk :=
  match w.frontier with
  | [] => w
  | parent :: frontier =>
    let r := sweep parent w.tables
    { tables := r.1
      frontier := (r.2.map (·.capId)).reverse ++ frontier
      revoked := w.revoked ++ r.2 }

def Walk.run : Nat → Walk → Walk
  | 0, w => w
  | fuel + 1, w => run fuel w.step

def holdings (ts : Tables) : List (TaskId × Slot) :=
  ts.flatMap fun p => p.2.live.map (p.1, ·)

def revokeDescendantsOf (r : Nat) (ts : Tables) : Tables × List Revocation :=
  if r = 0 then (ts, [])
  else
    let w := Walk.run ((holdings ts).length + 1) { tables := ts, frontier := [r] }
    (w.tables, w.revoked)

/-! ### Freeing a set of holdings -/

variable {P : Slot → Prop} {ts : Tables} {x : TaskId × Slot} {c r : Nat} {Q : Slot → Prop}
  {a b s : Slot} {w : Walk} {t : CapTable} {ts : Tables} {r : Nat} {out : Tables × List Revocation}
  {cap : Capability}

namespace CapTable

variable {t : CapTable}

/-- The table with every live slot of `P` freed. -/
def clear (P : Slot → Prop) [DecidablePred P] (t : CapTable) : CapTable where
  slots := t.slots.map fun s => if s.cap.isSome ∧ P s then s.free else s

theorem getElem?_clear (P : Slot → Prop) [DecidablePred P] (t : CapTable) (j : Nat) :
    (t.clear P).slots[j]? = t.slots[j]?.map fun s => if s.cap.isSome ∧ P s then s.free else s := by
  rw [clear, List.getElem?_map]

theorem live_clear (P : Slot → Prop) [DecidablePred P] (t : CapTable) : (t.clear P).live = t.live.filter (¬ P ·) := by
  unfold live clear
  induction t.slots with
  | nil => rfl
  | cons s rest ih =>
    by_cases hlive : s.cap.isSome
    · by_cases hP : P s
      · simpa [hlive, hP] using ih
      · simpa [hlive, hP] using ih
    · simpa [hlive] using ih

theorem clear_congr [DecidablePred P] [DecidablePred Q] (h : ∀ s ∈ t.live, (P s ↔ Q s)) : t.clear P = t.clear Q := by
  unfold clear
  congr 1
  refine List.map_congr_left fun s hs => ?_
  by_cases hlive : s.cap.isSome
  · simp [h s (mem_live.mpr ⟨hs, hlive⟩)]
  · simp [hlive]

theorem clear_clear (P Q : Slot → Prop) [DecidablePred P] [DecidablePred Q] (t : CapTable) :
    (t.clear P).clear Q = t.clear (fun s => P s ∨ Q s) := by
  unfold clear
  rw [List.map_map]
  congr 1
  refine List.map_congr_left fun s _ => ?_
  by_cases hlive : s.cap.isSome
  · by_cases hP : P s
    · simp [hlive, hP]
    · simp [hlive, hP]
  · simp [hlive]

theorem clear_of_forall_not [DecidablePred P] (h : ∀ s ∈ t.live, ¬ P s) : t.clear P = t := by
  obtain ⟨slots⟩ := t
  unfold clear
  congr 1
  refine (List.map_congr_left fun s hs => ?_).trans (List.map_id _)
  rw [if_neg]
  · rfl
  rintro ⟨hlive, hP⟩
  exact h s (mem_live.mpr ⟨hs, hlive⟩) hP

/-- The live ids of the table are distinct and none is the root sentinel. -/
structure Distinct (t : CapTable) : Prop where
  nodup : (t.live.map (·.capId)).Nodup
  ne_zero : ∀ s ∈ t.live, s.capId ≠ 0

theorem Distinct.clear (ht : t.Distinct) (P : Slot → Prop) [DecidablePred P] : (t.clear P).Distinct where
  nodup := by
    rw [live_clear]
    exact ht.nodup.sublist (List.filter_sublist.map _)
  ne_zero := by
    intro s hs
    rw [live_clear] at hs
    exact ht.ne_zero s (List.mem_of_mem_filter hs)

theorem Distinct.inj (ht : t.Distinct) (ha : a ∈ t.live) (hb : b ∈ t.live) (h : a.capId = b.capId) : a = b :=
  List.inj_on_of_nodup_map ht.nodup ha hb h

theorem Distinct.index_inj (ht : t.Distinct) {i j : Nat} (ha : t.slots[i]? = some a)
    (hb : t.slots[j]? = some b) (hla : a.cap.isSome) (hlb : b.cap.isSome) (h : a.capId = b.capId) : i = j := by
  have hpair : t.slots.Pairwise (fun a b => a.cap.isSome → b.cap.isSome → a.capId ≠ b.capId) := by
    have := ht.nodup
    rw [live, List.nodup_iff_pairwise_ne, List.pairwise_map, List.pairwise_filter] at this
    exact this
  rw [List.pairwise_iff_getElem] at hpair
  obtain ⟨hi, rfl⟩ := List.getElem?_eq_some_iff.mp ha
  obtain ⟨hj, rfl⟩ := List.getElem?_eq_some_iff.mp hb
  rcases Nat.lt_trichotomy i j with hlt | heq | hgt
  · exact absurd h (hpair i j hi hj hlt hla hlb)
  · exact heq
  · exact absurd h.symm (hpair j i hj hi hgt hlb hla)

/-- On distinct ids, revoking by the id of a live slot frees that slot and no other. -/
theorem Distinct.revokeByCapId (ht : t.Distinct) (hs : s ∈ t.live) :
    t.revokeByCapId s.capId = (s.cap, t.clear (·.capId = s.capId)) := by
  obtain ⟨hmem, hlive⟩ := mem_live.mp hs
  rcases t.revokeByCapId_cases s.capId with ⟨a, cap, ha, hcap, hid, -, hr⟩ | ⟨hno, -⟩
  · have hal : a ∈ t.live :=
      mem_live.mpr ⟨List.mem_of_getElem? ha, by rw [hcap]; rfl⟩
    obtain rfl : a = s := ht.inj hal hs hid
    rw [hr, hcap, Prod.mk.injEq]
    refine ⟨rfl, ?_⟩
    rw [CapTable.mk.injEq]
    refine List.ext_getElem? fun j => ?_
    rw [getElem?_freeAt, getElem?_clear]
    cases hj : t.slots[j]? with
    | none => simp
    | some b =>
      by_cases hji : j = t.indexOfCapId a.capId
      · obtain rfl : b = a := by
          rw [hji, ha] at hj
          exact (some.inj hj).symm
        simp [hji, hlive]
      · have hb : ¬ (b.cap.isSome ∧ b.capId = a.capId) := fun ⟨hlb, hidb⟩ =>
          hji (ht.index_inj hj ha hlb hlive hidb)
        simp [hji, hb]
  · rcases hno with hz | hno
    · exact absurd hz (ht.ne_zero s hs)
    · exact absurd rfl (hno s hmem hlive)

end CapTable

def revocation? (task : TaskId) (parent : Nat) (s : Slot) : Option Revocation :=
  s.cap.map (⟨task, s.capId, parent, ·⟩)

open CapTable

/-- The inner loop on the ids of some live slots frees those slots and lists them in order. -/
theorem revokeEach_eq (task : TaskId) (parent : Nat) (L : List Slot) :
    ∀ {t : CapTable}, t.Distinct → (∀ s ∈ L, s ∈ t.live) → (L.map (·.capId)).Nodup → revokeEach task parent (L.map (·.capId)) t =
        (t.clear (·.capId ∈ L.map (·.capId)), L.filterMap (revocation? task parent)) := by
  induction L with
  | nil =>
    intro t _ _ _
    simp only [List.map_nil, revokeEach, List.not_mem_nil, List.filterMap_nil, Prod.mk.injEq, and_true]
    exact (clear_of_forall_not fun s _ h => h).symm
  | cons s L ih =>
    intro t ht hL hnodup
    have hs : s ∈ t.live := hL s List.mem_cons_self
    obtain ⟨cap, hcap⟩ := isSome_iff_exists.mp (mem_live.mp hs).2
    rw [List.map_cons, List.nodup_cons] at hnodup
    have hrest : ∀ b ∈ L, b ∈ (t.clear (·.capId = s.capId)).live := by
      intro b hb
      rw [live_clear, List.mem_filter]
      refine ⟨hL b (List.mem_cons_of_mem _ hb), ?_⟩
      have hne : b.capId ≠ s.capId := fun h => hnodup.1 (h ▸ List.mem_map_of_mem hb)
      simpa using hne
    have hrev := ht.revokeByCapId hs
    rw [hcap] at hrev
    rw [List.map_cons, revokeEach, hrev]
    simp only
    rw [ih (ht.clear _) hrest hnodup.2, clear_clear]
    simp only [List.filterMap_cons, revocation?, hcap, map_some, Prod.mk.injEq, and_true]
    exact clear_congr fun b _ => by simp

namespace Tables

def clear (P : Slot → Prop) [DecidablePred P] (ts : Tables) : Tables :=
  ts.map fun p => (p.1, p.2.clear P)

end Tables

theorem mem_holdings : x ∈ holdings ts ↔ ∃ t, (x.1, t) ∈ ts ∧ x.2 ∈ t.live := by
  obtain ⟨task, s⟩ := x
  simp only [holdings, List.mem_flatMap, List.mem_map, Prod.mk.injEq, Prod.exists]
  constructor
  · rintro ⟨k, t, hmem, b, hb, rfl, rfl⟩
    exact ⟨t, hmem, hb⟩
  · rintro ⟨t, hmem, hs⟩
    exact ⟨task, t, hmem, s, hs, rfl, rfl⟩

theorem holdings_clear (P : Slot → Prop) [DecidablePred P] (ts : Tables) :
    holdings (Tables.clear P ts) = (holdings ts).filter (¬ P ·.2) := by
  unfold holdings Tables.clear
  rw [List.flatMap_map, List.filter_flatMap]
  congr 1
  funext p
  rw [live_clear, List.filter_map]
  rfl

/-! ### Termination -/

theorem revokeEach_length (task : TaskId) (parent : Nat) (ids : List Nat) :
    ∀ t : CapTable, (revokeEach task parent ids t).1.live.length + (revokeEach task parent ids t).2.length = t.live.length := by
  induction ids with
  | nil => exact fun t => rfl
  | cons child rest ih =>
    intro t
    rcases t.revokeByCapId_cases child with ⟨s, cap, hs, hcap, -, -, hr⟩ | ⟨-, hr⟩
    · have hperm := (live_freeAt_perm hs (by rw [hcap]; rfl)).length_eq
      have := ih (t.freeAt (t.indexOfCapId child))
      simp only [revokeEach, hr, List.length_cons] at hperm ⊢
      omega
    · simpa only [revokeEach, hr] using ih t

theorem sweep_length (parent : Nat) (ts : Tables) :
    (holdings (sweep parent ts).1).length + (sweep parent ts).2.length = (holdings ts).length := by
  induction ts with
  | nil => rfl
  | cons p rest ih =>
    obtain ⟨task, t⟩ := p
    have := revokeEach_length task parent (t.childrenCapIds parent) t
    simp only [sweep, holdings, List.flatMap_cons, List.length_append, List.length_map] at ih ⊢
    omega

/-- Each turn of the loop uses up one live holding or one entry of the frontier. -/
theorem Walk.step_measure (hw : w.frontier ≠ []) : (holdings w.step.tables).length + w.step.frontier.length + 1 =
      (holdings w.tables).length + w.frontier.length := by
  obtain ⟨ts, frontier, revoked⟩ := w
  cases frontier with
  | nil => exact absurd rfl hw
  | cons parent rest =>
    have := sweep_length parent ts
    simp only [Walk.step, List.length_append, List.length_reverse, List.length_map, List.length_cons]
    omega

theorem Walk.run_of_frontier_nil (hw : w.frontier = []) (fuel : Nat) : Walk.run fuel w = w := by
  have hstep : w.step = w := by simp [Walk.step, hw]
  induction fuel with
  | zero => rfl
  | succ fuel ih => exact (congrArg (Walk.run fuel) hstep).trans ih

theorem Walk.run_add (a b : Nat) (w : Walk) : Walk.run (a + b) w = Walk.run b (Walk.run a w) := by
  induction a generalizing w with
  | zero => rw [Nat.zero_add]; rfl
  | succ a ih => rw [Nat.succ_add]; exact ih w.step

theorem Walk.run_frontier (fuel : Nat) (w : Walk)
    (h : (holdings w.tables).length + w.frontier.length ≤ fuel) : (Walk.run fuel w).frontier = [] := by
  induction fuel generalizing w with
  | zero => exact List.eq_nil_of_length_eq_zero (by omega : w.frontier.length = 0)
  | succ fuel ih =>
    by_cases hw : w.frontier = []
    · rw [Walk.run_of_frontier_nil hw, hw]
    exact ih _ (by have := Walk.step_measure hw; omega)

/-- The walk terminates: once the fuel passes the number of live holdings the frontier is drained,
and more fuel changes nothing. -/
theorem walk_terminates (r : Nat) (ts : Tables) (fuel : Nat) (h : (holdings ts).length + 1 ≤ fuel) :
    (Walk.run fuel { tables := ts, frontier := [r] }).frontier = [] ∧ Walk.run fuel { tables := ts, frontier := [r] } =
        Walk.run ((holdings ts).length + 1) { tables := ts, frontier := [r] } := by
  have hdone := Walk.run_frontier ((holdings ts).length + 1) { tables := ts, frontier := [r] } le_rfl
  obtain ⟨extra, rfl⟩ := Nat.exists_eq_add_of_le h
  rw [Walk.run_add, Walk.run_of_frontier_nil hdone]
  exact ⟨hdone, rfl⟩

/-! ### What the walk frees -/

def entry (x : TaskId × Slot) : Option Revocation :=
  x.2.cap.map (⟨x.1, x.2.capId, x.2.parentCapId, ·⟩)

theorem map_capId_filterMap_entry {L : List (TaskId × Slot)} (hL : ∀ x ∈ L, x.2.cap.isSome) :
    (L.filterMap entry).map (·.capId) = L.map (·.2.capId) := by
  induction L with
  | nil => rfl
  | cons x L ih =>
    obtain ⟨cap, hcap⟩ := isSome_iff_exists.mp (hL x List.mem_cons_self)
    simp [entry, hcap]
    exact ih fun y hy => hL y (List.mem_cons_of_mem _ hy)

/-- All live ids of the system are distinct and none is the root sentinel. -/
structure DistinctIds (ts : Tables) : Prop where
  nodup : ((holdings ts).map (·.2.capId)).Nodup
  ne_zero : ∀ x ∈ holdings ts, x.2.capId ≠ 0

theorem holdings_cons (task : TaskId) (t : CapTable) (rest : Tables) :
    holdings ((task, t) :: rest) = t.live.map (task, ·) ++ holdings rest := rfl

theorem DistinctIds.cons (h : DistinctIds ((task, t) :: rest)) : t.Distinct ∧ DistinctIds rest := by
  have hnodup := h.nodup
  have hne := h.ne_zero
  rw [holdings_cons] at hnodup hne
  rw [List.map_append, List.map_map] at hnodup
  refine ⟨⟨hnodup.of_append_left, ?_⟩, hnodup.of_append_right, ?_⟩
  · intro s hs
    exact hne (task, s) (List.mem_append_left _ (List.mem_map_of_mem hs))
  · intro x hx
    exact hne x (List.mem_append_right _ hx)

theorem DistinctIds.clear (h : DistinctIds ts) (P : Slot → Prop) [DecidablePred P] : DistinctIds (Tables.clear P ts) where
  nodup := by
    rw [holdings_clear]
    exact h.nodup.sublist (List.filter_sublist.map _)
  ne_zero := by
    intro x hx
    rw [holdings_clear] at hx
    exact h.ne_zero x (List.mem_of_mem_filter hx)

/-- On distinct ids one sweep frees exactly the live holdings whose parent is the swept node. -/
theorem sweep_eq (hp : parent ≠ 0) (hts : DistinctIds ts) : sweep parent ts = (Tables.clear (·.parentCapId = parent) ts,
      ((holdings ts).filter (·.2.parentCapId = parent)).filterMap entry) := by
  induction ts with
  | nil => rfl
  | cons p rest ih =>
    obtain ⟨task, t⟩ := p
    obtain ⟨ht, hrest⟩ := hts.cons
    set L := t.live.filter (·.parentCapId = parent) with hL
    have hchildren : t.childrenCapIds parent = L.map (·.capId) := by
      rw [hL, childrenCapIds, if_neg hp, live, List.filter_filter]
      congr 2
      funext s
      rw [Bool.and_comm]
      rfl
    have hmem : ∀ s ∈ L, s ∈ t.live := fun s hs => List.mem_of_mem_filter hs
    have heach := revokeEach_eq task parent L ht hmem (ht.nodup.sublist (List.filter_sublist.map _))
    have hclear : t.clear (·.capId ∈ L.map (·.capId)) = t.clear (·.parentCapId = parent) := by
      refine clear_congr fun s hs => ?_
      constructor
      · intro h
        obtain ⟨b, hb, hid⟩ := List.mem_map.mp h
        obtain rfl : b = s := ht.inj (hmem b hb) hs hid
        simpa [hL] using (List.mem_filter.mp hb).2
      · intro h
        exact List.mem_map_of_mem (List.mem_filter.mpr ⟨hs, by simpa using h⟩)
    have hentries : L.filterMap (revocation? task parent) = (L.map (task, ·)).filterMap entry := by
      rw [List.filterMap_map]
      refine List.filterMap_congr fun s hs => ?_
      have hpar : s.parentCapId = parent := by simpa [hL] using (List.mem_filter.mp hs).2
      simp [revocation?, entry, hpar]
    rw [sweep, hchildren, heach, ih hrest, hclear, hentries, holdings_cons, List.filter_append,
      List.filterMap_append, List.filter_map]
    rfl

def Child (ts : Tables) (p c : Nat) : Prop :=
  p ≠ 0 ∧ ∃ x ∈ holdings ts, x.2.parentCapId = p ∧ x.2.capId = c

/-- `c` is a strict descendant of `r` along the `parentCapId` links of live holdings. -/
def Desc (ts : Tables) : Nat → Nat → Prop := Relation.TransGen (Child ts)

theorem Child.ne_zero (hts : DistinctIds ts) (h : Child ts p c) : c ≠ 0 := by
  obtain ⟨-, x, hx, -, rfl⟩ := h
  exact hts.ne_zero x hx

/-- The loop invariant: what has been freed, that it all descends from the root, and that a node
that has left the frontier has no child left to free. -/
structure Walk.Inv (ts : Tables) (r : Nat) (w : Walk) : Prop where
  tables : w.tables = Tables.clear (·.capId ∈ w.revoked.map (·.capId)) ts
  nodup : (w.revoked.map (·.capId)).Nodup
  own : ∀ v ∈ w.revoked, ∃ x ∈ holdings ts, entry x = some v
  desc : ∀ v ∈ w.revoked, Desc ts r v.capId
  frontier : ∀ p ∈ w.frontier, p ≠ 0 ∧ (p = r ∨ p ∈ w.revoked.map (·.capId))
  done : ∀ p, p = r ∨ p ∈ w.revoked.map (·.capId) → p ∉ w.frontier →
    ∀ c, Child ts p c → c ∈ w.revoked.map (·.capId)

theorem Walk.Inv.init (ts : Tables) (hr : r ≠ 0) : Walk.Inv ts r { tables := ts, frontier := [r] } where
  tables := by
    have hid : (fun p : TaskId × CapTable => (p.1, p.2.clear (·.capId ∈ ([] : List Nat)))) = id := by
      funext p
      rw [clear_of_forall_not fun s _ => List.not_mem_nil]
      rfl
    simp only [Tables.clear, List.map_nil]
    rw [hid, List.map_id]
  nodup := List.nodup_nil
  own := by simp
  desc := by simp
  frontier := by simp [hr]
  done := by simp

theorem Tables.clear_clear (P Q : Slot → Prop) [DecidablePred P] [DecidablePred Q] (ts : Tables) :
    Tables.clear Q (Tables.clear P ts) = Tables.clear (fun s => P s ∨ Q s) ts := by
  unfold Tables.clear
  rw [List.map_map]
  refine List.map_congr_left fun p _ => ?_
  simp [Function.comp_apply, CapTable.clear_clear]

theorem Tables.clear_congr [DecidablePred P] [DecidablePred Q]
    (h : ∀ x ∈ holdings ts, (P x.2 ↔ Q x.2)) : Tables.clear P ts = Tables.clear Q ts := by
  refine List.map_congr_left fun p hp => ?_
  rw [CapTable.clear_congr fun s hs => h (p.1, s) (mem_holdings.mpr ⟨p.2, hp, hs⟩)]

theorem Walk.Inv.step (hts : DistinctIds ts) (hw : w.Inv ts r) : w.step.Inv ts r := by
  obtain ⟨cur, frontier, revoked⟩ := w
  cases frontier with
  | nil => exact hw
  | cons parent rest =>
    obtain ⟨htables, hnodup, hown, hdesc, hfront, hdone⟩ := hw
    simp only at htables hnodup hown hdesc hfront hdone
    obtain ⟨hparent, hpr⟩ := hfront parent List.mem_cons_self
    -- the swept children are the live holdings of `ts` under `parent` that are not freed yet
    set ids := revoked.map (·.capId) with hids
    set L := (holdings ts).filter (fun x => x.2.capId ∉ ids ∧ x.2.parentCapId = parent) with hL
    have hLmem : ∀ x, x ∈ L ↔ x ∈ holdings ts ∧ x.2.capId ∉ ids ∧ x.2.parentCapId = parent := by
      intro x
      simp [hL]
    have hsweep : sweep parent cur = (Tables.clear (·.parentCapId = parent) cur, L.filterMap entry) := by
      have hcur : DistinctIds cur := by
        rw [htables]
        exact hts.clear _
      rw [sweep_eq hparent hcur]
      congr 2
      rw [htables, holdings_clear, List.filter_filter, hL]
      refine List.filter_congr fun x _ => ?_
      simp [and_comm]
    have hLids : (L.filterMap entry).map (·.capId) = L.map (·.2.capId) := by
      refine map_capId_filterMap_entry fun x hx => ?_
      obtain ⟨t, -, hlive⟩ := mem_holdings.mp ((hLmem x).mp hx).1
      exact (mem_live.mp hlive).2
    have hchild : ∀ c, Child ts parent c → c ∈ ids ∨ c ∈ L.map (·.2.capId) := by
      rintro c ⟨-, x, hx, hxp, rfl⟩
      by_cases hin : x.2.capId ∈ ids
      · exact .inl hin
      · exact .inr (List.mem_map_of_mem ((hLmem x).mpr ⟨hx, hin, hxp⟩))
    have hLchild : ∀ x ∈ L, Child ts parent x.2.capId := fun x hx =>
      ⟨hparent, x, ((hLmem x).mp hx).1, ((hLmem x).mp hx).2.2, rfl⟩
    have hnew : ∀ c ∈ L.map (·.2.capId), Desc ts r c ∧ c ≠ 0 ∧ c ∉ ids := by
      intro c hc
      obtain ⟨x, hx, rfl⟩ := List.mem_map.mp hc
      have hcx := hLchild x hx
      refine ⟨?_, hcx.ne_zero hts, ((hLmem x).mp hx).2.1⟩
      rcases hpr with rfl | hpr
      · exact .single hcx
      obtain ⟨v, hv, rfl⟩ := List.mem_map.mp hpr
      exact (hdesc v hv).tail hcx
    simp only [Walk.step, hsweep]
    refine ⟨?_, ?_, ?_, ?_, ?_, ?_⟩
    · rw [htables, Tables.clear_clear]
      refine Tables.clear_congr fun x hx => ?_
      rw [List.map_append, hLids, List.mem_append]
      constructor
      · rintro (h | h)
        · exact .inl h
        · exact hchild _ ⟨hparent, x, hx, h, rfl⟩
      rintro (h | h)
      · exact .inl h
      obtain ⟨y, hy, hid⟩ := List.mem_map.mp h
      obtain ⟨hyh, -, hyp⟩ := (hLmem y).mp hy
      obtain rfl : y = x := List.inj_on_of_nodup_map hts.nodup hyh hx hid
      exact .inr hyp
    · rw [List.map_append, hLids, List.nodup_append]
      refine ⟨hnodup, ?_, ?_⟩
      · exact hts.nodup.sublist (List.filter_sublist.map _)
      rintro a ha b hb rfl
      exact (hnew a hb).2.2 ha
    · intro v hv
      rcases List.mem_append.mp hv with hv | hv
      · exact hown v hv
      obtain ⟨x, hx, hxe⟩ := List.mem_filterMap.mp hv
      exact ⟨x, ((hLmem x).mp hx).1, hxe⟩
    · intro v hv
      rcases List.mem_append.mp hv with hv | hv
      · exact hdesc v hv
      · exact (hnew v.capId (hLids ▸ List.mem_map_of_mem hv)).1
    · intro p hp
      rw [List.map_append, hLids, List.mem_append]
      rw [hLids, List.mem_append, List.mem_reverse] at hp
      rcases hp with hp | hp
      · exact ⟨(hnew p hp).2.1, .inr (.inr hp)⟩
      obtain ⟨hne, h⟩ := hfront p (List.mem_cons_of_mem _ hp)
      exact ⟨hne, h.imp_right .inl⟩
    intro p hp hout c hc
    rw [List.map_append, hLids, List.mem_append] at hp ⊢
    rw [hLids, List.mem_append, List.mem_reverse, not_or] at hout
    by_cases hpp : p = parent
    · subst hpp
      exact hchild c hc
    have hp : p = r ∨ p ∈ ids := by
      rcases hp with hp | hp | hp
      · exact .inl hp
      · exact .inr hp
      · exact absurd hp hout.1
    refine .inl (hdone p hp ?_ c hc)
    rw [List.mem_cons, not_or]
    exact ⟨hpp, hout.2⟩

theorem Walk.Inv.run (hts : DistinctIds ts) (fuel : Nat) (hw : w.Inv ts r) : (Walk.run fuel w).Inv ts r := by
  induction fuel generalizing w with
  | zero => exact hw
  | succ fuel ih => exact ih (hw.step hts)

/-- On distinct ids, what `revokeDescendantsOf` returns: the list has one entry for each live strict
descendant of `r`, made from that holding, and the tables have lost exactly those holdings. -/
structure Exact (ts : Tables) (r : Nat) (out : Tables × List Revocation) : Prop where
  tables : out.1 = Tables.clear (·.capId ∈ out.2.map (·.capId)) ts
  nodup : (out.2.map (·.capId)).Nodup
  mem_revoked : ∀ v, v ∈ out.2 ↔ (∃ x ∈ holdings ts, entry x = some v) ∧ Desc ts r v.capId

theorem Desc.exists_holding (h : Desc ts r c) : ∃ x ∈ holdings ts, x.2.capId = c ∧ ∃ v, entry x = some v ∧ v.capId = c := by
  obtain ⟨p, -, -, x, hx, -, rfl⟩ := Relation.TransGen.tail'_iff.mp h
  obtain ⟨t, -, hlive⟩ := mem_holdings.mp hx
  obtain ⟨cap, hcap⟩ := isSome_iff_exists.mp (mem_live.mp hlive).2
  exact ⟨x, hx, rfl, ⟨x.1, x.2.capId, x.2.parentCapId, cap⟩, by simp [entry, hcap], rfl⟩

theorem entry_inj (hts : DistinctIds ts) (hx : x ∈ holdings ts) (hy : y ∈ holdings ts)
    {v w : Revocation} (hxv : entry x = some v) (hyw : entry y = some w) (h : v.capId = w.capId) : v = w := by
  obtain ⟨cap, hcap, rfl⟩ := map_eq_some_iff.mp hxv
  obtain ⟨cap', hcap', rfl⟩ := map_eq_some_iff.mp hyw
  obtain rfl : x = y := List.inj_on_of_nodup_map hts.nodup hx hy h
  rw [hcap] at hcap'
  rw [some.inj hcap']

theorem Walk.Inv.mem_of_desc (hw : w.Inv ts r) (hdone : w.frontier = []) (h : Desc ts r c) : c ∈ w.revoked.map (·.capId) := by
  induction h with
  | single hc => exact hw.done r (.inl rfl) (by simp [hdone]) _ hc
  | tail _ hc ih => exact hw.done _ (.inr ih) (by simp [hdone]) _ hc

theorem not_desc_zero : ¬ Desc ts 0 c := by
  intro h
  obtain ⟨q, hq, -⟩ := Relation.TransGen.head'_iff.mp h
  exact hq.1 rfl

theorem revokeDescendantsOf_exact (hts : DistinctIds ts) (r : Nat) : Exact ts r (revokeDescendantsOf r ts) := by
  by_cases hr : r = 0
  · subst hr
    have hid := (Walk.Inv.init ts one_ne_zero).tables
    exact ⟨hid, List.nodup_nil, fun v => by simp [revokeDescendantsOf, not_desc_zero]⟩
  rw [revokeDescendantsOf, if_neg hr]
  have hinv := (Walk.Inv.init ts hr).run hts ((holdings ts).length + 1)
  have hdone := (walk_terminates r ts _ le_rfl).1
  refine ⟨hinv.tables, hinv.nodup, fun v => ⟨fun hv => ⟨hinv.own v hv, hinv.desc v hv⟩, ?_⟩⟩
  rintro ⟨⟨x, hx, hxv⟩, hdesc⟩
  obtain ⟨w, hw, hid⟩ := List.mem_map.mp (hinv.mem_of_desc hdone hdesc)
  obtain ⟨y, hy, hyw⟩ := hinv.own w hw
  obtain rfl : w = v := entry_inj hts hy hx hyw hxv hid
  exact hw

theorem Exact.mem_ids (h : Exact ts r out) : c ∈ out.2.map (·.capId) ↔ Desc ts r c := by
  constructor
  · intro hc
    obtain ⟨v, hv, rfl⟩ := List.mem_map.mp hc
    exact ((h.mem_revoked v).mp hv).2
  · intro hc
    obtain ⟨x, hx, -, v, hxv, rfl⟩ := hc.exists_holding
    exact List.mem_map_of_mem ((h.mem_revoked v).mpr ⟨⟨x, hx, hxv⟩, hc⟩)

theorem Exact.mem_holdings (h : Exact ts r out) : x ∈ holdings out.1 ↔ x ∈ holdings ts ∧ ¬ Desc ts r x.2.capId := by
  rw [h.tables, holdings_clear, List.mem_filter, ← h.mem_ids]
  simp

theorem lookup_clear_of_not [DecidablePred P] (hlook : t.lookup h = .ok (s, cap))
    (hP : ¬ P s) : (t.clear P).lookup h = .ok (s, cap) := by
  obtain ⟨hs, hgen, hcap⟩ := lookup_eq_ok_iff.mp hlook
  exact lookup_eq_ok_iff.mpr ⟨by simp [getElem?_clear, hs, hP], hgen, hcap⟩

theorem lookup_clear_of_mem [DecidablePred P] (hlook : t.lookup h = .ok (s, cap))
    (hP : P s) : (t.clear P).lookup h = .error .stale := by
  obtain ⟨hs, hgen, hcap⟩ := lookup_eq_ok_iff.mp hlook
  have hslot : (t.clear P).slots[h.index.toNat]? = some s.free := by
    simp [getElem?_clear, hs, hP, hcap]
  simp only [lookup, hslot, Slot.free_cap, ite_self]

end SnitchOs.Cap
