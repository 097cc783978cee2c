import Mathlib.Data.Set.Finite.List

/-!
# Starting services in the order of their dependencies

`startup_order` starts, again and again, the first service that is not started and whose dependencies are. What is
left when there is none is reported as a cycle. It is everything that leads to a cycle or to a dependency that
is not in the table.
-/

namespace SnitchOs.Supervision

open List Relation

abbrev ServiceId := UInt32

structure ServiceSpec where
  id : ServiceId
  deps : List ServiceId
deriving DecidableEq

inductive DependencyError
  | cycle (stuck : List ServiceId)
deriving DecidableEq

/-- With that many services still to start. `order` and `done` of the source are the one list. -/
def startFrom (specs : List ServiceSpec) : Nat → List ServiceId → Except DependencyError (List ServiceId)
  | 0, order => .ok order
  | n + 1, order =>
    match specs.find? fun s => !order.contains s.id && s.deps.all (order.contains ·) with
    | none => .error (.cycle ((specs.filter fun s => !order.contains s.id).map (·.id)))
    | some s => startFrom specs n (order ++ [s.id])

def startupOrder (specs : List ServiceSpec) : Except DependencyError (List ServiceId) :=
  startFrom specs specs.length []

def teardownOrder (specs : List ServiceSpec) : Except DependencyError (List ServiceId) := do
  let order ← startupOrder specs
  pure order.reverse

inductive RestartStrategy
  | oneForOne
  | restForOne
deriving DecidableEq

def restartSet (strategy : RestartStrategy) (failed : ServiceId) (order : List ServiceId) : List ServiceId :=
  match strategy with
  | .oneForOne => [failed]
  | .restForOne => order.dropWhile (· != failed)

/-! ### The graph -/

section

variable (specs : List ServiceSpec)

def Listed (s : ServiceId) : Prop := ∃ spec ∈ specs, spec.id = s

def Needs (s d : ServiceId) : Prop := ∃ spec ∈ specs, spec.id = s ∧ d ∈ spec.deps

def OnCycle (s : ServiceId) : Prop := TransGen (Needs specs) s s

/-- What has to be there before `s` includes a cycle or a service that is not. -/
def Hopeless (s : ServiceId) : Prop := ∃ d, ReflTransGen (Needs specs) s d ∧ (¬ Listed specs d ∨ OnCycle specs d)

def Follows (order : List ServiceId) : Prop :=
  ∀ before s after, order = before ++ s :: after → ∀ d, Needs specs s d → d ∈ before

end

variable {specs : List ServiceSpec} {order : List ServiceId} {s d : ServiceId}
  {before after : List ServiceId}

theorem Follows.concat (h : Follows specs order) (hs : ∀ d, Needs specs s d → d ∈ order) : Follows specs (order ++ [s]) := by
  intro before x after heq d hd
  obtain rfl | ⟨after, y, rfl⟩ := after.eq_nil_or_concat
  · obtain ⟨rfl, hx⟩ := append_inj' heq rfl
    cases hx
    exact hs d hd
  · rw [concat_eq_append, ← cons_append, ← append_assoc] at heq
    exact h before x after (append_inj' heq rfl).1 d hd

theorem Follows.transGen (h : Follows specs order) (heq : order = before ++ s :: after)
    (hd : TransGen (Needs specs) s d) : d ∈ before := by
  induction hd with
  | single hd => exact h _ _ _ heq _ hd
  | tail _ hd ih =>
    obtain ⟨front, back, rfl⟩ := append_of_mem ih
    exact mem_append_left _ (h front _ (back ++ s :: after) (by simp [heq]) _ hd)

/-- A list of services of the table, each once and behind its dependencies. -/
structure Started (specs : List ServiceSpec) (order : List ServiceId) : Prop where
  nodup : order.Nodup
  listed : ∀ s ∈ order, Listed specs s
  follows : Follows specs order

namespace Started

theorem not_onCycle (h : Started specs order) (hs : s ∈ order) : ¬ OnCycle specs s := by
  intro hc
  obtain ⟨before, after, rfl⟩ := append_of_mem hs
  exact disjoint_of_nodup_append h.nodup (h.follows.transGen rfl hc) mem_cons_self

theorem closed (h : Started specs order) (hs : s ∈ order) (hd : ReflTransGen (Needs specs) s d) : d ∈ order := by
  obtain rfl | hd := reflTransGen_iff_eq_or_transGen.mp hd
  · exact hs
  obtain ⟨before, after, rfl⟩ := append_of_mem hs
  exact mem_append_left _ (h.follows.transGen rfl hd)

theorem not_hopeless (h : Started specs order) (hs : s ∈ order) : ¬ Hopeless specs s := by
  rintro ⟨d, hd, hmissing | hcycle⟩
  · exact hmissing (h.listed d (h.closed hs hd))
  · exact h.not_onCycle (h.closed hs hd) hcycle

end Started

/-- If no service can be started, there is no hope for those that are left: among the services that one of them
leads to, none is the last. -/
theorem hopeless_of_stuck (hstuck : ∀ spec ∈ specs, spec.id ∉ order → ∃ d ∈ spec.deps, d ∉ order)
    (hnot : s ∉ order) : Hopeless specs s := by
  by_contra hhope
  let Left : Set ServiceId := {x | ReflTransGen (Needs specs) s x ∧ x ∉ order}
  have hleft : ∀ x : Left, Listed specs x.1 ∧ ¬ OnCycle specs x.1 := fun x =>
    ⟨not_not.mp fun hn => hhope ⟨x.1, x.2.1, .inl hn⟩, fun hc => hhope ⟨x.1, x.2.1, .inr hc⟩⟩
  have hfinite : Finite Left := by
    refine Set.Finite.subset (List.finite_toSet (specs.map (·.id))) fun x hx => ?_
    obtain ⟨spec, hspec, rfl⟩ := (hleft ⟨x, hx⟩).1
    exact mem_map_of_mem hspec
  let Leads : Left → Left → Prop := fun x y => TransGen (Needs specs) y.1 x.1
  have : IsTrans Left Leads := ⟨fun _ _ _ hxy hyz => hyz.trans hxy⟩
  have : Std.Irrefl Leads := ⟨fun x => (hleft x).2⟩
  obtain ⟨x, -, hlast⟩ := (Finite.wellFounded_of_trans_of_irrefl Leads).has_min Set.univ ⟨⟨s, .refl, hnot⟩, trivial⟩
  obtain ⟨spec, hspec, hid⟩ := (hleft x).1
  obtain ⟨d, hd, hdnot⟩ := hstuck spec hspec (hid ▸ x.2.2)
  have hneeds : Needs specs x.1 d := ⟨spec, hspec, hid, hd⟩
  exact hlast ⟨d, x.2.1.tail hneeds, hdnot⟩ trivial (.single hneeds)

/-! ### The loop -/

section

variable (hids : (specs.map (·.id)).Nodup)

theorem mem_ids : s ∈ specs.map (·.id) ↔ Listed specs s := by simp [Listed]

theorem Started.perm (h : Started specs order) (hlen : specs.length ≤ order.length) : order ~ specs.map (·.id) :=
  (h.nodup.subperm fun _ hs => mem_ids.mpr (h.listed _ hs)).perm_of_length_le (by simpa using hlen)

include hids

theorem startFrom_cases (n : Nat) : ∀ order, Started specs order → order.length + n = specs.length →
    (∃ order', startFrom specs n order = .ok order' ∧ Started specs order' ∧ order'.length = specs.length) ∨
    ∃ stuck, startFrom specs n order = .error (.cycle stuck) ∧ stuck ≠ [] ∧
      ∀ s, s ∈ stuck ↔ Listed specs s ∧ Hopeless specs s := by
  induction n with
  | zero => exact fun order h hlen => .inl ⟨order, rfl, h, hlen⟩
  | succ n ih =>
    intro order h hlen
    unfold startFrom
    cases hfind : specs.find? fun s => !order.contains s.id && s.deps.all (order.contains ·) with
    | some spec =>
      have hready := find?_some hfind
      simp only [Bool.and_eq_true, Bool.not_eq_true', contains_eq_mem, decide_eq_false_iff_not, all_eq_true,
        decide_eq_true_eq] at hready
      have hspec := mem_of_find?_eq_some hfind
      refine ih (order ++ [spec.id]) ⟨by simpa using h.nodup.concat hready.1, ?_, h.follows.concat ?_⟩ (by simp; omega)
      · intro s hs
        obtain hs | hs := mem_append.mp hs
        · exact h.listed s hs
        · exact ⟨spec, hspec, (mem_singleton.mp hs).symm⟩
      · rintro d ⟨spec', hspec', hid, hd⟩
        obtain rfl := inj_on_of_nodup_map hids hspec' hspec hid
        exact hready.2 d hd
    | none =>
      have hstuck : ∀ spec ∈ specs, spec.id ∉ order → ∃ d ∈ spec.deps, d ∉ order := by
        simpa using hfind
      have hmem : ∀ s, s ∈ (specs.filter fun s => !order.contains s.id).map (·.id) ↔
          Listed specs s ∧ s ∉ order := by
        intro s
        simp only [mem_map, mem_filter, Bool.not_eq_true', contains_eq_mem, decide_eq_false_iff_not, Listed]
        constructor
        · rintro ⟨spec, ⟨hspec, hnot⟩, rfl⟩
          exact ⟨⟨spec, hspec, rfl⟩, hnot⟩
        · rintro ⟨⟨spec, hspec, rfl⟩, hnot⟩
          exact ⟨spec, ⟨hspec, hnot⟩, rfl⟩
      refine .inr ⟨_, rfl, fun hnil => ?_, fun s => (hmem s).trans (and_congr_right fun _ =>
        ⟨hopeless_of_stuck hstuck, fun hs hin => h.not_hopeless hin hs⟩)⟩
      have hall : specs.map (·.id) ⊆ order := fun s hs => by
        by_contra hnot
        exact absurd (hnil ▸ (hmem s).mpr ⟨mem_ids.mp hs, hnot⟩) not_mem_nil
      have := (hids.subperm hall).length_le
      simp only [length_map] at this
      omega

end

/-! ### What is started, stopped and restarted -/

theorem Started.stopped (h : Started specs order) (heq : order.reverse = before ++ s :: after)
    (hd : Needs specs s d) : d ∈ after := by
  have hsplit : order = after.reverse ++ s :: before.reverse := by
    rw [← order.reverse_reverse, heq]
    simp
  exact mem_reverse.mp (h.follows _ _ _ hsplit d hd)

theorem Started.restarted (h : Started specs order) (hf : f ∈ order) (hs : s ∈ order)
    (hlead : ReflTransGen (Needs specs) s f) : s ∈ restartSet .restForOne f order := by
  obtain ⟨before, after, rfl⟩ := append_of_mem hf
  have hnot : f ∉ before := fun hin => disjoint_of_nodup_append h.nodup hin mem_cons_self
  have hdrop : restartSet .restForOne f (before ++ f :: after) = f :: after := by
    have hall : ∀ x ∈ before, (x != f) = true := fun x hx => bne_iff_ne.mpr fun he => hnot (he ▸ hx)
    simp [restartSet, dropWhile_append_of_pos hall]
  rw [hdrop]
  obtain rfl | hlead := reflTransGen_iff_eq_or_transGen.mp hlead
  · exact mem_cons_self
  refine (mem_append.mp hs).resolve_left fun hin => ?_
  obtain ⟨front, back, rfl⟩ := append_of_mem hin
  exact hnot (mem_append_left _ (h.follows.transGen (append_assoc _ _ _) hlead))

/-- For every table of distinct services: there is an order exactly if every dependency is in the table and none is
on a cycle; then it is one of all the services, each behind its dependencies, they are stopped in front of theirs,
and with a service all that lead to it are restarted. Otherwise the services that lead to a cycle or to a missing
service are reported, and there are some. -/
theorem startup_order_sorts (hids : (specs.map (·.id)).Nodup) :
    ((∃ order, startupOrder specs = .ok order) ↔
      (∀ s d, Needs specs s d → Listed specs d) ∧ ∀ s, ¬ OnCycle specs s) ∧
    (∀ order, startupOrder specs = .ok order → order ~ specs.map (·.id) ∧ Follows specs order ∧
      teardownOrder specs = .ok order.reverse ∧
      (∀ before s after, order.reverse = before ++ s :: after → ∀ d, Needs specs s d → d ∈ after) ∧
      ∀ f, Listed specs f → restartSet .restForOne f order <:+ order ∧
        ∀ s, ReflTransGen (Needs specs) s f → s ∈ restartSet .restForOne f order) ∧
    ∀ stuck, startupOrder specs = .error (.cycle stuck) → stuck ≠ [] ∧
      ∀ s, s ∈ stuck ↔ Listed specs s ∧ Hopeless specs s := by
  have hnil : Started specs [] := ⟨nodup_nil, by simp, by simp [Follows]⟩
  obtain ⟨order, hrun, h, hlen⟩ | ⟨stuck, hrun, hne, hmem⟩ := startFrom_cases hids _ [] hnil (Nat.zero_add _)
  · replace hrun : startupOrder specs = .ok order := hrun
    have hperm := h.perm hlen.ge
    have hin : ∀ s, Listed specs s → s ∈ order := fun s hs => hperm.mem_iff.mpr (mem_ids.mpr hs)
    have hlisted : ∀ s d, ReflTransGen (Needs specs) s d → Listed specs d → s ∈ order := by
      intro s d hlead hd
      obtain rfl | ⟨_, ⟨spec, hspec, hid, -⟩, -⟩ := hlead.cases_head
      · exact hin _ hd
      · exact hin s ⟨spec, hspec, hid⟩
    refine ⟨iff_of_true ⟨order, hrun⟩ ⟨fun s d hd => ?_, fun s hc => ?_⟩, fun order' h' => ?_, fun stuck h' => ?_⟩
    · obtain ⟨spec, hspec, hid, -⟩ := id hd
      exact h.listed d (h.closed (hin s ⟨spec, hspec, hid⟩) (.single hd))
    · obtain ⟨_, ⟨spec, hspec, hid, -⟩, -⟩ := TransGen.head'_iff.mp hc
      exact h.not_onCycle (hin s ⟨spec, hspec, hid⟩) hc
    · obtain rfl : order = order' := Except.ok.inj (hrun.symm.trans h')
      refine ⟨hperm, h.follows, by simp [teardownOrder, hrun], fun _ _ _ heq _ hd => h.stopped heq hd,
        fun f hf => ⟨dropWhile_suffix _, fun s hlead => h.restarted (hin f hf) (hlisted s f hlead hf) hlead⟩⟩
    · cases hrun.symm.trans h'
  · replace hrun : startupOrder specs = .error (.cycle stuck) := hrun
    refine ⟨iff_of_false ?_ ?_, fun order h' => ?_, fun stuck' h' => ?_⟩
    · rintro ⟨order, h'⟩
      cases hrun.symm.trans h'
    · rintro ⟨hlisted, hacyclic⟩
      obtain ⟨s, hs⟩ := exists_mem_of_ne_nil stuck hne
      obtain ⟨hs, d, hlead, hmissing | hcycle⟩ := (hmem s).mp hs
      · obtain rfl | ⟨x, -, hneeds⟩ := hlead.cases_tail
        · exact hmissing hs
        · exact hmissing (hlisted x d hneeds)
      · exact hacyclic d hcycle
    · cases hrun.symm.trans h'
    cases hrun.symm.trans h'
    exact ⟨hne, hmem⟩

theorem startup_order_sorts_pair : startupOrder [⟨1, [2]⟩, ⟨2, []⟩] = .ok [2, 1] ∧ [2, 1] ~ [(1 : ServiceId), 2] :=
  have hrun : startupOrder [⟨1, [2]⟩, ⟨2, []⟩] = .ok [2, 1] := by decide
  ⟨hrun, ((startup_order_sorts (by decide)).2.1 _ hrun).1⟩

/-- The service waits for one that is not in the table; there is no cycle. -/
theorem missing_service_reported_as_cycle :
    startupOrder [⟨1, [7]⟩] = .error (.cycle [1]) ∧ ∀ s, ¬ OnCycle [⟨1, [7]⟩] s := by
  refine ⟨by decide, fun s hc => ?_⟩
  obtain ⟨_, hfirst, -⟩ := TransGen.head'_iff.mp hc
  obtain ⟨_, -, hlast⟩ := TransGen.tail'_iff.mp hc
  simp only [Needs, mem_singleton, exists_eq_left] at hfirst hlast
  cases hfirst.1.trans hlast.2

end SnitchOs.Supervision
