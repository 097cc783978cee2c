import Mathlib.Algebra.Order.BigOperators.Group.Finset

/-!
# Tokens in places

Places `l : L` hold multisets `A l` of tokens. `Within b A` bounds each token by its budget over any finite set of
places: the tokens are affine when the budget is at most one. A step touches finitely many places; `Within.step` asks
only what happens in those, and lets the budget change, so that issuing a token and retiring one are steps like any
other.
-/

namespace Budget

open Finset

variable {L K : Type*} [DecidableEq L] [DecidableEq K] {b b' : K → ℕ} {A A' : L → Multiset K}

/-- However many places one looks at, they hold at most `b k` tokens `k`. -/
def Within (b : K → ℕ) (A : L → Multiset K) : Prop :=
  ∀ (s : Finset L) (k : K), (∑ l ∈ s, A l).count k ≤ b k

omit [DecidableEq L] in
theorem Within.of_unique (hone : ∀ l k, (A l).count k ≤ 1)
    (huniq : ∀ l m k, k ∈ A l → k ∈ A m → l = m) (hb : ∀ l k, k ∈ A l → 1 ≤ b k) : Within b A := by
  intro s k
  rw [Multiset.count_sum']
  by_cases hk : ∃ l ∈ s, k ∈ A l
  · obtain ⟨l, hl, hkl⟩ := hk
    rw [sum_eq_single_of_mem l hl]
    · exact (hone l k).trans (hb l k hkl)
    intro m _ hml
    exact Multiset.count_eq_zero.mpr fun hkm => hml (huniq m l k hkm hkl)
  · push Not at hk
    rw [sum_eq_zero fun l hl => Multiset.count_eq_zero.mpr (hk l hl)]
    exact Nat.zero_le _

namespace Within

variable (h : Within b A)
include h

/-- The places `u` gain no more than their budgets do, and no other place gains anything. -/
theorem step (u : Finset L) (hoff : ∀ l ∉ u, A' l ≤ A l)
    (hu : ∀ k, (∑ l ∈ u, A' l).count k + b k ≤ (∑ l ∈ u, A l).count k + b' k) : Within b' A' := by
  intro s k
  have hsplit : ∀ B : L → Multiset K,
      (∑ l ∈ s ∪ u, B l).count k = (∑ l ∈ s \ u, B l).count k + (∑ l ∈ u, B l).count k := by
    intro B
    rw [← Multiset.count_add, ← sum_sdiff subset_union_right, union_sdiff_right]
  have hmono : (∑ l ∈ s \ u, A' l).count k ≤ (∑ l ∈ s \ u, A l).count k :=
    Multiset.count_le_of_le k (sum_le_sum fun l hl => hoff l (mem_sdiff.mp hl).2)
  have hs : (∑ l ∈ s, A' l).count k ≤ (∑ l ∈ s ∪ u, A' l).count k :=
    Multiset.count_le_of_le k (sum_le_sum_of_subset subset_union_left)
  have hb := h (s ∪ u) k
  have := hu k
  have := hsplit A
  have := hsplit A'
  omega

theorem one (l : L) (hoff : ∀ m, m ≠ l → A' m ≤ A m) (hl : ∀ k, (A' l).count k + b k ≤ (A l).count k + b' k) : Within b' A' := by
  refine h.step {l} (fun m hm => hoff m (by simpa using hm)) fun k => ?_
  simpa using hl k

theorem two (hlm : l ≠ m) (hoff : ∀ n, n ≠ l → n ≠ m → A' n ≤ A n)
    (hu : ∀ k, (A' l).count k + (A' m).count k + b k ≤ (A l).count k + (A m).count k + b' k) : Within b' A' := by
  refine h.step {l, m} (fun n hn => ?_) fun k => ?_
  · simp only [mem_insert, mem_singleton, not_or] at hn
    exact hoff n hn.1 hn.2
  · simpa [sum_pair hlm] using hu k

theorem three (hlm : l ≠ m) (hln : l ≠ n) (hmn : m ≠ n) (hoff : ∀ p, p ≠ l → p ≠ m → p ≠ n → A' p ≤ A p)
    (hu : ∀ k, (A' l).count k + ((A' m).count k + (A' n).count k) + b k ≤
      (A l).count k + ((A m).count k + (A n).count k) + b' k) : Within b' A' := by
  refine h.step {l, m, n} (fun p hp => ?_) fun k => ?_
  · simp only [mem_insert, mem_singleton, not_or] at hp
    exact hoff p hp.1 hp.2.1 hp.2.2
  · simpa [sum_insert, hlm, hln, hmn] using hu k

theorem mono (hA : ∀ l, A' l ≤ A l) (hb : ∀ k, b k ≤ b' k) : Within b' A' :=
  h.step ∅ (fun l _ => hA l) fun k => by simpa using hb k

omit [DecidableEq L] in
theorem count_le (l : L) (k : K) : (A l).count k ≤ b k := by
  simpa using h {l} k

theorem count_add_le (hlm : l ≠ m) (k : K) : (A l).count k + (A m).count k ≤ b k := by
  simpa [sum_pair hlm] using h {l, m} k

omit [DecidableEq L] in
theorem not_mem (hk : b k = 0) (l : L) : k ∉ A l := by
  rw [← Multiset.count_eq_zero, ← Nat.le_zero, ← hk]
  exact h.count_le l k

theorem place_unique (hk : b k ≤ 1) (hl : k ∈ A l) (hm : k ∈ A m) : l = m := by
  by_contra hlm
  have hsum := h.count_add_le hlm k
  have hl' := Multiset.one_le_count_iff_mem.mpr hl
  have hm' := Multiset.one_le_count_iff_mem.mpr hm
  omega

theorem issue (l : L) (hoff : ∀ m, m ≠ l → A' m ≤ A m)
    (hl : A' l ≤ x ::ₘ A l) (hx : b x + 1 ≤ b' x) (hb : ∀ k, b k ≤ b' k) : Within b' A' := by
  refine h.one l hoff fun k => ?_
  have hle := Multiset.count_le_of_le k hl
  rw [Multiset.count_cons] at hle
  have hbk := hb k
  by_cases hk : k = x
  · subst hk
    rw [if_pos rfl] at hle
    omega
  · rw [if_neg hk] at hle
    omega

/-! ### Moves -/

end Within

/-- A step that at most moves tokens around within finitely many places, and drops some. -/
def Moves (A A' : L → Multiset K) : Prop :=
  ∃ u : Finset L, ∑ l ∈ u, A' l ≤ ∑ l ∈ u, A l ∧ ∀ l ∉ u, A' l ≤ A l

omit [DecidableEq L] [DecidableEq K] in
theorem Moves.of_le (h : ∀ l, A' l ≤ A l) : Moves A A' := ⟨∅, by simp, fun l _ => h l⟩

omit [DecidableEq K] in
theorem Moves.two (hlm : l ≠ m) (hu : A' l + A' m ≤ A l + A m) (hoff : ∀ p, p ≠ l → p ≠ m → A' p ≤ A p) : Moves A A' := by
  refine ⟨{l, m}, by simpa [sum_pair hlm] using hu, fun p hp => ?_⟩
  simp only [mem_insert, mem_singleton, not_or] at hp
  exact hoff p hp.1 hp.2

omit [DecidableEq K] in
theorem Moves.three (hlm : l ≠ m) (hlo : l ≠ o) (hmo : m ≠ o) (hu : A' l + (A' m + A' o) ≤ A l + (A m + A o))
    (hoff : ∀ p, p ≠ l → p ≠ m → p ≠ o → A' p ≤ A p) : Moves A A' := by
  refine ⟨{l, m, o}, by simpa [sum_insert, hlm, hlo, hmo] using hu, fun p hp => ?_⟩
  simp only [mem_insert, mem_singleton, not_or] at hp
  exact hoff p hp.1 hp.2.1 hp.2.2

omit [DecidableEq L] [DecidableEq K] in
theorem Moves.mem (h : Moves A A') (hk : k ∈ A' l) : ∃ m, k ∈ A m := by
  obtain ⟨u, hu, hoff⟩ := h
  by_cases hl : l ∈ u
  · have : k ∈ ∑ m ∈ u, A m := Multiset.mem_of_le hu (Multiset.mem_sum.mpr ⟨l, hl, hk⟩)
    obtain ⟨m, -, hm⟩ := Multiset.mem_sum.mp this
    exact ⟨m, hm⟩
  · exact ⟨l, Multiset.mem_of_le (hoff l hl) hk⟩

omit [DecidableEq L] [DecidableEq K] in
theorem Moves.mask (h : Moves A A') (M : L → Bool) (hM : ∀ l, M l = true → A' l = A l) :
    Moves (fun l => if M l then 0 else A l) (fun l => if M l then 0 else A' l) := by
  obtain ⟨u, hu, hoff⟩ := h
  refine ⟨u, ?_, fun l hl => ?_⟩
  · have hsplit : ∀ B : L → Multiset K, ∑ l ∈ u, B l = ∑ l ∈ u with M l, B l + ∑ l ∈ u, if M l then 0 else B l := by
      intro B
      rw [sum_filter, ← sum_add_distrib]
      refine sum_congr rfl fun l _ => ?_
      cases M l <;> simp
    have hsame : ∑ l ∈ u with M l, A' l = ∑ l ∈ u with M l, A l :=
      sum_congr rfl fun l hl => hM l (mem_filter.mp hl).2
    rw [hsplit A, hsplit A', hsame] at hu
    exact le_of_add_le_add_left hu
  · cases hMl : M l with
    | true => simp [hMl]
    | false => simpa [hMl] using hoff l hl

omit [DecidableEq L] [DecidableEq K] in
theorem sum_map {J : Type*} (f : K → J) (s : Finset L) (A : L → Multiset K) : ∑ l ∈ s, (A l).map f = (∑ l ∈ s, A l).map f :=
  (map_sum (Multiset.mapAddMonoidHom f) A s).symm

omit [DecidableEq K] in
theorem Moves.within {J : Type*} [DecidableEq J] {b : J → ℕ} (f : K → J) (h : Moves A A')
    (hA : Within b fun l => (A l).map f) : Within b fun l => (A' l).map f := by
  obtain ⟨u, hu, hoff⟩ := h
  refine hA.step u (fun l hl => Multiset.map_le_map (hoff l hl)) fun k => ?_
  rw [sum_map, sum_map]
  exact Nat.add_le_add_right (Multiset.count_le_of_le k (Multiset.map_le_map hu)) _

end Budget
