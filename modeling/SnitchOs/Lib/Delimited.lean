import Mathlib.Data.List.Basic

/-!
# Delimited lists

A list cut behind every delimiter: the terminated pieces, each with its delimiter at the end, and the
rest, in which there is none. `split_append` is the rule for a list that arrives in parts: the pieces of the
first part are final, and its rest is all that the second part needs to know of it.
-/

namespace Delimited

open List

variable {α : Type*} [DecidableEq α] (d : α)

/-- The terminated pieces, and the rest. -/
def split : List α → List (List α) × List α
  | [] => ([], [])
  | a :: l =>
    if a = d then ([a] :: (split l).1, (split l).2)
    else
      match split l with
      | ([], rest) => ([], a :: rest)
      | (piece :: pieces, rest) => ((a :: piece) :: pieces, rest)

/-- Its last element is its only delimiter. -/
def Terminated (l : List α) : Prop := ∃ body, d ∉ body ∧ l = body ++ [d]

def position (l : List α) : Option Nat := l.findIdx? (· == d)

variable {d} {l : List α}

theorem split_of_not_mem (h : d ∉ l) : split d l = ([], l) := by
  induction l with
  | nil => rfl
  | cons a l ih =>
    obtain ⟨hne, hl⟩ := ne_and_not_mem_of_not_mem_cons h
    rw [split, if_neg (Ne.symm hne), ih hl]

theorem split_body (h : d ∉ body) (l : List α) : split d (body ++ d :: l) = ((body ++ [d]) :: (split d l).1, (split d l).2) := by
  induction body with
  | nil => rw [nil_append, split, if_pos rfl, nil_append]
  | cons a body ih =>
    obtain ⟨hne, hbody⟩ := ne_and_not_mem_of_not_mem_cons h
    rw [cons_append, split, if_neg (Ne.symm hne), ih hbody]
    rfl

theorem split_append (a b : List α) :
    split d (a ++ b) = ((split d a).1 ++ (split d ((split d a).2 ++ b)).1, (split d ((split d a).2 ++ b)).2) := by
  induction a with
  | nil => rfl
  | cons x a ih =>
    by_cases hx : x = d
    · simp [cons_append, split, if_pos hx, ih]
    have hpiece : ∀ l, split d (x :: l) = match split d l with
        | ([], rest) => ([], x :: rest)
        | (piece :: pieces, rest) => ((x :: piece) :: pieces, rest) := fun l => by rw [split, if_neg hx]
    rw [cons_append, hpiece, hpiece, ih]
    cases hsplit : split d a with
    | mk pieces rest =>
      cases pieces with
      | nil => rw [nil_append, cons_append, hpiece, nil_append]
      | cons piece pieces => rfl

theorem split_flatten (h : ∀ piece ∈ pieces, Terminated d piece) : split d pieces.flatten = (pieces, []) := by
  induction pieces with
  | nil => rfl
  | cons piece pieces ih =>
    obtain ⟨body, hbody, rfl⟩ := h piece mem_cons_self
    rw [flatten_cons, append_assoc, singleton_append, split_body hbody, ih fun piece hpiece => h piece (mem_cons_of_mem _ hpiece)]

theorem Terminated.of_map_eq (h : Terminated d l) (heq : l'.map (· == d) = l.map (· == d)) : Terminated d l' := by
  obtain ⟨body, hbody, rfl⟩ := h
  rw [map_append] at heq
  obtain ⟨body', last, rfl, hbody', hlast⟩ := map_eq_append_iff.mp heq
  obtain ⟨x, rfl, hx⟩ := map_eq_singleton_iff.mp hlast
  have hxd : x = d := by simpa using hx
  refine ⟨body', fun hmem => hbody ?_, by rw [hxd]⟩
  have htrue : true ∈ body.map (· == d) := hbody' ▸ mem_map.mpr ⟨d, hmem, beq_self_eq_true d⟩
  obtain ⟨y, hy, hyd⟩ := mem_map.mp htrue
  exact eq_of_beq hyd ▸ hy

theorem not_mem_of_position (h : position d l = none) : d ∉ l := by
  intro hmem
  have := findIdx?_eq_none_iff.mp h d hmem
  simp at this

/-- The first piece is the first `n` elements. -/
structure FirstPiece (d : α) (l : List α) (n : Nat) : Prop where
  pos : 0 < n
  le : n ≤ l.length
  split_eq : split d l = (l.take n :: (split d (l.drop n)).1, (split d (l.drop n)).2)

theorem FirstPiece.drop_shorter (h : FirstPiece d l n) : l.length - n < l.length :=
  Nat.sub_lt (Nat.lt_of_lt_of_le h.pos h.le) h.pos

theorem firstPiece_of_position (h : position d l = some i) : FirstPiece d l (i + 1) := by
  obtain ⟨hlt, hat, hbefore⟩ := findIdx?_eq_some_iff_getElem.mp h
  have hd : l[i] = d := by simpa using hat
  have hbody : d ∉ l.take i := by
    intro hmem
    obtain ⟨j, hj, hdj⟩ := mem_iff_getElem.mp hmem
    rw [getElem_take] at hdj
    rw [length_take] at hj
    exact hbefore j (by omega) (by simpa using hdj)
  have hcut : l = l.take i ++ d :: l.drop (i + 1) := by
    conv_lhs => rw [← take_append_drop i l, drop_eq_getElem_cons hlt, hd]
  refine ⟨i.succ_pos, hlt, ?_⟩
  conv_lhs => rw [hcut, split_body hbody]
  rw [take_add_one, getElem?_eq_getElem hlt, hd]
  rfl

end Delimited
