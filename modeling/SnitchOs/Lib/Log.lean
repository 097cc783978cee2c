import Mathlib.Data.List.Basic

/-!
# Logs

What each entry of a log is, given all that stands before it. A log only grows at its end, so such a
property is kept by showing it of the new entry.
-/

namespace Log

open List

variable {α : Type*} {P : List α → α → Prop} {log : List α}

theorem getElem?_concat (log : List α) (e : α) (i : Nat) : (log ++ [e])[i]? = if i = log.length then some e else log[i]? := by
  split
  · next hi => rw [hi, getElem?_concat_length]
  next hi =>
  by_cases hlt : i < log.length
  · exact getElem?_append_left hlt
  have hpast : (log ++ [e]).length ≤ i := by
    rw [length_append, length_singleton]
    omega
  rw [getElem?_eq_none hpast, getElem?_eq_none (by omega)]

/-- Each entry has `P` with what stands before it. -/
def EachAfter (P : List α → α → Prop) (log : List α) : Prop :=
  ∀ pre e post, log = pre ++ e :: post → P pre e

theorem EachAfter.nil : EachAfter P [] := by
  intro pre e post he
  simp at he

theorem EachAfter.concat (hlog : EachAfter P log) (he : P log e) : EachAfter P (log ++ [e]) := by
  intro pre x post hx
  rcases eq_nil_or_concat post with rfl | ⟨post, y, rfl⟩
  · obtain ⟨rfl, hlast⟩ := append_inj' hx rfl
    rwa [← singleton_inj.mp hlast]
  · rw [concat_eq_append, ← cons_append, ← append_assoc] at hx
    exact hlog pre x post (append_inj' hx rfl).1

end Log
