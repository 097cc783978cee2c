import Mathlib.Data.Option.Basic
import Mathlib.Tactic.Common

/-!
# Programs with effects that may panic

A program as the list of the effects it has and the value it ends with; `none` is a panic, and the
effects before it stay. `Emits P x Q` bounds the effects of a program and what it ends with, and
`Alike R x y` compares two programs: the same effects, and values related by `R`.
-/

namespace Effects

open List

universe u

structure Prog (E : Type) (α : Type u) where
  log : List E
  value : Option α

variable {E : Type} {α β : Type u} {x : Prog E α} {a : α} {o o' : Option α} {f : α → Prog E β}
  {S : β → β → Prop}

namespace Prog

instance : Monad (Prog E) where
  pure a := ⟨[], some a⟩
  bind x f :=
    match x.value with
    | none => ⟨x.log, none⟩
    | some a => ⟨x.log ++ (f a).log, (f a).value⟩

def emit (e : E) : Prog E PUnit := ⟨[e], some ⟨⟩⟩

def ofOption (o : Option α) : Prog E α := ⟨[], o⟩

@[simp] theorem pure_log (a : α) : (pure a : Prog E α).log = [] := rfl

@[simp] theorem pure_value (a : α) : (pure a : Prog E α).value = some a := rfl

@[simp] theorem emit_bind (e : E) (f : PUnit → Prog E α) : (emit e >>= f) = ⟨e :: (f ⟨⟩).log, (f ⟨⟩).value⟩ := rfl

theorem bind_of_none (h : x.value = none) (f : α → Prog E β) : x >>= f = ⟨x.log, none⟩ := by
  simp [bind, h]

theorem bind_of_some (h : x.value = some a) (f : α → Prog E β) : x >>= f = ⟨x.log ++ (f a).log, (f a).value⟩ := by
  simp [bind, h]

end Prog

open Prog

/-! ### What a program may do -/

/-- Every effect has `P`, and a value the program ends with has `Q`. -/
structure Emits (P : E → Prop) (x : Prog E α) (Q : α → Prop) : Prop where
  effect : ∀ e ∈ x.log, P e
  value : ∀ a, x.value = some a → Q a

section Emits

variable {P : E → Prop} {Q : α → Prop}

theorem Emits.pure (h : Q a) : Emits P (pure a : Prog E α) Q where
  effect e he := by simp at he
  value b hb := by cases hb; exact h

theorem Emits.emit {Q : PUnit → Prop} (h : P e) (hQ : Q ⟨⟩) : Emits P (emit e) Q where
  effect e' he := by rwa [mem_singleton.mp he]
  value _ _ := hQ

theorem Emits.ofOption (h : ∀ a, o = some a → Q a) : Emits P (ofOption o : Prog E α) Q where
  effect e he := by simp [Prog.ofOption] at he
  value := h

theorem Emits.bind {R : β → Prop} (hx : Emits P x Q) (hf : ∀ a, Q a → Emits P (f a) R) : Emits P (x >>= f) R := by
  cases hv : x.value with
  | none =>
    rw [bind_of_none hv]
    exact ⟨hx.effect, fun a ha => by cases ha⟩
  | some a =>
    rw [bind_of_some hv]
    have hfa := hf a (hx.value a hv)
    refine ⟨fun e he => ?_, hfa.value⟩
    exact (mem_append.mp he).elim (hx.effect e) (hfa.effect e)

theorem Emits.mono {Q' : α → Prop} (hx : Emits P x Q) (hQ : ∀ a, Q a → Q' a) : Emits P x Q' :=
  ⟨hx.effect, fun a ha => hQ a (hx.value a ha)⟩

theorem Emits.foldlM (ls : List β)
    (hstep : ∀ a, ∀ l ∈ ls, Q a → Emits P (step a l) Q) : ∀ a, Q a → Emits P (ls.foldlM step a) Q := by
  induction ls with
  | nil => exact fun a ha => .pure ha
  | cons l ls ih =>
    intro a ha
    rw [foldlM_cons]
    exact (hstep a l mem_cons_self ha).bind (ih fun b l' hl' => hstep b l' (mem_cons_of_mem l hl'))

end Emits

/-! ### Programs with the same effects -/

theorem rel_bind {R : α → α → Prop} {f g : α → Option β} (h : Option.Rel R o o')
    (hfg : ∀ a b, R a b → Option.Rel S (f a) (g b)) : Option.Rel S (o.bind f) (o'.bind g) := by
  cases h with
  | none => exact .none
  | some hab => exact hfg _ _ hab

/-- The same effects, and both panic or both end with related values. -/
structure Alike (R : α → α → Prop) (x y : Prog E α) : Prop where
  log : x.log = y.log
  value : Option.Rel R x.value y.value

section Alike

variable {R : α → α → Prop}

theorem Alike.pure (h : R a b) : Alike R (pure a : Prog E α) (pure b) := ⟨rfl, .some h⟩

theorem Alike.emit (e : E) : Alike Eq (emit e) (emit e) := ⟨rfl, .some rfl⟩

theorem Alike.ofOption (h : Option.Rel R o o') : Alike R (ofOption o : Prog E α) (ofOption o') := ⟨rfl, h⟩

theorem Alike.bind (hxy : Alike R x y) (hfg : ∀ a b, R a b → Alike S (f a) (g b)) : Alike S (x >>= f) (y >>= g) := by
  obtain ⟨hlog, hvalue⟩ := hxy
  cases hv : x.value with
  | none =>
    rw [hv] at hvalue
    generalize hw : y.value = w at hvalue
    cases hvalue
    rw [bind_of_none hv, bind_of_none hw]
    exact ⟨hlog, .none⟩
  | some a =>
    rw [hv] at hvalue
    generalize hw : y.value = w at hvalue
    cases hvalue with
    | some hab =>
      rw [bind_of_some hv, bind_of_some hw]
      have hfg' := hfg _ _ hab
      exact ⟨by rw [hlog, hfg'.log], hfg'.value⟩

end Alike

end Effects
