import Mathlib.Logic.Relation

/-!
# Runs of a transition system

Two shapes of run. A total step function is folded over a list of labels; the states of the run are the folds of its
initial segments. A guarded step function `S → L → Option S` gives a relation, of which a run is the reflexive
transitive closure. In both, `C s l` is a condition a step may be asked to meet in the state it is taken from.
-/

namespace Runs

open List Option

variable {S L : Type*}

/-! ### Folds -/

section Fold

variable {I Q : S → Prop} {C : S → L → Prop} {ls : List L}

theorem foldl_take_of_some (hk : ls[k]? = some l) : (ls.take (k + 1)).foldl step s₀ = step ((ls.take k).foldl step s₀) l := by
  rw [take_add_one, hk]
  simp

theorem foldl_take_of_none (hk : ls[k]? = none) : (ls.take (k + 1)).foldl step s₀ = (ls.take k).foldl step s₀ := by
  rw [take_add_one, hk]
  simp

/-- An invariant of the steps that meet `C` holds all along a run whose steps meet it. -/
theorem invariant_take (h0 : I s₀) (hstep : ∀ s l, I s → C s l → I (step s l))
    (hok : ∀ k l, ls[k]? = some l → C ((ls.take k).foldl step s₀) l) (k : Nat) : I ((ls.take k).foldl step s₀) := by
  induction k with
  | zero => exact h0
  | succ k ih =>
    cases hk : ls[k]? with
    | none => rwa [foldl_take_of_none hk]
    | some l =>
      rw [foldl_take_of_some hk]
      exact hstep _ l ih (hok k l hk)

/-- If, under the invariant, a step that does not meet `C` leads out of `Q`, then a run that stays
in `Q` meets `C` at every step. -/
theorem ok_of_forall_take (h0 : I s₀) (hstep : ∀ s l, I s → C s l → I (step s l)) (hforce : ∀ s l, I s → Q (step s l) → C s l)
    (hQ : ∀ k, Q ((ls.take k).foldl step s₀)) (k : Nat) (l : L) (hk : ls[k]? = some l) : C ((ls.take k).foldl step s₀) l := by
  have hok : ∀ k l, I ((ls.take k).foldl step s₀) → ls[k]? = some l →
      C ((ls.take k).foldl step s₀) l := by
    intro k l hinv hk
    have hnext := hQ (k + 1)
    rw [foldl_take_of_some hk] at hnext
    exact hforce _ l hinv hnext
  have hinv : ∀ k, I ((ls.take k).foldl step s₀) := by
    intro k
    induction k with
    | zero => exact h0
    | succ k ih =>
      cases hk : ls[k]? with
      | none => rwa [foldl_take_of_none hk]
      | some l =>
        rw [foldl_take_of_some hk]
        exact hstep _ l ih (hok k l ih hk)
  exact hok k l (hinv k) hk

end Fold

/-! ### Guarded steps -/

section Guarded

variable (step : S → L → Option S) (C : S → L → Prop)

/-- One enabled step whose label meets `C`. -/
def Next (s s' : S) : Prop := ∃ l, C s l ∧ step s l = some s'

/-- Reachable by steps that all meet `C`. -/
abbrev Reaches : S → S → Prop := Relation.ReflTransGen (Next step C)

def exec (s : S) : List L → Option S
  | [] => some s
  | l :: ls => (step s l).bind (exec · ls)

variable {step C} {ls : List L}

theorem reaches_of_exec (h : exec step s ls = some s') (hC : ∀ l ∈ ls, ∀ s, C s l) : Reaches step C s s' := by
  induction ls generalizing s with
  | nil =>
    cases h
    exact .refl
  | cons l ls ih =>
    obtain ⟨s₁, hl, hrest⟩ := bind_eq_some_iff.mp h
    exact .head ⟨l, hC l mem_cons_self s, hl⟩ (ih hrest fun l' hl' => hC l' (mem_cons_of_mem _ hl'))

theorem reaches_of_exec_checked [∀ s l, Decidable (C s l)]
    (h : exec (fun s l => if C s l then step s l else none) s ls = some s') : Reaches step C s s' := by
  induction ls generalizing s with
  | nil =>
    cases h
    exact .refl
  | cons l ls ih =>
    obtain ⟨s₁, hl, hrest⟩ := bind_eq_some_iff.mp h
    simp only at hl
    split at hl
    · next hC => exact .head ⟨l, hC, hl⟩ (ih hrest)
    · cases hl

theorem exists_reaches [∀ s l, Decidable (C s l)] {P : S → Prop} [DecidablePred P] (ls : List L)
    (h : (exec (fun s l => if C s l then step s l else none) s ls).any (fun s => decide (P s)) = true) :
    ∃ s', Reaches step C s s' ∧ P s' := by
  obtain ⟨s', hexec, hP⟩ := (any_eq_true _ _).mp h
  exact ⟨s', reaches_of_exec_checked hexec, of_decide_eq_true hP⟩

/-- The invariant rule: what the first state has and every admitted step keeps, every reachable
state has. -/
theorem Reaches.invariant {I : S → Prop} (hrun : Reaches step C s s') (h0 : I s)
    (hstep : ∀ s l s', I s → C s l → step s l = some s' → I s') : I s' := by
  induction hrun with
  | refl => exact h0
  | tail _ hnext ih =>
    obtain ⟨l, hok, hl⟩ := hnext
    exact hstep _ l _ ih hok hl

end Guarded

end Runs
