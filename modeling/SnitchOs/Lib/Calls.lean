import Mathlib.Data.Option.Basic
import Mathlib.Tactic.Common

/-!
# Programs that call one another

A family of mutually recursive procedures as open programs: a tree whose nodes are primitive operations and calls, a
call handing its continuation the callee's result or exception. `meaning body n` runs the family with at most `n`
nested calls and is `none` when they do not suffice, so that what terminates is `some` from some depth on. An
invariant of all the procedures is shown for their bodies, assuming it of the calls.
-/

namespace Calls

open Option

structure Interface where
  Op : Type
  Res : Op → Type

/-- Operations of `I`, calls of `J`. -/
inductive Prog (I J : Interface) (ε α : Type)
  | done (r : Except ε α)
  | op (o : I.Op) (k : I.Res o → Prog I J ε α)
  | call (c : J.Op) (k : Except ε (J.Res c) → Prog I J ε α)

namespace Prog

variable {I J : Interface} {ε α β : Type}

def bind : Prog I J ε α → (α → Prog I J ε β) → Prog I J ε β
  | .done (.ok a), f => f a
  | .done (.error e), _ => .done (.error e)
  | .op o k, f => .op o fun r => (k r).bind f
  | .call c k, f => .call c fun r => (k r).bind f

instance : Monad (Prog I J ε) where
  pure a := .done (.ok a)
  bind := bind

instance : MonadExcept ε (Prog I J ε) where
  throw e := .done (.error e)
  tryCatch := go
where
  go {α : Type} : Prog I J ε α → (ε → Prog I J ε α) → Prog I J ε α
    | .done (.ok a), _ => .done (.ok a)
    | .done (.error e), handler => handler e
    | .op o k, handler => .op o fun r => go (k r) handler
    | .call c k, handler => .call c fun r => go (k r) handler

def perform (o : I.Op) : Prog I J ε (I.Res o) := .op o fun r => .done (.ok r)

def invoke (c : J.Op) : Prog I J ε (J.Res c) := .call c .done

end Prog

section Semantics

variable {I J : Interface} {ε α β σ : Type}

/-- What a call does to the state, if it is known to end. -/
abbrev Meaning (J : Interface) (ε σ : Type) := (c : J.Op) → σ → Option (Except ε (J.Res c) × σ)

variable (handle : (o : I.Op) → σ → I.Res o × σ) {calls : Meaning J ε σ} {c : J.Op} {s : σ}
  {n m : Nat}

def run (calls : Meaning J ε σ) : Prog I J ε α → σ → Option (Except ε α × σ)
  | .done r, s => some (r, s)
  | .op o k, s => run calls (k (handle o s).1) (handle o s).2
  | .call c k, s => (calls c s).bind fun p => run calls (k p.1) p.2

def meaning (body : (c : J.Op) → Prog I J ε (J.Res c)) : Nat → Meaning J ε σ
  | 0 => fun _ _ => none
  | n + 1 => fun c s => run handle (meaning body n) (body c) s

/-- Go on from a result, an exception being passed on. -/
def resume (k : α → σ → Option (Except ε β × σ)) : Except ε α × σ → Option (Except ε β × σ)
  | (.ok a, s) => k a s
  | (.error e, s) => some (.error e, s)

theorem run_bind (calls : Meaning J ε σ) (p : Prog I J ε α) (f : α → Prog I J ε β) (s : σ) :
    run handle calls (p >>= f) s = (run handle calls p s).bind (resume fun a s => run handle calls (f a) s) := by
  induction p generalizing s with
  | done r => cases r <;> rfl
  | op o k ih => exact ih _ _
  | call c k ih =>
    change (calls c s).bind _ = ((calls c s).bind _).bind _
    rw [bind_assoc]
    exact bind_congr fun q _ => ih q.1 q.2

theorem run_invoke (h : run handle calls (.call c .done) s = some q) : calls c s = some q := by
  obtain ⟨q', hq, hrest⟩ := bind_eq_some_iff.1 h
  obtain rfl : q' = q := some.inj hrest
  exact hq

/-! ### Deeper runs -/

/-- What ends in the one ends so in the other. -/
def Meaning.Le (calls calls' : Meaning J ε σ) : Prop :=
  ∀ c s r, calls c s = some r → calls' c s = some r

theorem run_le (h : calls.Le calls') (hr : run handle calls p s = some r) : run handle calls' p s = some r := by
  induction p generalizing s with
  | done _ => exact hr
  | op o k ih => exact ih _ hr
  | call c k ih =>
    obtain ⟨q, hq, hrest⟩ := bind_eq_some_iff.1 hr
    exact bind_eq_some_iff.2 ⟨q, h c s q hq, ih q.1 hrest⟩

variable (body : (c : J.Op) → Prog I J ε (J.Res c))

theorem meaning_succ_le (n : Nat) : Meaning.Le (meaning handle body n) (meaning handle body (n + 1)) := by
  induction n with
  | zero => exact fun _ _ _ h => nomatch h
  | succ n ih => exact fun _ _ _ h => run_le handle ih h

theorem meaning_le (h : n ≤ m) : Meaning.Le (meaning handle body n) (meaning handle body m) := by
  induction h with
  | refl => exact fun _ _ _ h => h
  | step _ ih => exact fun c s r h => meaning_succ_le handle body _ c s r (ih c s r h)

theorem meaning_unique (h : meaning handle body n c s = some r) (h' : meaning handle body m c s = some r') : r = r' := by
  have hn := meaning_le handle body (Nat.le_max_left n m) c s r h
  have hm := meaning_le handle body (Nat.le_max_right n m) c s r' h'
  exact some.inj (hn.symm.trans hm)

end Semantics

end Calls
