import SnitchOs.Lib.Calls
import Mathlib.Order.WellFounded

/-!
# The calls that are pending

`limit` is what the procedures do at no depth in particular. `Pending` are the stacks of calls that occur in the run
of one. A call that never ends keeps its callers from ending, and a call ends if no chain of pending calls goes on for
ever. `seek` finds a stack by running the procedures.
-/

namespace Calls

open Option

section

variable {I J : Interface} {ε α β σ : Type} {o : I.Op} {c : J.Op} {R : σ → σ → Prop}
variable (handle : (o : I.Op) → σ → I.Res o × σ)

/-! ### What a program does -/

/-- Its operations are in `P` and its calls in `Q`. -/
def Prog.Uses (P : I.Op → Prop) (Q : J.Op → Prop) : Prog I J ε α → Prop
  | .done _ => True
  | .op o k => P o ∧ ∀ r, (k r).Uses P Q
  | .call c k => Q c ∧ ∀ r, (k r).Uses P Q

/-- Its operations are in `P` and its calls in `Q`, it passes on the exceptions of these, its own are in `E` and its
values in `A`. -/
def Prog.Straight (P : I.Op → Prop) (Q : J.Op → Prop) (E : ε → Prop) (A : α → Prop) : Prog I J ε α → Prop
  | .done r => (∀ e, r = .error e → E e) ∧ ∀ a, r = .ok a → A a
  | .op o k => P o ∧ ∀ r, (k r).Straight P Q E A
  | .call c k => Q c ∧ (∀ e, k (.error e) = .done (.error e)) ∧ ∀ a, (k (.ok a)).Straight P Q E A

namespace Prog.Straight

variable {P P' : I.Op → Prop} {Q Q' : J.Op → Prop} {E E' : ε → Prop} {A A' : α → Prop} {B : β → Prop}
variable {p : Prog I J ε α} {f : α → Prog I J ε β} {a : α} {e : ε}

theorem pure (h : A a) : (Pure.pure a : Prog I J ε α).Straight P Q E A := by
  refine ⟨fun _ he => (nomatch he), ?_⟩
  rintro _ ⟨⟩
  exact h

theorem throw (h : E e) : (MonadExcept.throw e : Prog I J ε α).Straight P Q E A := by
  refine ⟨?_, fun _ he => nomatch he⟩
  rintro _ ⟨⟩
  exact h

theorem perform {g : I.Res o → α} (h : P o) (hA : ∀ r, A (g r)) :
    (Prog.op o fun r => .done (.ok (g r)) : Prog I J ε α).Straight P Q E A :=
  ⟨h, fun r => pure (hA r)⟩

theorem invoke {A : J.Res c → Prop} (h : Q c) (hA : ∀ a, A a) : (Prog.call c .done : Prog I J ε (J.Res c)).Straight P Q E A :=
  ⟨h, fun _ => rfl, fun a => pure (hA a)⟩

theorem bind (hp : p.Straight P Q E A) (hf : ∀ a, A a → (f a).Straight P Q E B) : (p >>= f).Straight P Q E B := by
  induction p with
  | done r =>
    cases r with
    | ok a => exact hf a (hp.2 a rfl)
    | error e => exact throw (hp.1 e rfl)
  | op o k ih => exact ⟨hp.1, fun r => ih r (hp.2 r)⟩
  | call c k ih =>
    refine ⟨hp.1, fun e => ?_, fun a => ih (.ok a) (hp.2.2 a)⟩
    change (k (.error e)).bind f = _
    rw [hp.2.1 e]
    rfl

theorem map {g : α → β} (hp : p.Straight P Q E A) : (p >>= fun a => Pure.pure (g a)).Straight P Q E fun _ => True :=
  hp.bind fun _ _ => pure trivial

theorem mono (hP : ∀ o, P o → P' o) (hQ : ∀ c, Q c → Q' c) (hE : ∀ e, E e → E' e) (hA : ∀ a, A a → A' a)
    (hp : p.Straight P Q E A) : p.Straight P' Q' E' A' := by
  induction p with
  | done r => exact ⟨fun e he => hE e (hp.1 e he), fun a ha => hA a (hp.2 a ha)⟩
  | op o k ih => exact ⟨hP o hp.1, fun r => ih r (hp.2 r)⟩
  | call c k ih => exact ⟨hQ c hp.1, hp.2.1, fun a => ih (.ok a) (hp.2.2 a)⟩

theorem uses (hp : p.Straight P Q E A) : p.Uses P Q := by
  induction p with
  | done r => trivial
  | op o k ih => exact ⟨hp.1, fun r => ih r (hp.2 r)⟩
  | call c k ih =>
    refine ⟨hp.1, fun r => ?_⟩
    cases r with
    | ok a => exact ih (.ok a) (hp.2.2 a)
    | error e =>
      rw [hp.2.1 e]
      trivial

variable {calls : Meaning J ε σ} {s s' : σ}

theorem run_ok (hp : p.Straight P Q E A) (hr : run handle calls p s = some (.ok a, s')) : A a := by
  induction p generalizing s with
  | done _ =>
    obtain ⟨rfl, -⟩ := Prod.mk.inj (some.inj hr)
    exact hp.2 a rfl
  | op o k ih => exact ih _ (hp.2 _) hr
  | call c k ih =>
    obtain ⟨⟨r', s₁⟩, -, hrest⟩ := bind_eq_some_iff.1 hr
    cases r' with
    | ok a' => exact ih (.ok a') (hp.2.2 a') hrest
    | error e =>
      rw [hp.2.1 e] at hrest
      exact nomatch hrest

theorem run_total (hp : p.Straight P (fun _ => False) (fun _ => False) A) (s : σ) :
    ∃ a s', run handle calls p s = some (.ok a, s') := by
  induction p generalizing s with
  | done r =>
    cases r with
    | ok a => exact ⟨a, s, rfl⟩
    | error e => exact (hp.1 e rfl).elim
  | op o k ih => exact ih _ (hp.2 _) _
  | call c k _ => exact hp.1.elim

theorem run_error (hp : p.Straight P Q E A) (hr : run handle calls p s = some (.error e, s')) :
    E e ∨ ∃ c s₀ s₁, Q c ∧ calls c s₀ = some (.error e, s₁) := by
  induction p generalizing s with
  | done _ =>
    obtain ⟨rfl, -⟩ := Prod.mk.inj (some.inj hr)
    exact .inl (hp.1 e rfl)
  | op o k ih => exact ih _ (hp.2 _) hr
  | call c k ih =>
    obtain ⟨⟨r', s₁⟩, hc, hrest⟩ := bind_eq_some_iff.1 hr
    cases r' with
    | ok a => exact ih (.ok a) (hp.2.2 a) hrest
    | error e' =>
      rw [hp.2.1 e'] at hrest
      obtain ⟨he, -⟩ := Prod.mk.inj (some.inj hrest)
      cases he
      exact .inr ⟨c, s, s₁, hp.1, hc⟩

end Prog.Straight

namespace Prog.Uses

variable {P P' : I.Op → Prop} {Q Q' : J.Op → Prop} {p : Prog I J ε α} {f : α → Prog I J ε β}

theorem bind (hp : p.Uses P Q) (hf : ∀ a, (f a).Uses P Q) : (p >>= f).Uses P Q := by
  induction p with
  | done r =>
    cases r with
    | ok a => exact hf a
    | error e => trivial
  | op o k ih | call c k ih => exact ⟨hp.1, fun r => ih r (hp.2 r)⟩

theorem mono (hP : ∀ o, P o → P' o) (hQ : ∀ c, Q c → Q' c) (hp : p.Uses P Q) : p.Uses P' Q' := by
  induction p with
  | done r => trivial
  | op o k ih => exact ⟨hP o hp.1, fun r => ih r (hp.2 r)⟩
  | call c k ih => exact ⟨hQ c hp.1, fun r => ih r (hp.2 r)⟩

variable {calls : Meaning J ε σ} {s s' : σ} {r : Except ε α}

theorem run_rel (hrefl : ∀ s, R s s) (htrans : ∀ s s' s'', R s s' → R s' s'' → R s s'')
    (hop : ∀ o s, P o → R s (handle o s).2) (hcall : ∀ c s r s', Q c → calls c s = some (r, s') → R s s') (hp : p.Uses P Q)
    (hr : run handle calls p s = some (r, s')) : R s s' := by
  induction p generalizing s with
  | done _ =>
    obtain ⟨-, rfl⟩ := Prod.mk.inj (some.inj hr)
    exact hrefl _
  | op o k ih => exact htrans _ _ _ (hop o s hp.1) (ih _ (hp.2 _) hr)
  | call c k ih =>
    obtain ⟨⟨r', s₁⟩, hc, hrest⟩ := bind_eq_some_iff.1 hr
    exact htrans _ _ _ (hcall c s r' s₁ hp.1 hc) (ih r' (hp.2 r') hrest)

end Prog.Uses

variable {p : Prog I J ε α} {s s' : σ} {r : Except ε α} {c₀ : J.Op} {q : Except ε α × σ}
  {calls' : Meaning J ε σ} {cs : List J.Op}

/-! ### At any depth -/

section Limit

variable (body : (c : J.Op) → Prog I J ε (J.Res c))

open Classical in
/-- What a call does at some depth, and then at every larger one. -/
noncomputable def limit : Meaning J ε σ := fun c s =>
  if h : ∃ r n, meaning handle body n c s = some r then some h.choose else none

variable {c : J.Op} {s : σ}

theorem limit_eq_some {r : Except ε (J.Res c) × σ} :
    limit handle body c s = some r ↔ ∃ n, meaning handle body n c s = some r := by
  unfold limit
  constructor
  · intro h
    split at h
    · rename_i hex
      obtain rfl := some.inj h
      exact hex.choose_spec
    · exact nomatch h
  · rintro ⟨n, hn⟩
    have hex : ∃ r n, meaning handle body n c s = some r := ⟨r, n, hn⟩
    obtain ⟨m, hm⟩ := hex.choose_spec
    rw [dif_pos hex, meaning_unique handle body hm hn]

theorem meaning_le_limit (n : Nat) : Meaning.Le (meaning handle body n) (limit handle body) :=
  fun _ _ _ h => (limit_eq_some handle body).2 ⟨n, h⟩

theorem run_limit {r : Except ε α × σ} :
    run handle (limit handle body) p s = some r ↔ ∃ n, run handle (meaning handle body n) p s = some r := by
  refine ⟨fun h => ?_, fun ⟨n, h⟩ => run_le handle (meaning_le_limit handle body n) h⟩
  induction p generalizing s with
  | done _ => exact ⟨0, h⟩
  | op o k ih => exact ih _ h
  | call c k ih =>
    obtain ⟨q, hq, hrest⟩ := bind_eq_some_iff.1 h
    obtain ⟨n, hn⟩ := (limit_eq_some handle body).1 hq
    obtain ⟨m, hm⟩ := ih q.1 hrest
    refine ⟨max n m, bind_eq_some_iff.2 ⟨q, ?_, ?_⟩⟩
    · exact meaning_le handle body (Nat.le_max_left n m) c s q hn
    · exact run_le handle (meaning_le handle body (Nat.le_max_right n m)) hm

theorem limit_eq : limit handle body c s = run handle (limit handle body) (body c) s := by
  refine Option.ext fun r => ?_
  rw [limit_eq_some, run_limit]
  constructor
  · rintro ⟨n, hn⟩
    cases n with
    | zero => exact nomatch hn
    | succ n => exact ⟨n, hn⟩
  · rintro ⟨n, hn⟩
    exact ⟨n + 1, hn⟩

end Limit

/-! ### In the middle of a run -/

/-- The run comes to make a call, after those before it have ended. -/
inductive Reaches (calls : Meaning J ε σ) : Prog I J ε α → σ → J.Op → σ → Prop
  | call (c k s) : Reaches calls (.call c k) s c s
  | op (o k s c' s') (h : Reaches calls (k (handle o s).1) (handle o s).2 c' s') : Reaches calls (.op o k) s c' s'
  | past (c k s r s₁ c' s') (hc : calls c s = some (r, s₁)) (h : Reaches calls (k r) s₁ c' s') :
    Reaches calls (.call c k) s c' s'

section Reaches

variable {handle} {calls : Meaning J ε σ} {p : Prog I J ε α} {f : α → Prog I J ε β} {s s' : σ} {c : J.Op}

theorem Prog.uses_any (p : Prog I J ε α) : p.Uses (fun _ => True) fun _ => True := by
  induction p with
  | done r => trivial
  | op o k ih | call c k ih => exact ⟨trivial, ih⟩

theorem not_reaches_done : ¬ Reaches handle calls (.done r) s c s' := nofun

theorem Reaches.of_op (h : Reaches handle calls (.op o k) s c s') :
    Reaches handle calls (k (handle o s).1) (handle o s).2 c s' := by
  cases h with
  | op _ _ _ _ _ h => exact h

theorem Reaches.of_call (h : Reaches handle calls (.call c₀ k) s c s') :
    (c = c₀ ∧ s' = s) ∨ ∃ r s₁, calls c₀ s = some (r, s₁) ∧ Reaches handle calls (k r) s₁ c s' := by
  cases h with
  | call => exact .inl ⟨rfl, rfl⟩
  | past _ _ _ r s₁ _ _ hc h => exact .inr ⟨r, s₁, hc, h⟩

theorem Reaches.of_invoke (h : Reaches handle calls (.call c₀ .done) s c s') : c = c₀ ∧ s' = s := by
  obtain h | ⟨_, _, _, h⟩ := h.of_call
  · exact h
  · exact absurd h not_reaches_done

theorem Reaches.of_bind (h : Reaches handle calls (p >>= f) s c s') : Reaches handle calls p s c s' ∨
      ∃ a s₁, run handle calls p s = some (.ok a, s₁) ∧ Reaches handle calls (f a) s₁ c s' := by
  induction p generalizing s with
  | done r =>
    cases r with
    | ok a => exact .inr ⟨a, s, rfl, h⟩
    | error e => exact absurd h not_reaches_done
  | op o k ih =>
    obtain h | ⟨a, s₁, hr, h⟩ := ih _ h.of_op
    · exact .inl (.op _ _ _ _ _ h)
    · exact .inr ⟨a, s₁, hr, h⟩
  | call c₀ k ih =>
    obtain ⟨rfl, rfl⟩ | ⟨r, s₁, hc, h⟩ := h.of_call
    · exact .inl (.call _ _ _)
    obtain h | ⟨a, s₂, hr, h⟩ := ih r h
    · exact .inl (.past _ _ _ _ _ _ _ hc h)
    · exact .inr ⟨a, s₂, bind_eq_some_iff.2 ⟨_, hc, hr⟩, h⟩

variable {P : I.Op → Prop} {Q : J.Op → Prop}

theorem Prog.Uses.reaches (hp : p.Uses P Q) (h : Reaches handle calls p s c s') : Q c := by
  induction p generalizing s with
  | done r => exact absurd h not_reaches_done
  | op o k ih => exact ih _ (hp.2 _) h.of_op
  | call c₀ k ih =>
    obtain ⟨rfl, -⟩ | ⟨r, s₁, -, h⟩ := h.of_call
    · exact hp.1
    · exact ih r (hp.2 r) h

theorem Prog.Uses.reaches_rel (hrefl : ∀ s, R s s)
    (htrans : ∀ s s' s'', R s s' → R s' s'' → R s s'') (hop : ∀ o s, P o → R s (handle o s).2)
    (hcall : ∀ c s r s', Q c → calls c s = some (r, s') → R s s') (hp : p.Uses P Q)
    (h : Reaches handle calls p s c s') : R s s' := by
  induction p generalizing s with
  | done r => exact absurd h not_reaches_done
  | op o k ih => exact htrans _ _ _ (hop o s hp.1) (ih _ (hp.2 _) h.of_op)
  | call c₀ k ih =>
    obtain ⟨-, rfl⟩ | ⟨r, s₁, hc, h⟩ := h.of_call
    · exact hrefl _
    · exact htrans _ _ _ (hcall _ _ _ _ hp.1 hc) (ih r (hp.2 r) h)

theorem reaches_of_run_none (h : run handle calls p s = none) : ∃ c s', Reaches handle calls p s c s' ∧ calls c s' = none := by
  induction p generalizing s with
  | done r => exact nomatch h
  | op o k ih =>
    obtain ⟨c, s', hr, hn⟩ := ih _ h
    exact ⟨c, s', .op _ _ _ _ _ hr, hn⟩
  | call c k ih =>
    cases hc : calls c s with
    | none => exact ⟨c, s, .call _ _ _, hc⟩
    | some q =>
      change (calls c s).bind _ = none at h
      rw [hc] at h
      obtain ⟨c', s', hr, hn⟩ := ih q.1 h
      exact ⟨c', s', .past _ _ _ q.1 q.2 _ _ hc hr, hn⟩

/-- In a run that ends, a call it reaches ends too, and the rest of the run follows. -/
theorem Reaches.ends (hrefl : ∀ s, R s s) (htrans : ∀ s s' s'', R s s' → R s' s'' → R s s'')
    (hop : ∀ o s, R s (handle o s).2) (hcall : ∀ c s r s', calls c s = some (r, s') → R s s')
    (h : Reaches handle calls p s c s') (hr : run handle calls p s = some q) : ∃ q', calls c s' = some q' ∧ R q'.2 q.2 := by
  induction h with
  | call c k s =>
    obtain ⟨q', hq', hrest⟩ := bind_eq_some_iff.1 hr
    refine ⟨q', hq', ?_⟩
    exact (k q'.1).uses_any.run_rel handle hrefl htrans (fun o s _ => hop o s) (fun c s r s' _ => hcall c s r s') hrest
  | op o k s c' s' _ ih => exact ih hr
  | past c₀ k s r s₁ c' s' hc _ ih =>
    change (calls c₀ s).bind _ = _ at hr
    rw [hc] at hr
    exact ih hr

theorem run_none_of_reaches (h : Reaches handle calls p s c s') (hn : calls c s' = none) : run handle calls p s = none := by
  induction h with
  | call c k s =>
    change (calls c s).bind _ = none
    rw [hn]
    rfl
  | op o k s c' s' _ ih => exact ih hn
  | past c₀ k s r s₁ c' s' hc _ ih =>
    change (calls c₀ s).bind _ = none
    rw [hc]
    exact ih hn

end Reaches

/-! ### Stacks of pending calls -/

section Pending

variable (body : (c : J.Op) → Prog I J ε (J.Res c))

/-- The calls that have been made and not ended, the innermost first, at the moment the innermost is made. -/
inductive Pending (c₀ : J.Op) (s₀ : σ) : List J.Op → σ → Prop
  | start : Pending c₀ s₀ [c₀] s₀
  | push (c cs s c' s') (h : Pending c₀ s₀ (c :: cs) s)
    (hr : Reaches handle (limit handle body) (body c) s c' s') : Pending c₀ s₀ (c' :: c :: cs) s'

variable {handle body} {c₀ c : J.Op} {s₀ s : σ}

theorem Pending.limit_none (h : Pending handle body c₀ s₀ (c :: cs) s) (hn : limit handle body c s = none) :
    limit handle body c₀ s₀ = none := by
  generalize hstack : c :: cs = stack at h
  induction h generalizing c cs with
  | start =>
    obtain ⟨rfl, -⟩ := List.cons.inj hstack
    exact hn
  | push c₁ cs₁ s₁ c' s' _ hr ih =>
    obtain ⟨rfl, -⟩ := List.cons.inj hstack
    refine ih ?_ rfl
    rw [limit_eq]
    exact run_none_of_reaches hr hn

theorem Pending.rule {R : J.Op → List J.Op → σ → Prop} (hstart : R c₀ [] s₀)
    (hpush : ∀ c cs s c' s', R c cs s → Reaches handle (limit handle body) (body c) s c' s' → R c' (c :: cs) s')
    (h : Pending handle body c₀ s₀ (c :: cs) s) : R c cs s := by
  generalize hstack : c :: cs = stack at h
  induction h generalizing c cs with
  | start =>
    obtain ⟨rfl, rfl⟩ := List.cons.inj hstack
    exact hstart
  | push c₁ cs₁ s₁ c' s' _ hr ih =>
    obtain ⟨rfl, rfl⟩ := List.cons.inj hstack
    exact hpush _ _ _ _ _ (ih rfl) hr

/-- A call ends if some measure of the pending calls goes down with every call they make. -/
theorem limit_isSome {μ : Type} {lt : μ → μ → Prop} (wf : WellFounded lt) (measure : J.Op → σ → μ)
    (hdown : ∀ c cs s c' s', Pending handle body c₀ s₀ (c :: cs) s →
      Reaches handle (limit handle body) (body c) s c' s' → lt (measure c' s') (measure c s)) :
    (limit handle body c₀ s₀).isSome := by
  have hall : ∀ m c cs s, measure c s = m → Pending handle body c₀ s₀ (c :: cs) s →
      limit handle body c s ≠ none := by
    intro m
    induction m using wf.induction with
    | _ m ih =>
      rintro c cs s rfl hp hn
      rw [limit_eq] at hn
      obtain ⟨c', s', hr, hn'⟩ := reaches_of_run_none hn
      exact ih _ (hdown c cs s c' s' hp hr) c' (c :: cs) s' rfl (.push _ _ _ _ _ hp hr) hn'
  exact isSome_iff_ne_none.2 (hall _ c₀ [] s₀ rfl .start)

end Pending

/-! ### Simulation -/

section Simulation

variable {τ : Type} {handle' : (o : I.Op) → τ → I.Res o × τ} {R : σ → τ → Prop} {X : ε → Prop}

/-- The second run escapes by an exception in `X`, or ends as the first does, in a related state. -/
def Matches (R : σ → τ → Prop) (X : ε → Prop) (q : Except ε α × σ) (q' : Except ε α × τ) : Prop :=
  (∃ e, q'.1 = .error e ∧ X e) ∨ (q'.1 = q.1 ∧ R q.2 q'.2)

variable {handle} {P : I.Op → Prop} {Q : J.Op → Prop} {E : ε → Prop} {A : α → Prop} {Y : ε → Prop}
variable {calls : Meaning J ε σ} {calls' : Meaning J ε τ} {p : Prog I J ε α}

/-- A program that passes exceptions on is simulated if its operations and calls are; a run that ends in an exception
in `Y` need not be. -/
theorem Prog.Straight.simulates (hop : ∀ o s t, P o → R s t → (handle o s).1 = (handle' o t).1 ∧ R (handle o s).2 (handle' o t).2)
    (hcall : ∀ c s t q, Q c → R s t → calls c s = some q → (∀ e, q.1 = .error e → ¬ Y e) →
      ∃ q', calls' c t = some q' ∧ Matches R X q q') (hp : p.Straight P Q E A) (hR : R s t)
    (hr : run handle calls p s = some q) (hY : ∀ e, q.1 = .error e → ¬ Y e) :
    ∃ q', run handle' calls' p t = some q' ∧ Matches R X q q' := by
  induction p generalizing s t with
  | done r =>
    obtain rfl := some.inj hr
    exact ⟨(r, t), rfl, .inr ⟨rfl, hR⟩⟩
  | op o k ih =>
    obtain ⟨hres, hR'⟩ := hop o s t hp.1 hR
    change ∃ q', run handle' calls' (k (handle' o t).1) (handle' o t).2 = some q' ∧ _
    rw [← hres]
    exact ih _ (hp.2 _) hR' hr
  | call c k ih =>
    obtain ⟨⟨r, s₁⟩, hc, hrest⟩ := bind_eq_some_iff.1 hr
    have hthrown : ∀ e, r = .error e → ¬ Y e := by
      rintro e rfl
      rw [hp.2.1 e] at hrest
      obtain rfl := some.inj hrest
      exact hY e rfl
    obtain ⟨⟨r', t₁⟩, hc', hmatch⟩ := hcall c s t (r, s₁) hp.1 hR hc hthrown
    obtain ⟨e, he, hX⟩ | ⟨hsame, hR'⟩ := hmatch
    · obtain rfl : r' = .error e := he
      refine ⟨(.error e, t₁), bind_eq_some_iff.2 ⟨_, hc', ?_⟩, .inl ⟨e, rfl, hX⟩⟩
      rw [hp.2.1 e]
      rfl
    obtain rfl : r' = r := hsame
    cases r' with
    | ok a =>
      obtain ⟨q', hrun, hm⟩ := ih (.ok a) (hp.2.2 a) hR' hrest
      exact ⟨q', bind_eq_some_iff.2 ⟨_, hc', hrun⟩, hm⟩
    | error e =>
      rw [hp.2.1 e] at hrest
      obtain rfl := some.inj hrest
      refine ⟨(.error e, t₁), bind_eq_some_iff.2 ⟨_, hc', ?_⟩, .inr ⟨rfl, hR'⟩⟩
      rw [hp.2.1 e]
      rfl

end Simulation

/-! ### Counting operations -/

section Counting

def counting (cost : I.Op → Nat) : (o : I.Op) → σ × Nat → I.Res o × (σ × Nat) :=
  fun o s => ((handle o s.1).1, ((handle o s.1).2, s.2 + cost o))

def uncounted (q : Except ε α × (σ × Nat)) : Except ε α × σ := (q.1, q.2.1)

variable {handle}

theorem run_counting (hcalls : ∀ c s, (calls c s).map uncounted = calls' c s.1) (p : Prog I J ε α) (s : σ × Nat) :
    (run (counting handle cost) calls p s).map uncounted = run handle calls' p s.1 := by
  induction p generalizing s with
  | done r => rfl
  | op o k ih => exact ih _ _
  | call c k ih =>
    change ((calls c s).bind _).map _ = (calls' c s.1).bind _
    rw [← hcalls c s, map_bind, bind_map]
    exact bind_congr fun q _ => ih q.1 q.2

theorem meaning_counting (body : (c : J.Op) → Prog I J ε (J.Res c)) (n : Nat) (c : J.Op) (s : σ × Nat) :
    (meaning (counting handle cost) body n c s).map uncounted = meaning handle body n c s.1 := by
  induction n generalizing c s with
  | zero => rfl
  | succ n ih => exact run_counting ih _ _

end Counting

/-! ### Finding a stack by running -/

section Seek

/-- A run that stops at the stack it looks for. -/
inductive Found (J : Interface) (ε σ α : Type)
  | stack (cs : List J.Op) (s : σ)
  | ended (r : Except ε α) (s : σ)
  | unknown

def seekRun (calls : (c : J.Op) → σ → Found J ε σ (J.Res c)) : Prog I J ε α → σ → Found J ε σ α
  | .done r, s => .ended r s
  | .op o k, s => seekRun calls (k (handle o s).1) (handle o s).2
  | .call c k, s =>
    match calls c s with
    | .stack cs s' => .stack cs s'
    | .ended r s' => seekRun calls (k r) s'
    | .unknown => .unknown

variable (body : (c : J.Op) → Prog I J ε (J.Res c)) (stop : List J.Op → Bool)

def seek : Nat → List J.Op → (c : J.Op) → σ → Found J ε σ (J.Res c)
  | 0, _, _, _ => .unknown
  | n + 1, cs, c, s => if stop (c :: cs) then .stack (c :: cs) s else seekRun handle (seek n (c :: cs)) (body c) s

variable {handle body stop}

theorem seekRun_ended (hcalls : ∀ c s r s', calls c s = .ended r s' → calls' c s = some (r, s'))
    (h : seekRun handle calls p s = .ended r s') : run handle calls' p s = some (r, s') := by
  induction p generalizing s with
  | done _ =>
    cases h
    rfl
  | op o k ih => exact ih _ h
  | call c k ih =>
    unfold seekRun at h
    split at h
    · exact nomatch h
    · rename_i r₁ s₁ hc
      exact bind_eq_some_iff.2 ⟨(r₁, s₁), hcalls _ _ _ _ hc, ih _ h⟩
    · exact nomatch h

theorem seek_ended {r : Except ε (J.Res c)}
    (h : seek handle body stop n cs c s = .ended r s') : limit handle body c s = some (r, s') := by
  induction n generalizing cs c s s' with
  | zero => exact nomatch h
  | succ n ih =>
    unfold seek at h
    split at h
    · exact nomatch h
    rw [limit_eq]
    exact seekRun_ended (fun _ _ _ _ => ih) h

theorem seekRun_stack (hended : ∀ c s r s', calls c s = .ended r s' → limit handle body c s = some (r, s'))
    (h : seekRun handle calls p s = .stack cs s') :
    ∃ c s₁, Reaches handle (limit handle body) p s c s₁ ∧ calls c s₁ = .stack cs s' := by
  induction p generalizing s with
  | done _ => exact nomatch h
  | op o k ih =>
    obtain ⟨c, s₁, hr, hc⟩ := ih _ h
    exact ⟨c, s₁, .op _ _ _ _ _ hr, hc⟩
  | call c k ih =>
    unfold seekRun at h
    split at h
    · rename_i cs₁ s₁ hc
      cases h
      exact ⟨c, s, .call _ _ _, hc⟩
    · rename_i r₁ s₁ hc
      obtain ⟨c', s₂, hr, hc'⟩ := ih _ h
      exact ⟨c', s₂, .past _ _ _ _ _ _ _ (hended _ _ _ _ hc) hr, hc'⟩
    · exact nomatch h

/-- What it finds is a stack of the run, and one it looks for. -/
theorem seek_stack (hp : Pending handle body c₀ s₀ (c :: cs) s)
    (h : seek handle body stop n cs c s = .stack cs' s') : Pending handle body c₀ s₀ cs' s' ∧ stop cs' = true := by
  induction n generalizing cs c s with
  | zero => exact nomatch h
  | succ n ih =>
    unfold seek at h
    split at h
    · rename_i hstop
      cases h
      exact ⟨hp, hstop⟩
    · obtain ⟨c', s₁, hr, hc⟩ := seekRun_stack (fun _ _ _ _ => seek_ended) h
      exact ih (.push _ _ _ _ _ hp hr) hc

end Seek

end

end Calls
