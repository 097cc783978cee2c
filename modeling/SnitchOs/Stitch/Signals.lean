import SnitchOs.Stitch.Serve

/-!
# Which signals leave a procedure

A self-tail-call is signalled by an evaluation in tail position only, and the application of the function takes it.
Neither it nor an early return leaves an application or a method.
-/

namespace SnitchOs.Stitch

open Calls Eval Option World EvalCall.Lazy

variable {π : Platform}

/-- What may leave a procedure as an exception. -/
def EvalCall.Signals : EvalCall → Signal → Prop
  | .eval _ _, e | .assign _ _ _, e | .main _, e => e.Leaves false
  | .evalTail _ _, e | .body _ _, e => e.Leaves true
  | _, e => e.Fails

variable {e : Signal} {α : Type} {w w' : World π}
  {c : ClosureData}

theorem Signal.Fails.leaves (h : e.Fails) (tail : Bool) : e.Leaves tail := by
  cases e <;> trivial

theorem Signal.Leaves.tail {tail : Bool} (h : e.Leaves tail) : e.Leaves true := by
  cases e <;> trivial

section Step

variable {calls : Meaning evalInterface Signal (World π)}

/-- Every call signals what it may. -/
def Signalling (calls : Meaning evalInterface Signal (World π)) : Prop :=
  ∀ c w e w', calls c w = some (.error e, w') → EvalCall.Signals c e

theorem Stays.signals {A : α → Prop} (hcalls : Signalling calls) (hp : Stays tail ctx A p)
    (hr : run (handle setting) calls p w = some (.error e, w')) : e.Leaves tail := by
  obtain he | ⟨c, w₀, w₁, hc, hr⟩ := hp.run_error (handle setting) hr
  · exact he
  have hs := hcalls c w₀ e w₁ hr
  cases c with
  | eval e' env | assign place value env =>
    cases tail with
    | false => exact hs
    | true => exact hs.tail
  | evalTail e' env =>
    obtain ⟨rfl, -⟩ := hc
    exact hs
  | method body env | apply f args ctx' | stage name input ctx' => exact Signal.Fails.leaves hs tail
  | _ => exact hc.elim

theorem Serves.signals {Q : EvalCall → Prop} (hcalls : Signalling calls)
    (hQ : ∀ c, Q c → ∀ e, EvalCall.Signals c e → e.Fails) (hp : Serves Q ctx p)
    (hr : run (handle setting) calls p w = some (.error e, w')) : e.Fails := by
  obtain he | ⟨c, w₀, w₁, hc, hr⟩ := hp.run_error (handle setting) hr
  · exact he
  · exact hQ c hc e (hcalls c w₀ e w₁ hr)

theorem EvalCall.Native.signals (c : EvalCall) (h : c.Native ctx arity) (e : Signal) (hs : c.Signals e) : e.Fails := by
  cases c <;> first | exact hs | exact h.elim

theorem EvalCall.Lazy.signals (c : EvalCall) (h : c.Lazy) (e : Signal) (hs : c.Signals e) : e.Fails := by
  cases c <;> first | exact hs | exact h.elim

/-- An early return is taken, and a self-tail-call is not among what is left. -/
theorem returned_fails (hr : ∀ e, r = .error e → e.Leaves false) (h : returned r = .error e) : e.Fails := by
  obtain (f | v | args | _) | v := r
  · cases h
    trivial
  · exact nomatch h
  · exact nomatch (hr _ rfl)
  · cases h
    trivial
  · exact nomatch h

theorem nextRound_fails (hcalls : Signalling calls)
    (h : run (handle setting) calls (nextRound c ctx r) w = some (.error e, w')) : e.Fails := by
  obtain (f | v | args | _) | v := r
  · cases h
    trivial
  · exact nomatch h
  · obtain ⟨⟨r, w₁⟩, hq, hrest⟩ := bind_eq_some_iff.1 h
    cases hrest
    exact hcalls _ _ _ _ hq
  · cases h
    trivial
  · exact nomatch h

theorem activate_fails (hcalls : Signalling calls)
    (h : run (handle setting) calls (activate mode c env ctx) w = some (.error e, w')) : e.Fails := by
  have hrun : run (handle setting) calls (activate mode c env ctx) w =
      (fun q : Bool × World π => run (handle setting) calls (if q.1 then entered c env ctx else fault .tooDeep) q.2)
        (handle setting (.enterCall ctx.program mode.limit) w) := rfl
  rw [hrun] at h
  generalize handle setting (.enterCall ctx.program mode.limit) w = q at h
  obtain ⟨_ | _, w₁⟩ := q
  · cases h
    trivial
  · obtain ⟨q, -, hrest⟩ := bind_eq_some_iff.1 h
    exact nextRound_fails hcalls hrest

theorem signals_step (hcalls : Signalling calls) {c : EvalCall}
    (h : run (handle setting) calls (bodies setting.host mode c) w = some (.error e, w')) : c.Signals e := by
  cases c with
  | main ctx => exact (stays_callMain ctx).signals hcalls h
  | eval expr env =>
    have hrun : run (handle setting) calls (bodies setting.host mode (.eval expr env)) w =
        (fun q : Bool × World π => run (handle setting) calls
          (if q.1 then evalKind setting.host env expr.kind else fault .fuelExhausted) q.2)
          (handle setting (.takeFuel env.ctx.program) w) := rfl
    rw [hrun] at h
    generalize handle setting (.takeFuel env.ctx.program) w = q at h
    obtain ⟨_ | _, w₁⟩ := q
    · cases h
      trivial
    · exact (stays_evalKind env expr.kind).signals hcalls h
  | evalTail expr env => exact (stays_evalTailDispatch mode expr env).signals hcalls h
  | body c env => exact (stays_evalTailDispatch mode c.body env).signals hcalls h
  | method body env =>
    change run _ _ (methodBody body env) w = _ at h
    unfold methodBody at h
    split at h
    · cases h
      trivial
    obtain ⟨⟨r, w₁⟩, hq, hrest⟩ := bind_eq_some_iff.1 h
    obtain ⟨hreturned, -⟩ := Prod.mk.inj (some.inj hrest)
    refine returned_fails (fun e he => ?_) hreturned
    subst he
    exact hcalls _ _ _ _ hq
  | apply callee args ctx =>
    change run _ _ (applyValues setting.host callee args ctx) w = _ at h
    unfold applyValues at h
    split at h
    · split at h
      · cases h
        trivial
      obtain ⟨⟨r, w₁⟩, hq, hrest⟩ := bind_eq_some_iff.1 h
      cases hrest
      have hs := hcalls _ _ _ _ hq
      exact hs
    · split at h
      · cases h
        trivial
      · exact (serves_native ctx args _).signals hcalls EvalCall.Native.signals h
    · rename_i ctor
      have hmade : Serves (fun _ => False) ctx (lift (makeData ctor args)) := serves_lift _
      exact hmade.signals hcalls (fun _ hc => hc.elim) h
    · cases h
      trivial
  | loop c args ctx =>
    change run _ _ (callEnv c args ctx >>= fun env => activate mode c env ctx) w = _ at h
    rw [run_bind] at h
    obtain ⟨env, w₁, hmade⟩ := (callEnv_straight c args ctx).run_total (handle setting) w
    rw [hmade] at h
    exact activate_fails hcalls h
  | stage name input ctx =>
    change run _ _ (stageMain name input ctx (handle setting (.global ctx.globals "main") w).1) _ = _ at h
    unfold stageMain at h
    split at h
    · cases h
      trivial
    obtain ⟨⟨r, w₁⟩, hq, hrest⟩ := bind_eq_some_iff.1 h
    cases hrest
    have hs := hcalls _ _ _ _ hq
    exact hs
  | assign place value env => exact (stays_assignBody place value env).signals hcalls h
  | force a =>
    change run _ _ (forceState setting.host a (handle setting (.peek a) w).1) _ = _ at h
    unfold forceState at h
    split at h
    · exact nomatch h
    rename_i thunk _
    rw [run_bind] at h
    obtain ⟨⟨r, w₁⟩, hq, hrest⟩ := bind_eq_some_iff.1 h
    cases r with
    | ok step => exact nomatch hrest
    | error e' =>
      cases hrest
      exact (serves_runThunk ⟨0, 0, [], []⟩ thunk).signals hcalls signals hq
  | toList current items =>
    exact (serves_toListBody ⟨0, 0, [], []⟩ current items).signals hcalls signals h
  | foldSeq current acc f ctx => exact (serves_foldSeqBody ctx current acc f ctx).signals hcalls signals h
  | foldWhileSeq current acc f ctx =>
    exact (serves_foldWhileSeqBody ctx current acc f ctx).signals hcalls signals h
  | dropSeq n current =>
    exact (serves_dropSeqBody ⟨0, 0, [], []⟩ n current).signals hcalls signals h
  | dropWhileSeq current pred ctx =>
    exact (serves_dropWhileSeqBody ctx current pred ctx).signals hcalls signals h
  | filterSeq current pred ctx =>
    exact (serves_filterSeqBody ctx current pred ctx).signals hcalls signals h

end Step

theorem signals_meaning : Signalling (@meaningAt π setting mode n) := by
  induction n with
  | zero => exact fun _ _ _ _ h => nomatch h
  | succ n ih => exact fun _ _ _ _ h => signals_step ih h

end SnitchOs.Stitch
