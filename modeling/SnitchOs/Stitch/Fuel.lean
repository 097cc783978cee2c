import SnitchOs.Stitch.Depth
import SnitchOs.Stitch.Signals
import Mathlib.Data.Prod.Lex

/-!
# What a finite budget stops

Fuel is taken where an expression is evaluated, and nowhere else. Between two evaluations the interpreter goes through
tail positions, rounds of a function, natives and handlers, each of which comes to an end by itself. What does not is
forcing: a native asks for the next step of a lazy sequence as often as it has one, and a stage brings a budget of its
own. With a counter for these two, an evaluation that keeps the counter bounded ends.
-/

namespace SnitchOs.Stitch

open Calls Eval Option List Mode Prod.Lex World

/-! ### Resources -/

/-- The questions for a step of a sequence, and the stages set up. -/
def WorldOp.steps : WorldOp → Nat
  | .peek _ | .build _ => 1
  | _ => 0

section Resources

variable {π : Platform}

def World.totalFuel (w : World π) : Nat := (w.programs.map Program.fuel).sum

theorem sum_map_set {α : Type} (f : α → Nat) (xs : List α) (i : Nat) (x : α) (h : i < xs.length) :
    ((xs.set i x).map f).sum + f xs[i] = (xs.map f).sum + f x := by
  induction xs generalizing i with
  | nil => exact absurd h (Nat.not_lt_zero _)
  | cons y xs ih =>
    cases i with
    | zero => simp only [set_cons_zero, map_cons, sum_cons, getElem_cons_zero]; omega
    | succ i =>
      have hrest := ih i (Nat.lt_of_succ_lt_succ h)
      simp only [set_cons_succ, map_cons, sum_cons, getElem_cons_succ]
      omega

theorem World.totalFuel_setProgram (w : World π) (p : Nat) (program : Program) (h : p < w.programs.length) :
    (w.setProgram p program).totalFuel + (w.program p).fuel = w.totalFuel + program.fuel := by
  have hget : w.program p = w.programs[p] := by
    unfold World.program
    rw [getD_eq_getElem?_getD, getElem?_eq_getElem h]
    rfl
  rw [hget]
  exact sum_map_set Program.fuel w.programs p program h

theorem World.setProgram_missing (w : World π) (p : Nat) (program : Program) (h : ¬ p < w.programs.length) :
    w.setProgram p program = w := by
  unfold setProgram
  rw [set_eq_of_length_le (Nat.le_of_not_gt h)]

theorem World.totalFuel_setProgram_le (w : World π) (p : Nat) (program : Program)
    (h : program.fuel ≤ (w.program p).fuel) : (w.setProgram p program).totalFuel ≤ w.totalFuel := by
  by_cases hp : p < w.programs.length
  · have := w.totalFuel_setProgram p program hp
    omega
  · rw [w.setProgram_missing p program hp]

theorem World.exists_of_fuel {w : World π} (h : (w.program p).fuel ≠ 0) : p < w.programs.length := by
  by_contra hp
  apply h
  unfold program
  rw [getD_eq_getElem?_getD, getElem?_eq_none (Nat.le_of_not_gt hp)]
  rfl

/-- No fuel more, unless a step was counted. -/
def Spent (s s' : World π × Nat) : Prop := s.2 ≤ s'.2 ∧ (s.2 = s'.2 → s'.1.totalFuel ≤ s.1.totalFuel)

/-- Less fuel, or a step was counted. -/
def Used (s s' : World π × Nat) : Prop := s.2 ≤ s'.2 ∧ (s.2 = s'.2 → s'.1.totalFuel < s.1.totalFuel)

theorem Spent.refl (s : World π × Nat) : Spent s s := ⟨Nat.le_refl _, fun _ => Nat.le_refl _⟩

theorem Spent.trans (h : Spent s₁ s₂) (h' : Spent s₂ s₃) : Spent s₁ s₃ := by
  obtain ⟨h₁, h₂⟩ := h
  obtain ⟨h₁', h₂'⟩ := h'
  exact ⟨by omega, fun he => Nat.le_trans (h₂' (by omega)) (h₂ (by omega))⟩

theorem Used.trans_spent (h : Used s₁ s₂) (h' : Spent s₂ s₃) : Used s₁ s₃ := by
  obtain ⟨h₁, h₂⟩ := h
  obtain ⟨h₁', h₂'⟩ := h'
  exact ⟨by omega, fun he => Nat.lt_of_le_of_lt (h₂' (by omega)) (h₂ (by omega))⟩

theorem Spent.trans_used (h : Spent s₁ s₂) (h' : Used s₂ s₃) : Used s₁ s₃ := by
  obtain ⟨h₁, h₂⟩ := h
  obtain ⟨h₁', h₂'⟩ := h'
  exact ⟨by omega, fun he => Nat.lt_of_lt_of_le (h₂' (by omega)) (h₂ (by omega))⟩

theorem used_of_lt (h : s₁.2 < s₂.2) : Used s₁ s₂ := ⟨Nat.le_of_lt h, fun he => absurd he (Nat.ne_of_lt h)⟩

end Resources

/-! ### Operations -/

section Operations

variable {π : Platform} (setting : Setting)

/-- The world beside the counter. -/
def countedHandle : (o : WorldOp) → World π × Nat → o.Res × (World π × Nat) :=
  counting (I := worldInterface) (handle setting) WorldOp.steps

theorem spent_handle (o : WorldOp) (s : World π × Nat) : Spent s (countedHandle setting o s).2 := by
  refine ⟨Nat.le_add_right _ _, fun he => ?_⟩
  change (handle setting o s.1).2.totalFuel ≤ _
  cases o with
  | peek a | build items => exact absurd he (Nat.ne_of_lt (Nat.lt_succ_self _))
  | takeFuel p =>
    by_cases hfuel : (s.1.program p).fuel = 0
    · rw [takeFuel_empty setting s.1 p hfuel]
    rw [takeFuel_some setting s.1 p hfuel]
    exact totalFuel_setProgram_le _ _ _ (Nat.sub_le _ _)
  | enterCall p limit =>
    by_cases hroom : limit.any (fun limit => decide (limit ≤ (s.1.program p).frames)) = true
    · rw [enterCall_refused setting s.1 p hroom]
    rw [enterCall_entered setting s.1 p hroom]
    exact totalFuel_setProgram_le _ _ _ (Nat.le_refl _)
  | leaveCall p => exact totalFuel_setProgram_le _ _ _ (Nat.le_refl _)
  | _ => exact Nat.le_refl _

theorem used_takeFuel (h : countedHandle setting (.takeFuel p) s = (true, s')) : Used s s' := by
  obtain ⟨h₁, rfl⟩ := Prod.mk.inj h
  by_cases hfuel : (s.1.program p).fuel = 0
  · rw [takeFuel_empty setting s.1 p hfuel] at h₁
    exact absurd h₁ Bool.false_ne_true
  refine ⟨Nat.le_add_right _ _, fun _ => ?_⟩
  change (handle setting (.takeFuel p) s.1).2.totalFuel < _
  rw [takeFuel_some setting s.1 p hfuel]
  have hset := s.1.totalFuel_setProgram p { s.1.program p with fuel := (s.1.program p).fuel - 1 }
    (exists_of_fuel hfuel)
  dsimp only at hset ⊢
  omega

end Operations

/-! ### What a call uses -/

variable {c : EvalCall} {env : Env} {e : CoreExpr} {args : List Value} {v : Value} {ctx : Ctx}
  {a : Addr}

section Calls

variable {π : Platform} {setting : Setting} {mode : Mode}

/-- Calls that have ended took their part. -/
structure Using (calls : Meaning evalInterface Signal (World π × Nat)) : Prop where
  spent : ∀ c s r s', calls c s = some (r, s') → Spent s s'
  /-- A value costs fuel. -/
  usedEval : ∀ e env s v s', calls (.eval e env) s = some (.ok v, s') → Used s s'
  /-- So does finding out that a function calls itself. -/
  usedTail : ∀ e env s args s', calls (.evalTail e env) s = some (.error (.tailCall args), s') → Used s s'
  usedBody : ∀ c env s args s', calls (.body c env) s = some (.error (.tailCall args), s') → Used s s'
  usedForce : ∀ a s r s', calls (.force a) s = some (r, s') → Used s s'
  /-- And in no other place is a self-tail-call signalled. -/
  signalled : ∀ c s e s', calls c s = some (.error e, s') → EvalCall.Signals c e

variable {calls : Meaning evalInterface Signal (World π × Nat)} {s s' : World π × Nat} {α : Type} {p : Eval α}
  {result : Option CoreExpr}

variable (hcalls : Using calls)
include hcalls

theorem Using.spent_run (hr : run (countedHandle setting) calls p s = some (r, s')) : Spent s s' :=
  p.uses_any.run_rel (countedHandle setting) Spent.refl (fun _ _ _ => Spent.trans)
    (fun o s _ => spent_handle setting o s) (fun c s r s' _ => hcalls.spent c s r s') hr

theorem Using.spent_reaches (hr : Reaches (countedHandle setting) calls p s c s') : Spent s s' :=
  p.uses_any.reaches_rel Spent.refl (fun _ _ _ => Spent.trans)
    (fun o s _ => spent_handle setting o s) (fun c s r s' _ => hcalls.spent c s r s') hr

theorem Using.eval_bind_reaches (hr : Reaches (countedHandle setting) calls (eval e env >>= f) s c s') :
    Used s s' ∨ (c = .eval e env ∧ s' = s) := by
  obtain h | ⟨v, s₁, hv, h⟩ := hr.of_bind
  · exact .inr h.of_invoke
  · exact .inl ((hcalls.usedEval e env s v s₁ (run_invoke _ hv)).trans_spent (hcalls.spent_reaches h))

theorem Using.not_tailCall
    (hr : run (countedHandle setting) calls (eval e env) s = some (.error (.tailCall args), s')) : False := by
  have hs := hcalls.signalled _ _ _ _ (run_invoke _ hr)
  exact nomatch hs

theorem Using.eval_bind_tailCall
    (hr : run (countedHandle setting) calls (eval e env >>= f) s = some (.error (.tailCall args), s')) : Used s s' := by
  rw [run_bind] at hr
  obtain ⟨⟨r, s₁⟩, hv, hrest⟩ := bind_eq_some_iff.1 hr
  cases r with
  | ok v => exact (hcalls.usedEval e env s v s₁ (run_invoke _ hv)).trans_spent (hcalls.spent_run hrest)
  | error e' =>
    cases hrest
    exact (hcalls.not_tailCall hv).elim

omit hcalls

/-! ### Tail positions -/

/-- The blocks without a statement around an expression are the only thing evaluated for nothing. -/
def blockDepth : CoreExpr → Nat :=
  CoreExpr.fold fun
    | .block _ (some result) => result.2 + 1
    | _ => 0

variable (hcalls : Using calls)
include hcalls

theorem Using.evalBlock_tailCall
    (hr : run (countedHandle setting) calls (evalBlock true result stmts env) s = some (.error (.tailCall args), s')) :
    Used s s' := by
  cases stmts with
  | nil =>
    cases result with
    | none => exact nomatch hr
    | some e => exact hcalls.usedTail e env s args s' (run_invoke _ hr)
  | cons stmt stmts =>
    cases stmt with
    | let_ name mutable value | expr e | assign target value => exact hcalls.eval_bind_tailCall hr

theorem Using.evalTailDispatch_tailCall
    (hr : run (countedHandle setting) calls (evalTailDispatch setting.host mode e env) s = some (.error (.tailCall args), s')) :
    Used s s' := by
  unfold evalTailDispatch at hr
  split at hr
  · split at hr
    · exact (hcalls.not_tailCall hr).elim
    · exact hcalls.eval_bind_tailCall hr
  · exact hcalls.eval_bind_tailCall hr
  · exact hcalls.evalBlock_tailCall hr
  · exact hcalls.eval_bind_tailCall hr
  · exact (hcalls.not_tailCall hr).elim

theorem Using.evalBlock_reaches (hr : Reaches (countedHandle setting) calls (evalBlock true result stmts env) s c s') :
    Used s s' ∨ (s' = s ∧ ((∃ e env, c = .eval e env) ∨
      ∃ e env, c = .evalTail e env ∧ blockDepth e < blockDepth ⟨.block stmts result⟩)) := by
  cases stmts with
  | nil =>
    cases result with
    | none => exact absurd hr not_reaches_done
    | some e =>
      obtain ⟨rfl, rfl⟩ := Reaches.of_invoke hr
      refine .inr ⟨rfl, .inr ⟨e, env, rfl, ?_⟩⟩
      unfold blockDepth
      rw [CoreExpr.fold_mk]
      exact Nat.lt_succ_self _
  | cons stmt stmts =>
    cases stmt with
    | let_ name mutable value | expr e | assign target value =>
      exact (hcalls.eval_bind_reaches hr).imp_right fun ⟨hc, hs⟩ => ⟨hs, .inl ⟨_, _, hc⟩⟩

theorem Using.evalTailDispatch_reaches
    (hr : Reaches (countedHandle setting) calls (evalTailDispatch setting.host mode e env) s c s') :
    Used s s' ∨ (s' = s ∧ ((∃ e env, c = .eval e env) ∨ ∃ e' env, c = .evalTail e' env ∧ blockDepth e' < blockDepth e)) := by
  obtain ⟨k⟩ := e
  unfold evalTailDispatch at hr
  split at hr
  · split at hr
    · obtain ⟨hc, hs⟩ := Reaches.of_invoke hr
      exact .inr ⟨hs, .inl ⟨_, _, hc⟩⟩
    · exact (hcalls.eval_bind_reaches hr).imp_right fun ⟨hc, hs⟩ => ⟨hs, .inl ⟨_, _, hc⟩⟩
  · exact (hcalls.eval_bind_reaches hr).imp_right fun ⟨hc, hs⟩ => ⟨hs, .inl ⟨_, _, hc⟩⟩
  · rename_i stmts result hk
    obtain rfl : k = _ := hk
    exact hcalls.evalBlock_reaches hr
  · exact (hcalls.eval_bind_reaches hr).imp_right fun ⟨hc, hs⟩ => ⟨hs, .inl ⟨_, _, hc⟩⟩
  obtain ⟨hc, hs⟩ := Reaches.of_invoke hr
  exact .inr ⟨hs, .inl ⟨_, _, hc⟩⟩

omit hcalls

/-! ### One level deeper -/

theorem run_eval (setting : Setting) (mode : Mode) (calls : Meaning evalInterface Signal (World π × Nat)) (e : CoreExpr)
    (env : Env) (s : World π × Nat) : run (countedHandle setting) calls (bodies setting.host mode (.eval e env)) s =
      (fun q : Bool × (World π × Nat) => run (countedHandle setting) calls
        (if q.1 then evalKind setting.host env e.kind else fault .fuelExhausted) q.2)
        (countedHandle setting (.takeFuel env.ctx.program) s) := rfl

theorem Using.eval_ok (hcalls : Using calls)
    (hr : run (countedHandle setting) calls (bodies setting.host mode (.eval e env)) s = some (.ok v, s')) : Used s s' := by
  rw [run_eval] at hr
  cases htake : countedHandle setting (.takeFuel env.ctx.program) s with
  | mk fuelled s₁ =>
    rw [htake] at hr
    cases fuelled with
    | false => exact nomatch hr
    | true => exact (used_takeFuel setting htake).trans_spent (hcalls.spent_run hr)

theorem used_peek (setting : Setting) (a : Addr) (s : World π × Nat) : Used s (countedHandle setting (.peek a) s).2 :=
  used_of_lt (Nat.lt_succ_self _)

theorem Using.step (hcalls : Using calls)
    (hsignals : ∀ c s e s', run (countedHandle setting) calls (bodies setting.host mode c) s = some (.error e, s') →
      EvalCall.Signals c e) : Using fun c s => run (countedHandle setting) calls (bodies setting.host mode c) s where
  spent _ _ _ _ h := hcalls.spent_run h
  usedEval _ _ _ _ _ h := hcalls.eval_ok h
  usedTail _ _ _ _ _ h := hcalls.evalTailDispatch_tailCall h
  usedBody _ _ _ _ _ h := hcalls.evalTailDispatch_tailCall h
  usedForce a s _ _ h := (used_peek setting a s).trans_spent (hcalls.spent_run (p := forceState _ a _) h)
  signalled := hsignals

/-- What the procedures do, with the counter. -/
abbrev countedMeaning (setting : Setting) (mode : Mode) (n : Nat) : Meaning evalInterface Signal (World π × Nat) :=
  meaning (countedHandle setting) (bodies setting.host mode) n

noncomputable abbrev countedLimit (setting : Setting) (mode : Mode) : Meaning evalInterface Signal (World π × Nat) :=
  limit (countedHandle setting) (bodies setting.host mode)

theorem countedMeaning_uncounted (setting : Setting) (mode : Mode) (n : Nat) (c : EvalCall) (s : World π × Nat) :
    (countedMeaning setting mode n c s).map uncounted = meaningAt setting mode n c s.1 :=
  @meaning_counting worldInterface evalInterface Signal _ (handle setting) WorldOp.steps _ n c s

theorem using_meaning (setting : Setting) (mode : Mode) (n : Nat) : Using (@countedMeaning π setting mode n) := by
  induction n with
  | zero => constructor <;> intros <;> contradiction
  | succ n ih =>
    refine ih.step fun c s e s' h => ?_
    have hcount := countedMeaning_uncounted setting mode (n + 1) c s
    change (run _ _ _ s).map uncounted = _ at hcount
    rw [h] at hcount
    exact signals_meaning c s.1 e s'.1 hcount.symm

theorem using_limit (setting : Setting) (mode : Mode) : Using (@countedLimit π setting mode) := by
  have hmeaning := @using_meaning π setting mode
  -- what comes out in the limit comes out at some depth
  constructor <;> intros <;> rename_i h <;> obtain ⟨n, hn⟩ := (limit_eq_some _ _).1 h
  · exact (hmeaning n).spent _ _ _ _ hn
  · exact (hmeaning n).usedEval _ _ _ _ _ hn
  · exact (hmeaning n).usedTail _ _ _ _ _ hn
  · exact (hmeaning n).usedBody _ _ _ _ _ hn
  · exact (hmeaning n).usedForce _ _ _ _ hn
  · exact (hmeaning n).signalled _ _ _ _ hn

/-! ### Every call goes down -/

/-- Where no fuel is taken, what a procedure calls is below it: a tail position within another, a function below its
application, a native's function by its arguments, a handler by the handlers left. -/
def EvalCall.rank : EvalCall → ℕ ×ₗ ℕ ×ₗ ℕ
  | .eval _ _ | .force _ => toLex (0, toLex (0, 0))
  | .evalTail e _ => toLex (1, toLex (blockDepth e, 0))
  | .body _ _ => toLex (2, toLex (0, 0))
  | .loop _ _ _ => toLex (3, toLex (0, 0))
  | .apply _ args ctx => toLex (4, toLex (ctx.handlers.length, args.length))
  | .stage _ _ _ => toLex (5, toLex (0, 0))
  | .main _ => toLex (6, toLex (0, 0))
  | _ => toLex (1, toLex (0, 0))

theorem rank_lt_of_level {x y : ℕ ×ₗ ℕ} (h : a < b) : toLex (a, x) < toLex (b, y) :=
  toLex_lt_toLex.2 (.inl h)

/-- Either something is used, or nothing is gained and the call is below. -/
def Down (c : EvalCall) (s : World π × Nat) (c' : EvalCall) (s' : World π × Nat) : Prop :=
  Used s s' ∨ (Spent s s' ∧ c'.rank < c.rank)

theorem EvalCall.Native.rank_lt {f : Value} (h : c.Native ctx args.length) : c.rank < (EvalCall.apply f args ctx).rank := by
  cases c with
  | apply f' args' ctx' =>
    refine toLex_lt_toLex.2 (.inr ⟨rfl, toLex_lt_toLex.2 ?_⟩)
    obtain ⟨rfl, hargs⟩ | ⟨-, hhandlers⟩ := h
    · exact .inr ⟨rfl, hargs⟩
    · exact .inl hhandlers
  | toList _ _ | foldSeq _ _ _ _ | foldWhileSeq _ _ _ _ => exact rank_lt_of_level (by decide)
  | _ => exact h.elim

theorem EvalCall.Under.rank_lt {ctx' : Ctx} (h : c.Under false ctx) : c.rank < (EvalCall.main ctx').rank := by
  cases c <;> first | exact rank_lt_of_level (by decide) | exact h.elim

theorem Using.force_bind_reaches (hcalls : Using calls) {f : Step → Eval α}
    (hr : Reaches (countedHandle setting) calls (force a >>= f) s c s') :
    Used s s' ∨ (Spent s s' ∧ c.rank < toLex (1, toLex (0, 0))) := by
  obtain h | ⟨step, s₁, hstep, h⟩ := hr.of_bind
  · obtain ⟨rfl, rfl⟩ := h.of_invoke
    exact .inr ⟨.refl _, rank_lt_of_level (by decide)⟩
  · exact .inl ((hcalls.usedForce a s _ s₁ (run_invoke _ hstep)).trans_spent (hcalls.spent_reaches h))

theorem Using.forceSeq_bind_reaches (hcalls : Using calls) {f : Step → Eval α}
    (hr : Reaches (countedHandle setting) calls (forceSeq seq >>= f) s c s') :
    Used s s' ∨ (Spent s s' ∧ c.rank < toLex (1, toLex (0, 0))) := by
  cases seq with
  | seq a => exact hcalls.force_bind_reaches hr
  | _ => exact absurd hr not_reaches_done

theorem assign_uses (env : Env) (name : String) (value : Value) :
    (env.assign name value).Uses (fun _ => True) fun _ => False := by
  unfold Env.assign
  split
  · exact trivial
  · exact trivial
  · exact ⟨trivial, fun _ => trivial⟩

theorem Using.tail_down (hcalls : Using calls)
    (hrank : ∀ c' : EvalCall, ((∃ e env, c' = .eval e env) ∨ ∃ e' env, c' = .evalTail e' env ∧ blockDepth e' < blockDepth e) → c'.rank < c₀.rank)
    (hr : Reaches (countedHandle setting) calls (evalTailDispatch setting.host mode e env) s c s') : Down c₀ s c s' := by
  obtain h | ⟨rfl, h⟩ := hcalls.evalTailDispatch_reaches hr
  · exact .inl h
  · exact .inr ⟨.refl _, hrank c h⟩

/-- Every call that a procedure makes is below it, or made with less. -/
theorem Using.down (hcalls : Using calls) {c c' : EvalCall}
    (hr : Reaches (countedHandle setting) calls (bodies setting.host mode c) s c' s') : Down c s c' s' := by
  have hspent := hcalls.spent_reaches hr
  cases c with
  | main ctx => exact .inr ⟨hspent, EvalCall.Under.rank_lt ((stays_callMain ctx).uses.reaches hr)⟩
  | eval e env =>
    cases htake : countedHandle setting (.takeFuel env.ctx.program) s with
    | mk fuelled s₁ =>
      have h : (fun q : Bool × (World π × Nat) => Reaches (countedHandle setting) calls
          (if q.1 then evalKind setting.host env e.kind else fault .fuelExhausted) q.2 c' s')
          (countedHandle setting (.takeFuel env.ctx.program) s) := hr.of_op
      rw [htake] at h
      cases fuelled with
      | false => exact absurd h not_reaches_done
      | true => exact .inl ((used_takeFuel setting htake).trans_spent (hcalls.spent_reaches h))
  | evalTail e env =>
    refine hcalls.tail_down (fun c' hc' => ?_) hr
    obtain ⟨_, _, rfl⟩ | ⟨_, _, rfl, hlt⟩ := hc'
    · exact rank_lt_of_level (by decide)
    · exact toLex_lt_toLex.2 (.inr ⟨rfl, toLex_lt_toLex.2 (.inl hlt)⟩)
  | body c env =>
    refine hcalls.tail_down (fun c' hc' => ?_) hr
    obtain ⟨_, _, rfl⟩ | ⟨_, _, rfl, -⟩ := hc' <;> exact rank_lt_of_level (by decide)
  | method body env =>
    change Reaches _ _ (methodBody body env) s c' s' at hr
    unfold methodBody at hr
    split at hr
    · exact absurd hr not_reaches_done
    obtain ⟨rfl, rfl⟩ | ⟨_, _, _, h⟩ := hr.of_call
    · exact .inr ⟨hspent, rank_lt_of_level (by decide)⟩
    · exact absurd h not_reaches_done
  | apply callee args ctx =>
    change Reaches _ _ (applyValues setting.host callee args ctx) s c' s' at hr
    unfold applyValues at hr
    split at hr
    · split at hr
      · exact absurd hr not_reaches_done
      obtain ⟨rfl, rfl⟩ := hr.of_invoke
      exact .inr ⟨hspent, rank_lt_of_level (by decide)⟩
    · split at hr
      · exact absurd hr not_reaches_done
      · exact .inr ⟨hspent, EvalCall.Native.rank_lt ((serves_native ctx args _).uses.reaches hr)⟩
    · exact absurd hr not_reaches_done
    · exact absurd hr not_reaches_done
  | loop c args ctx =>
    obtain hmake | ⟨env, s₁, hmade, h⟩ := Reaches.of_bind hr
    · exact ((callEnv_straight c args ctx).uses.reaches hmake).elim
    have h : (fun q : Bool × (World π × Nat) => Reaches (countedHandle setting) calls
        (if q.1 then entered c env ctx else fault .tooDeep) q.2 c' s')
        (countedHandle setting (.enterCall ctx.program mode.limit) s₁) := h.of_op
    have hspent₁ : Spent s (countedHandle setting (.enterCall ctx.program mode.limit) s₁).2 :=
      (hcalls.spent_run hmade).trans (spent_handle setting _ _)
    generalize countedHandle setting (.enterCall ctx.program mode.limit) s₁ = q at h hspent₁
    obtain ⟨_ | _, s₂⟩ := q
    · exact absurd h not_reaches_done
    obtain ⟨rfl, rfl⟩ | ⟨result, s₃, hbody, h⟩ := Reaches.of_call h
    · exact .inr ⟨hspent, rank_lt_of_level (by decide)⟩
    -- only a self-tail-call goes on, and the body has then taken fuel
    have h : Reaches _ _ (nextRound c ctx result) _ c' s' := h.of_op
    obtain (f | v | next | _) | v := result
    · exact absurd h not_reaches_done
    · exact absurd h not_reaches_done
    · refine .inl (hspent₁.trans_used ((hcalls.usedBody c env _ next _ hbody).trans_spent ?_))
      exact (spent_handle setting _ _).trans (hcalls.spent_reaches h)
    · exact absurd h not_reaches_done
    · exact absurd h not_reaches_done
  | stage name input ctx =>
    have h : Reaches _ _ (stageMain name input ctx _) _ c' s' := hr.of_op
    unfold stageMain at h
    split at h
    · exact absurd h not_reaches_done
    obtain ⟨rfl, -⟩ | ⟨_, _, _, h⟩ := h.of_call
    · exact .inr ⟨hspent, rank_lt_of_level (by decide)⟩
    · exact absurd h.of_op not_reaches_done
  | assign place value env =>
    change Reaches _ _ (assignBody place value env) s c' s' at hr
    unfold assignBody at hr
    split at hr
    · exact ((assign_uses env _ value).reaches hr).elim
    · exact ((assign_uses env _ value).reaches hr).elim
    · obtain h | ⟨rfl, -⟩ := hcalls.eval_bind_reaches hr
      · exact .inl h
      · exact .inr ⟨hspent, rank_lt_of_level (by decide)⟩
    · exact absurd hr not_reaches_done
  | force a => exact .inl ((used_peek setting a s).trans_spent (hcalls.spent_reaches hr.of_op))
  | toList current items =>
    change Reaches _ _ (toListBody current items) s c' s' at hr
    unfold toListBody at hr
    split at hr
    · exact hcalls.force_bind_reaches hr
    · exact absurd hr not_reaches_done
  | foldSeq current acc f ctx | foldWhileSeq current acc f ctx | dropWhileSeq current pred ctx
  | filterSeq current pred ctx => exact hcalls.forceSeq_bind_reaches hr
  | dropSeq n current =>
    change Reaches _ _ (dropSeqBody n current) s c' s' at hr
    unfold dropSeqBody at hr
    split at hr
    · exact hcalls.forceSeq_bind_reaches hr
    cases current with
    | seq a =>
      obtain ⟨rfl, -⟩ := hr.of_invoke
      exact .inr ⟨hspent, rank_lt_of_level (by decide)⟩
    | _ => exact absurd hr not_reaches_done

end Calls

/-! ### Evaluations of a program -/

section Program

variable {π : Platform}

/-- At every moment of the run, at most `k` steps of sequences have been asked for and stages set up. -/
def StepsBounded (setting : Setting) (ctx : Ctx) (w₀ : World π) (k : Nat) : Prop :=
  ∀ cs w n, Pending (J := evalInterface) (countedHandle setting) (bodies setting.host source) (.main ctx) (w₀, 0)
    cs (w, n) → n ≤ k

theorem down_lt (h : Down c s c' s') (hk : s'.2 ≤ k) :
    toLex (k - s'.2, toLex (s'.1.totalFuel, c'.rank)) < toLex (k - s.2, toLex (s.1.totalFuel, c.rank)) := by
  rw [toLex_lt_toLex, toLex_lt_toLex]
  dsimp only
  obtain ⟨hle, hlt⟩ | ⟨⟨hle, hfuel⟩, hrank⟩ := h
  · obtain heq | hn := Nat.eq_or_lt_of_le hle
    · exact .inr ⟨by omega, .inl (hlt heq)⟩
    · exact .inl (by omega)
  · obtain heq | hn := Nat.eq_or_lt_of_le hle
    · obtain hsame | hless := Nat.eq_or_lt_of_le (hfuel heq)
      · exact .inr ⟨by omega, .inr ⟨hsame, hrank⟩⟩
      · exact .inr ⟨by omega, .inl hless⟩
    · exact .inl (by omega)

/-- A call that ends, with what follows up to an end of the whole. -/
def EndsBefore (setting : Setting) (last : World π × Nat) (c : EvalCall) (s : World π × Nat) : Prop :=
  ∃ q, countedLimit setting source c s = some q ∧ Spent q.2 last

theorem stepsBounded_of_ends {q : Except Signal Value × (World π × Nat)}
    (hq : countedLimit setting source (.main ctx) (w₀, 0) = some q) : StepsBounded setting ctx w₀ q.2.2 := by
  have husing := @using_limit π setting source
  intro cs w n hpending
  cases cs with
  | nil => exact nomatch hpending
  | cons c cs =>
    have hends : EndsBefore setting q.2 c (w, n) := by
      have hstart : EndsBefore setting q.2 (.main ctx) (w₀, 0) := ⟨q, hq, .refl _⟩
      refine hpending.rule (R := fun c _ s => EndsBefore setting q.2 c s) hstart ?_
      rintro c cs s c' s' ⟨q', hq', hspent⟩ hr
      rw [countedLimit, limit_eq] at hq'
      obtain ⟨q'', hq'', hrest⟩ := hr.ends Spent.refl (fun _ _ _ => Spent.trans) (fun o s => spent_handle setting o s)
        husing.spent hq'
      exact ⟨q'', hq'', hrest.trans hspent⟩
    obtain ⟨⟨r, s'⟩, hr, hspent⟩ := hends
    exact ((husing.spent _ _ _ _ hr).trans hspent).1

/-- With a finite budget, an evaluation ends exactly if there is a bound on the steps of lazy sequences it asks for and
the stages it sets up. -/
theorem evaluation_ends_iff (setting : Setting) (items : List Item) (fuel : Nat) (platform : π.State) :
    (∃ depth outcome, evalProgramWithFuel setting source depth items fuel platform = some outcome) ↔
      ∀ ctx w₀, startProgram items fuel platform = some (ctx, w₀) → ∃ k, StepsBounded setting ctx w₀ k := by
  unfold evalProgramWithFuel
  cases hstart : startProgram items fuel platform with
  | none => exact ⟨fun _ _ _ h => (nomatch h), fun _ => ⟨0, _, rfl⟩⟩
  | some started =>
    obtain ⟨ctx, w₀⟩ := started
    have huncounted := fun depth => countedMeaning_uncounted setting source depth (.main ctx) (w₀, 0)
    constructor
    · rintro ⟨depth, outcome, hdepth⟩ ctx' w₀' h
      obtain ⟨rfl, rfl⟩ := Prod.mk.inj (some.inj h)
      obtain ⟨q, hq, -⟩ := map_eq_some_iff.1 ((huncounted depth).trans hdepth)
      exact ⟨_, stepsBounded_of_ends ((limit_eq_some _ _).2 ⟨depth, hq⟩)⟩
    intro hsteps
    obtain ⟨k, hk⟩ := hsteps ctx w₀ rfl
    have wf : WellFounded ((· < ·) : ℕ ×ₗ ℕ ×ₗ ℕ ×ₗ ℕ ×ₗ ℕ → ℕ ×ₗ ℕ ×ₗ ℕ ×ₗ ℕ ×ₗ ℕ → Prop) := wellFounded_lt
    have hends : (countedLimit setting source (.main ctx) (w₀, 0)).isSome :=
      limit_isSome wf (fun c s => toLex (k - s.2, toLex (s.1.totalFuel, EvalCall.rank c))) fun c cs s c' s' hp hr =>
          down_lt ((using_limit setting source).down hr) (hk _ _ _ (.push _ _ _ _ _ hp hr))
    obtain ⟨q, hq⟩ := isSome_iff_exists.1 hends
    obtain ⟨depth, hdepth⟩ := (limit_eq_some _ _).1 hq
    refine ⟨depth, uncounted q, (huncounted depth).symm.trans ?_⟩
    rw [countedMeaning, hdepth]
    rfl

/-! ### A sequence without an end -/

def listing : List EvalCall → Bool
  | .toList _ _ :: _ => true
  | _ => false

def repeating (q : List EvalCall × World π) : Bool :=
  match q.1 with
  | .toList (.seq a) _ :: _ =>
    match q.2.seqs[a]? with
    | some (.unforced (.repeat_ _)) => true
    | _ => false
  | _ => false

theorem force_repeat (setting : Setting) (mode : Mode) (n : Nat) (h : w.seqs[a]? = some (.unforced (.repeat_ v))) :
    ∃ w', meaningAt setting mode (n + 1) (.force a) w = some (.ok (.cons v (.seq w.seqs.length)), w') ∧
      w'.seqs[w.seqs.length]? = some (.unforced (.repeat_ v)) := by
  have hlt : a < w.seqs.length := (List.getElem?_eq_some_iff.1 h).1
  have hpeek : (handle setting (.peek a) w).1 = SeqState.unforced (.repeat_ v) := by
    change w.seqs.getD a _ = _
    rw [getD_eq_getElem?_getD, h]
    rfl
  refine ⟨{ w with seqs := (w.seqs ++ [SeqState.unforced (.repeat_ v)]).set a (.forced (.cons v (.seq w.seqs.length))) }, ?_, ?_⟩
  · change run _ _ (forceState setting.host a (handle setting (.peek a) w).1) w = _
    rw [hpeek]
    rfl
  · change ((w.seqs ++ [SeqState.unforced (.repeat_ v)]).set a _)[w.seqs.length]? = _
    rw [getElem?_set_ne (Nat.ne_of_lt hlt), getElem?_append_right (Nat.le_refl _), Nat.sub_self]
    rfl

/-- The list of all its elements is never finished, and no fuel is taken. -/
theorem toList_repeat (setting : Setting) (mode : Mode) (n : Nat) (h : w.seqs[a]? = some (.unforced (.repeat_ v))) :
    meaningAt setting mode n (.toList (.seq a) items) w = none := by
  induction n generalizing w a items with
  | zero => rfl
  | succ n ih =>
    change (meaningAt setting mode n (.force a) w).bind _ = none
    cases n with
    | zero => rfl
    | succ n =>
      obtain ⟨w', hforce, hnext⟩ := force_repeat setting mode n h
      rw [hforce]
      change (meaningAt setting mode (n + 1) (.toList (.seq w.seqs.length) (items ++ [v])) w').bind _ = none
      rw [ih hnext]
      rfl

/-- The budget does not stop it. -/
theorem repeat_not_stopped :
    ¬ ∃ depth outcome, @evalProgramWithFuel nullPlatform Setting.plain source depth
      (itemsOf "main() = toList(repeat(1))") 1000 () = some outcome := by
  have h : (@seekMain nullPlatform Setting.plain source listing 40
      (itemsOf "main() = toList(repeat(1))") 1000 ()).any repeating = true := by decide +kernel
  obtain ⟨⟨cs, w⟩, hseek, hrepeat⟩ := (any_eq_true _ _).1 h
  obtain ⟨ctx, w₀, hstart, hpending, -⟩ := pending_of_seekMain Setting.plain source hseek
  unfold repeating at hrepeat
  split at hrepeat
  · rename_i a items rest hcs
    obtain rfl : cs = _ := hcs
    split at hrepeat
    · rename_i v hv
      have hnone : evalLimit Setting.plain source (.main ctx) w₀ = none := by
        refine hpending.limit_none (eq_none_iff_forall_ne_some.2 fun q hq => ?_)
        obtain ⟨n, hn⟩ := (limit_eq_some _ _).1 hq
        exact nomatch (toList_repeat Setting.plain source n hv).symm.trans hn
      rintro ⟨depth, outcome, hdepth⟩
      unfold evalProgramWithFuel at hdepth
      rw [hstart] at hdepth
      exact nomatch hnone.symm.trans ((limit_eq_some _ _).2 ⟨depth, hdepth⟩)
    · exact nomatch hrepeat
  · exact nomatch hrepeat

end Program

end SnitchOs.Stitch
