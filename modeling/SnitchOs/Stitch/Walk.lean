import SnitchOs.Lib.CallStack
import SnitchOs.Stitch.Interp

/-!
# What an evaluation may do

One walk through the evaluator. An evaluation asks only its own globals' table and its own program, calls only what
keeps to these, and does not touch fuel, frames or a sequence's state itself. Everything about these is then decided
in the few procedures that do.
-/

namespace SnitchOs.Stitch

open Calls Eval

/-! ### What is allowed -/

/-- No fuel, no frames, no sequence's state; names and methods of the own table and program. -/
def WorldOp.Plain (ctx : Ctx) : WorldOp → Prop
  | .takeFuel _ | .enterCall _ _ | .leaveCall _ | .peek _ | .memo _ _ | .finish _ => False
  | .global table _ => table = ctx.globals
  | .hasMethods p _ | .lookupMethod p _ _ | .fieldMutability p _ _ => p = ctx.program
  | _ => True

/-- The same globals and the same program; the authority and the handlers may differ. -/
def Ctx.Same (ctx ctx' : Ctx) : Prop := ctx'.globals = ctx.globals ∧ ctx'.program = ctx.program

/-- What the evaluation of an expression calls, in tail position or not. -/
def EvalCall.Under (tail : Bool) (ctx : Ctx) : EvalCall → Prop
  | .eval _ env => ctx.Same env.ctx
  | .evalTail _ env => tail = true ∧ env.ctx = ctx
  | .method _ env => ctx.Same env.ctx
  | .assign _ _ env => env.ctx = ctx
  | .apply _ _ ctx' => ctx' = ctx
  | .stage _ _ _ => True
  | _ => False

/-- Only in tail position is a self-tail-call signalled. -/
def Signal.Leaves (tail : Bool) : Signal → Prop
  | .tailCall _ => tail = true
  | _ => True

abbrev Stays (tail : Bool) (ctx : Ctx) {α : Type} (A : α → Prop) (p : Eval α) : Prop :=
  Prog.Straight (WorldOp.Plain ctx) (EvalCall.Under tail ctx) (Signal.Leaves tail) A p

abbrev Any {α : Type} : α → Prop := fun _ => True

theorem Ctx.Same.refl (ctx : Ctx) : ctx.Same ctx := ⟨rfl, rfl⟩

section Walk

variable {ctx : Ctx} {α β : Type}

/-! ### Operations and calls -/

theorem stays_pure (a : α) : Stays tail ctx Any (pure a) := .pure trivial

theorem stays_fault {A : α → Prop} (f : Fault) : Stays tail ctx A (fault f) := .throw trivial

theorem stays_lift (r : Except Failure α) : Stays tail ctx Any (lift r) := by
  refine ⟨fun e he => ?_, fun _ _ => trivial⟩
  cases r with
  | ok a => exact nomatch he
  | error f =>
    cases he
    cases f <;> trivial

theorem stays_alloc (v : Value) : Stays tail ctx Any (alloc v) := .perform trivial fun _ => trivial

theorem stays_load (a : Addr) : Stays tail ctx Any (load a) := .perform trivial fun _ => trivial

theorem stays_store (a : Addr) (v : Value) : Stays tail ctx Any (store a v) := .perform trivial fun _ => trivial

theorem stays_lazy (thunk : Thunk) : Stays tail ctx Any (lazy thunk) := .perform trivial fun _ => trivial

theorem stays_freshId : Stays tail ctx Any freshId := .perform trivial fun _ => trivial

theorem stays_moduleHandle (id : Nat) : Stays tail ctx Any (moduleHandle id) := .perform trivial fun _ => trivial

theorem stays_platform (o : PlatformOp) : Stays tail ctx Any (platform o) := .perform trivial fun _ => trivial

theorem stays_call (h : c.Under tail ctx) : @Stays tail ctx c.Res Any (Prog.call c Prog.done) :=
  .invoke h fun _ => trivial

theorem stays_eval (h : ctx.Same env.ctx) : Stays tail ctx Any (eval e env) :=
  stays_call (c := .eval e env) h

theorem stays_apply (f : Value) (args : List Value) : Stays tail ctx Any (apply f args ctx) :=
  stays_call (c := .apply f args ctx) rfl

theorem stays_runMethod (h : ctx.Same env.ctx) : Stays tail ctx Any (runMethod body env) :=
  stays_call (c := .method body env) h

theorem stays_assignPlace (h : env.ctx = ctx) (place : CoreExpr) (value : Value) :
    Stays tail ctx Any (assignPlace place value env) := stays_call (c := .assign place value env) h

theorem stays_collect (hf : ∀ x, Stays tail ctx Any (f x)) (xs : List α) : Stays tail ctx Any (collect f xs) := by
  induction xs with
  | nil => exact stays_pure _
  | cons x xs ih => exact .bind (hf x) fun _ _ => .map ih

theorem stays_foldUp {A : β → Prop} (hf : ∀ acc x, A acc → Stays tail ctx A (f acc x)) (xs : List α)
    (hacc : A acc) : Stays tail ctx A (foldUp f acc xs) := by
  induction xs generalizing acc with
  | nil => exact .pure hacc
  | cons x xs ih => exact .bind (hf acc x hacc) fun _ h => ih h

/-! ### Environments -/

section Env

variable {env : Env}

theorem stays_bind (h : env.ctx = ctx) (name : String) (value : Value) (mutable : Bool) :
    Stays tail ctx (fun env => env.ctx = ctx) (env.bind name value mutable) :=
  .bind (stays_alloc value) fun _ _ => .pure h

theorem stays_extendAll (h : env.ctx = ctx) (bindings : List (String × Value)) :
    Stays tail ctx (fun env => env.ctx = ctx) (env.extendAll bindings) :=
  stays_foldUp (fun _ binding h => stays_bind h binding.1 binding.2 false) bindings h

theorem stays_lookup (h : ctx.Same env.ctx) (name : String) : Stays tail ctx Any (env.lookup name) := by
  unfold Env.lookup
  split
  · exact .map (stays_load _)
  · exact .perform h.1 fun _ => trivial

theorem stays_assign (env : Env) (name : String) (value : Value) : Stays tail ctx Any (env.assign name value) := by
  unfold Env.assign
  split
  · exact stays_fault _
  · exact stays_fault _
  · exact stays_store _ _

end Env

/-! ### The evaluator -/

section Evaluator

variable {env : Env}

theorem stays_evalArgs (h : ctx.Same env.ctx) (args : List CoreArg) : Stays tail ctx Any (evalArgs env args) := by
  induction args with
  | nil => exact stays_pure _
  | cons arg args ih =>
    unfold evalArgs
    split
    · exact stays_fault _
    split
    · exact stays_fault _
    exact .bind (stays_eval h) fun _ _ => .map ih

theorem stays_constructArgs (h : ctx.Same env.ctx) (ctor : Constructor) (args : List CoreArg) (next : Nat)
    (slots : List (Option Value)) : Stays tail ctx Any (constructArgs ctor env args next slots) := by
  induction args generalizing next slots with
  | nil => exact stays_pure _
  | cons arg args ih =>
    unfold constructArgs
    split
    · refine .bind (stays_eval h) fun base _ => ?_
      split
      · split
        · exact stays_fault _
        · exact ih _ _
      · exact stays_fault _
    · refine .bind (stays_lift _) fun slot _ => ?_
      dsimp only
      split
      · exact .bind (stays_eval h) fun _ _ => ih _ _
      · exact stays_fault _

theorem stays_evalCall (h : env.ctx = ctx) (callee : Value) (args : List CoreArg) :
    Stays tail ctx Any (evalCall callee args env) := by
  have hsame : ctx.Same env.ctx := h ▸ .refl _
  unfold evalCall
  split
  · exact .bind (stays_constructArgs hsame _ _ _ _) fun _ _ => .bind (stays_lift _) fun _ _ => stays_lift _
  · exact .bind (stays_evalArgs hsame _) fun _ _ => h ▸ stays_apply _ _

theorem stays_evalString (h : ctx.Same env.ctx) (segments : List CoreStrSegment) (text : String) :
    Stays tail ctx Any (evalString host env segments text) := by
  induction segments generalizing text with
  | nil => exact stays_pure _
  | cons segment segments ih =>
    cases segment with
    | lit literal => exact ih _
    | interp e => exact .bind (stays_eval h) fun _ _ => ih _

theorem stays_evalField (object : Value) (name : String) : Stays tail ctx Any (evalField object name) := by
  unfold evalField
  split
  · refine .bind (stays_moduleHandle _) fun handle _ => ?_
    split
    · exact stays_pure _
    · exact stays_fault _
  · split
    · exact stays_pure _
    · exact stays_fault _
  · exact stays_fault _

theorem stays_methodEnv (self : Option Value) (mutable : Bool) :
    Stays tail ctx (fun env => env.ctx = ctx) (methodEnv self mutable ctx) := by
  unfold methodEnv
  split
  · exact stays_bind rfl _ _ _
  · exact .pure rfl

theorem stays_bindParams {inner : Env} (h : ctx.Same env.ctx) (params : List Param) (args : List CoreArg)
    (hinner : inner.ctx = ctx) : Stays tail ctx (fun env => env.ctx = ctx) (bindParams env params args inner) := by
  induction params generalizing args inner with
  | nil => exact .pure hinner
  | cons param params ih =>
    cases args with
    | nil => exact .pure hinner
    | cons arg args =>
      exact .bind (stays_eval h) fun _ _ => .bind (stays_bind hinner _ _ _) fun _ hinner => ih args hinner

theorem stays_typePath (h : ctx.Same env.ctx) (object : CoreExpr) : Stays tail ctx Any (typePath object env) := by
  unfold typePath
  split
  · refine .bind (stays_lookup h _) fun _ _ => .map (A := Any) (.perform h.2 fun _ => trivial)
  · exact stays_pure _

theorem stays_receiver (h : ctx.Same env.ctx) (object : CoreExpr) (name : String) :
    Stays tail ctx Any (receiver object name env) := by
  unfold receiver
  refine .bind (stays_typePath h object) fun path _ => ?_
  split
  · exact stays_pure _
  refine .bind (stays_eval h) fun value _ => ?_
  split
  · exact stays_pure _
  · exact stays_pure _
  · refine .bind (stays_moduleHandle _) fun handle _ => ?_
    split
    · exact stays_pure _
    · exact stays_fault _
  · exact stays_fault _

theorem stays_callMethod (h : env.ctx = ctx) (method : Method) (object : CoreExpr) (typeName name : String)
    (self : Option Value) (args : List CoreArg) : Stays tail ctx Any (callMethod method object typeName name self args env) := by
  have hsame : ctx.Same env.ctx := h ▸ .refl _
  unfold callMethod
  split
  · exact stays_fault _
  split
  · exact stays_fault _
  split
  · exact stays_fault _
  split
  · exact stays_fault _
  rw [h]
  refine .bind (stays_methodEnv _ _) fun inner hinner => ?_
  refine .bind (stays_bindParams hsame _ _ hinner) fun inner hinner => ?_
  have hsame' : ctx.Same (withUses inner method.uses).ctx := by
    rw [← hinner]
    exact ⟨rfl, rfl⟩
  split
  · exact .throw trivial
  refine .bind (stays_runMethod hsame') fun result _ => ?_
  split
  · refine .bind (stays_lookup hsame' _) fun mutated _ => ?_
    split
    · exact .map (stays_assignPlace h _ _)
    · exact .map (A := Any) (.throw trivial)
  · exact stays_pure _

theorem stays_evalMethodCall (h : env.ctx = ctx) (object : CoreExpr) (name : String) (args : List CoreArg) :
    Stays tail ctx Any (evalMethodCall object name args env) := by
  have hsame : ctx.Same env.ctx := h ▸ .refl _
  unfold evalMethodCall
  refine .bind (stays_receiver hsame _ _) fun target _ => ?_
  split
  · exact stays_evalCall h _ _
  refine .bind (.perform hsame.2 fun _ => trivial) fun method _ => ?_
  split
  · exact stays_callMethod h _ _ _ _ _ _
  split
  · exact .bind (stays_collect (fun _ => stays_eval hsame) _) fun _ _ => h ▸ stays_apply _ _
  · exact stays_fault _

theorem stays_callInstanceMethod (h : env.ctx = ctx) (value : Value) (name : String) (args : List Value) :
    Stays tail ctx Any (callInstanceMethod value name args env) := by
  unfold callInstanceMethod
  split
  · refine .bind (.perform (congrArg Ctx.program h) fun _ => trivial) fun method _ => ?_
    split
    · exact stays_pure _
    split
    · exact stays_pure _
    have hglobals : env.ctx.globalsOnly.ctx = ctx := h
    refine .bind (stays_bind hglobals _ _ _) fun inner hinner => ?_
    refine .bind (stays_extendAll hinner _) fun inner hinner => ?_
    refine .map (stays_runMethod ?_)
    rw [← hinner]
    exact ⟨rfl, rfl⟩
  · exact stays_pure _

theorem stays_evalTry (h : env.ctx = ctx) (value : Value) : Stays tail ctx Any (evalTry value env) := by
  unfold evalTry
  refine .bind (stays_callInstanceMethod h _ _ _) fun failed _ => ?_
  split
  · exact stays_fault _
  · exact .throw trivial
  · refine .bind (stays_callInstanceMethod h _ _ _) fun payload _ => ?_
    split
    · exact stays_pure _
    · exact stays_fault _
  · exact stays_fault _

theorem stays_evalSafeField (h : env.ctx = ctx) (object : Value) (name : String) :
    Stays tail ctx Any (evalSafeField object name env) := by
  unfold evalSafeField
  refine .bind stays_freshId fun id _ => ?_
  refine .bind (stays_callInstanceMethod h _ _ _) fun mapped _ => ?_
  split
  · exact stays_pure _
  · exact stays_fault _

theorem stays_pipedArgs (h : ctx.Same env.ctx) (args : List CoreArg) : Stays tail ctx Any (pipedArgs env args) := by
  induction args with
  | nil => exact stays_pure _
  | cons arg args ih =>
    unfold pipedArgs
    split
    · exact stays_fault _
    · exact .bind (stays_eval h) fun _ _ => .map ih

theorem stays_evalPipe (h : env.ctx = ctx) (left right : CoreExpr) : Stays tail ctx Any (evalPipe left right env) := by
  have hsame : ctx.Same env.ctx := h ▸ .refl _
  unfold evalPipe
  refine .bind (stays_eval hsame) fun piped _ => ?_
  split
  · exact .bind (stays_eval hsame) fun _ _ => .bind (stays_pipedArgs hsame _) fun _ _ => h ▸ stays_apply _ _
  · exact .bind (stays_eval hsame) fun _ _ => h ▸ stays_apply _ _

theorem stays_resolveStage (name : String) : Stays tail ctx Any (resolveStage host name) := by
  unfold resolveStage
  refine .bind (stays_platform _) fun source _ => ?_
  split
  · exact stays_fault _
  split
  · exact stays_fault _
  · exact .map (stays_lift _)

theorem stays_checkUpstream (left : CoreExpr) (name : String) (input : Hitch.TypeSchema) :
    Stays tail ctx Any (checkUpstream host left name input) := by
  unfold checkUpstream
  split
  · refine .bind (stays_lift _) fun upstream _ => ?_
    refine .bind (stays_resolveStage _) fun ⟨items, manifest⟩ _ => ?_
    dsimp only
    split
    · exact stays_fault _
    split
    · exact stays_pure _
    · exact stays_fault _
  · exact stays_pure _

theorem stays_runStage (name : String) (items : List Item) (input : Value) : Stays tail ctx Any (runStage name items input) := by
  unfold runStage
  refine .bind (.perform trivial fun _ => trivial) fun built _ => ?_
  split
  · exact .throw trivial
  · exact stays_call trivial

variable (h : ctx.Same env.ctx)
include h

theorem stays_evalCrossPipe (left right : CoreExpr) : Stays tail ctx Any (evalCrossPipe host left right env) := by
  unfold evalCrossPipe
  refine .bind (stays_lift _) fun name _ => ?_
  refine .bind (stays_resolveStage _) fun ⟨items, manifest⟩ _ => ?_
  dsimp only
  split
  · exact stays_fault _
  refine .bind (stays_checkUpstream _ _ _) fun _ _ => ?_
  refine .bind (stays_eval h) fun input _ => ?_
  refine .bind (stays_lift _) fun hitched _ => ?_
  split
  · exact stays_runStage _ _ _
  · exact stays_fault _

theorem stays_evalExpect (asserted : CoreExpr) : Stays tail ctx Any (evalExpect host asserted env) := by
  have hwhole : Stays tail ctx Any (do
      let value ← eval asserted env
      let holds ← lift (asBool value "`expect`")
      if holds then pure Value.unit else faultWith "expect failed") := by
    refine .bind (stays_eval h) fun value _ => .bind (stays_lift _) fun holds _ => ?_
    split
    · exact stays_pure _
    · exact stays_fault _
  unfold evalExpect
  split
  · split
    · refine .bind (stays_eval h) fun left _ => .bind (stays_eval h) fun right _ => ?_
      refine .bind (stays_lift _) fun outcome _ => .bind (stays_lift _) fun holds _ => ?_
      split
      · exact stays_pure _
      · exact stays_fault _
    · exact hwhole
  · exact hwhole

theorem stays_evalEntries (entries : List (CoreExpr × CoreExpr)) (done : List (Value × Value)) :
    Stays tail ctx Any (evalEntries host env entries done) := by
  induction entries generalizing done with
  | nil => exact stays_pure _
  | cons entry entries ih => exact .bind (stays_eval h) fun _ _ => .bind (stays_eval h) fun _ _ => ih _

theorem stays_evalInt (e : CoreExpr) (what : String) : Stays tail ctx Any (evalInt e env what) := by
  refine .bind (stays_eval h) fun value _ => ?_
  split
  · exact stays_pure _
  · exact stays_fault _

theorem stays_evalStop (stop : Option CoreExpr) : Stays tail ctx Any (evalStop stop env) := by
  unfold evalStop
  split
  · exact stays_pure _
  · exact .map (stays_evalInt h _ _)

theorem stays_evalRange (start stop : Option CoreExpr) (inclusive : Bool) :
    Stays tail ctx Any (evalRange start stop inclusive env) := by
  unfold evalRange
  split
  · exact stays_fault _
  · exact .bind (stays_evalInt h _ _) fun _ _ => .bind (stays_evalStop h _) fun _ _ => stays_lazy _

omit h

theorem stays_evalAt (h : env.ctx = ctx) (e : CoreExpr) : Stays tail ctx Any (evalAt tail e env) := by
  unfold evalAt
  split
  · rename_i htail
    exact stays_call (c := .evalTail e env) ⟨htail, h⟩
  · exact stays_eval (h ▸ .refl _)

theorem stays_evalBlock (h : env.ctx = ctx) (result : Option CoreExpr) (stmts : List CoreStmt) :
    Stays tail ctx Any (evalBlock tail result stmts env) := by
  induction stmts generalizing env with
  | nil =>
    cases result with
    | none => exact stays_pure _
    | some e => exact stays_evalAt h e
  | cons stmt stmts ih =>
    have hsame : ctx.Same env.ctx := h ▸ .refl _
    cases stmt with
    | let_ name mutable value => exact .bind (stays_eval hsame) fun _ _ => .bind (stays_bind h _ _ _) fun _ h => ih h
    | expr e => exact .bind (stays_eval hsame) fun _ _ => ih h
    | assign target value =>
      exact .bind (stays_eval hsame) fun _ _ => .bind (stays_assignPlace h _ _) fun _ _ => ih h

theorem stays_guardHolds (h : ctx.Same env.ctx) (guard : Option CoreExpr) : Stays tail ctx Any (guardHolds guard env) := by
  unfold guardHolds
  split
  · exact .bind (stays_eval h) fun _ _ => stays_lift _
  · exact stays_pure _

theorem stays_evalMatch (h : env.ctx = ctx) (subject : Value) (arms : List CoreMatchArm) :
    Stays tail ctx Any (evalMatch host tail subject env arms) := by
  induction arms with
  | nil => exact stays_fault _
  | cons arm arms ih =>
    unfold evalMatch
    split
    · exact ih
    refine .bind (stays_extendAll h _) fun bound hbound => ?_
    refine .bind (stays_guardHolds (hbound ▸ .refl _) _) fun holds _ => ?_
    split
    · exact stays_evalAt hbound _
    · exact ih

theorem stays_evalLogic (h : ctx.Same env.ctx) (decides : Bool) (context : String) (left right : CoreExpr) :
    Stays tail ctx Any (evalLogic decides context left right env) := by
  refine .bind (stays_eval h) fun _ _ => .bind (stays_lift _) fun _ _ => ?_
  split
  · exact stays_pure _
  · exact .bind (stays_eval h) fun _ _ => .map (stays_lift _)

theorem stays_evalKind (env : Env) (k : CoreExprKind CoreExpr) : Stays false env.ctx Any (evalKind host env k) := by
  have hsame : env.ctx.Same env.ctx := .refl _
  unfold evalKind
  split
  · exact stays_pure _
  · exact stays_pure _
  · exact stays_pure _
  · exact stays_evalString hsame _ _
  · exact stays_evalLogic hsame _ _ _ _
  · exact stays_evalLogic hsame _ _ _ _
  · exact stays_evalPipe rfl _ _
  · exact stays_evalCrossPipe hsame _ _
  · exact .bind (stays_eval hsame) fun _ _ => .bind (stays_eval hsame) fun _ _ => stays_lift _
  · exact .bind (stays_eval hsame) fun _ _ => stays_lift _
  · refine .bind (stays_lookup hsame _) fun value _ => ?_
    split
    · exact stays_pure _
    · exact stays_fault _
  · refine .bind (stays_lookup hsame _) fun value _ => ?_
    split
    · exact stays_pure _
    · exact stays_fault _
  · refine .bind (stays_eval hsame) fun cond _ => .bind (stays_lift _) fun holds _ => ?_
    split
    · exact stays_eval hsame
    · exact stays_eval hsame
  · exact stays_evalBlock rfl _ _
  · exact .bind (stays_eval hsame) fun _ _ => stays_evalMatch rfl _ _
  · exact .bind (stays_eval hsame) fun _ _ => stays_eval ⟨rfl, rfl⟩
  · exact stays_eval ⟨rfl, rfl⟩
  · exact stays_evalExpect hsame _
  · exact stays_pure _
  · exact .map (stays_collect (fun _ => stays_eval hsame) _)
  · exact .map (stays_collect (fun _ => stays_eval hsame) _)
  · exact stays_evalEntries hsame _ _
  · exact .bind stays_freshId fun _ _ => stays_pure _
  · split
    · exact stays_evalMethodCall rfl _ _ _
    · exact .bind (stays_eval hsame) fun _ _ => stays_evalCall rfl _ _
  · exact .bind (stays_eval hsame) fun _ _ => stays_evalField _ _
  · exact .bind (stays_eval hsame) fun _ _ => stays_evalTry rfl _
  · exact .bind (stays_eval hsame) fun _ _ => stays_evalSafeField rfl _ _
  · exact .bind (stays_eval hsame) fun _ _ => .bind (stays_eval hsame) fun _ _ => stays_lift _
  · exact stays_evalRange hsame _ _ _
  · exact stays_fault _

theorem stays_callMain (ctx : Ctx) : Stays false ctx Any (callMain ctx) := by
  refine .bind (A := Any) (.perform rfl fun _ => trivial) fun main _ => ?_
  have hctx : ctx.globalsOnly.ctx = ctx := rfl
  split
  · exact stays_evalCall hctx _ _
  · exact stays_fault _

theorem stays_tailArgs (h : ctx.Same env.ctx) (args : List CoreArg) : Stays tail ctx Any (tailArgs env args) := by
  induction args with
  | nil => exact stays_pure _
  | cons arg args ih =>
    unfold tailArgs
    split
    · exact stays_pure _
    · exact .bind (stays_eval h) fun _ _ => .map ih

theorem stays_evalTailCall (mode : Mode) (env : Env) (callee : Value) (args : List CoreArg) :
    Stays true env.ctx Any (evalTailCall mode callee args env) := by
  unfold evalTailCall
  split
  · exact stays_evalCall rfl _ _
  split
  · refine .bind (stays_tailArgs (.refl _) _) fun values _ => ?_
    unfold signalTail
    split
    · exact stays_evalCall rfl _ _
    split
    · exact stays_fault _
    · exact .throw rfl
  · exact stays_evalCall rfl _ _

theorem stays_evalTailDispatch (mode : Mode) (e : CoreExpr) (env : Env) :
    Stays true env.ctx Any (evalTailDispatch host mode e env) := by
  have hsame : env.ctx.Same env.ctx := .refl _
  unfold evalTailDispatch
  split
  · split
    · exact stays_eval hsame
    · exact .bind (stays_eval hsame) fun _ _ => stays_evalTailCall mode env _ _
  · refine .bind (stays_eval hsame) fun cond _ => .bind (stays_lift _) fun holds _ => ?_
    split
    · exact stays_evalAt rfl _
    · exact stays_evalAt rfl _
  · exact stays_evalBlock rfl _ _
  · exact .bind (stays_eval hsame) fun _ _ => stays_evalMatch rfl _ _
  · exact stays_eval hsame

theorem stays_assignBody (place : CoreExpr) (value : Value) (env : Env) :
    Stays false env.ctx Any (assignBody place value env) := by
  have hsame : env.ctx.Same env.ctx := .refl _
  unfold assignBody
  split
  · exact stays_assign _ _ _
  · exact stays_assign _ _ _
  · refine .bind (stays_eval hsame) fun current _ => ?_
    split
    · refine .bind (A := Any) (.perform rfl fun _ => trivial) fun mutable _ => ?_
      split
      · exact stays_fault _
      · exact stays_fault _
      split
      · exact stays_fault _
      · exact stays_assignPlace rfl _ _
    · exact stays_fault _
  · exact stays_fault _

end Evaluator

end Walk

end SnitchOs.Stitch
