import SnitchOs.Stitch.Walk

/-!
# What a native may do

The walk through the natives and the lazy sequences. A native does not return early for its caller, and what it calls
is smaller in some way: fewer arguments, fewer handlers, or a loop that starts by forcing a sequence. So every
procedure but the application of a function leaves the frames alone.
-/

namespace SnitchOs.Stitch

open Calls Eval List EvalCall

/-! ### The natives -/

/-- A native calls a function with fewer arguments than it has itself, or a handler where that is no longer
installed, or one of the loops over a sequence. -/
def EvalCall.Native (ctx : Ctx) (arity : Nat) : EvalCall → Prop
  | .apply _ args ctx' =>
    (ctx' = ctx ∧ args.length < arity) ∨ (ctx.Same ctx' ∧ ctx'.handlers.length < ctx.handlers.length)
  | .toList _ _ | .foldSeq _ _ _ _ | .foldWhileSeq _ _ _ _ => True
  | _ => False

/-- What the next step of a sequence and the loops over one call. -/
def EvalCall.Lazy : EvalCall → Prop
  | .apply _ _ _ | .force _ | .toList _ _ | .foldSeq _ _ _ _ | .foldWhileSeq _ _ _ _ | .dropSeq _ _
  | .dropWhileSeq _ _ _ | .filterSeq _ _ _ => True
  | _ => False

/-- Neither an early return nor a self-tail-call. -/
def Signal.Fails : Signal → Prop
  | .fault _ | .panic => True
  | _ => False

abbrev Serves (Q : EvalCall → Prop) (ctx : Ctx) {α : Type} (p : Eval α) : Prop :=
  Prog.Straight (WorldOp.Plain ctx) Q Signal.Fails Any p

/-- So does a native with these arguments. -/
abbrev Answers (ctx : Ctx) (args : List Value) (p : Eval Value) : Prop := Serves (EvalCall.Native ctx args.length) ctx p

variable {c : EvalCall} {args : List Value}
  {tail : Bool}

section Natives

variable {Q : EvalCall → Prop} {ctx : Ctx} {α β : Type}

theorem serves_pure (a : α) : Serves Q ctx (pure a) := .pure trivial

theorem serves_fault (f : Fault) : Serves Q ctx (fault f : Eval α) := .throw trivial

theorem serves_lift (r : Except Failure α) : Serves Q ctx (lift r) := by
  refine ⟨fun e he => ?_, fun _ _ => trivial⟩
  cases r with
  | ok a => exact nomatch he
  | error f =>
    cases he
    cases f <;> trivial

theorem serves_call (h : Q c) : @Serves Q ctx c.Res (Prog.call c Prog.done) :=
  .invoke h fun _ => trivial

theorem serves_lazy (thunk : Thunk) : Serves Q ctx (lazy thunk) := .perform trivial fun _ => trivial

theorem serves_platform (o : PlatformOp) : Serves Q ctx (platform o) := .perform trivial fun _ => trivial

theorem serves_record (event : TelemetryEvent) : Serves Q ctx (record event) := .perform trivial fun _ => trivial

theorem serves_apply (h : Q (.apply f args ctx')) : Serves Q ctx (apply f args ctx') := serves_call (c := .apply f args ctx') h

theorem serves_collect {f : α → Eval β} (hf : ∀ x, Serves Q ctx (f x)) (xs : List α) : Serves Q ctx (collect f xs) := by
  induction xs with
  | nil => exact serves_pure _
  | cons x xs ih => exact .bind (hf x) fun _ _ => .map ih

theorem serves_foldUp {f : β → α → Eval β} (hf : ∀ acc x, Serves Q ctx (f acc x)) (xs : List α) (acc : β) :
    Serves Q ctx (foldUp f acc xs) := by
  induction xs generalizing acc with
  | nil => exact serves_pure _
  | cons x xs ih => exact .bind (hf acc x) fun _ _ => ih _

theorem serves_keeps (h : Q (.apply pred [item] ctx')) : Serves Q ctx (keeps pred item ctx') := by
  refine .bind (serves_apply h) fun result _ => ?_
  split
  · exact serves_pure _
  · exact serves_fault _

theorem serves_keepAll (h : ∀ x, Q (.apply pred [x] ctx)) (xs : List α) : Serves Q ctx (keepAll item pred ctx xs) := by
  induction xs with
  | nil => exact serves_pure _
  | cons x xs ih => exact .bind (serves_keeps (h _)) fun _ _ => .map ih

theorem serves_foldWhileStep {acc elem : Value} (h : Q (.apply f [acc, elem] ctx')) :
    Serves Q ctx (foldWhileStep f acc elem ctx') := by
  refine .bind (serves_apply h) fun result _ => ?_
  split
  · exact serves_pure _
  · exact serves_pure _
  · exact serves_fault _

theorem Ctx.withoutTopHandler_lt (h : ctx.handlerFor op = some handler) :
    (ctx.withoutTopHandler op).handlers.length < ctx.handlers.length := by
  obtain ⟨entry, hentry, -⟩ := Option.map_eq_some_iff.1 h
  have hmem := mem_of_find?_eq_some hentry
  have hlength := length_eraseP_of_mem hmem (find?_some hentry)
  have hpos := length_pos_of_mem hmem
  exact hlength ▸ Nat.pred_lt (Nat.ne_of_gt hpos)

/-- With the capability, the handler is the only function called. -/
theorem serves_gated {ambient : Eval Value} (hambient : Serves (EvalCall.Native ctx arity) ctx ambient) :
    Serves (EvalCall.Native ctx arity) ctx (gated effect cap args ctx ambient) := by
  unfold gated performEffect
  split
  · split
    · rename_i handler hhandler
      exact serves_apply (.inr ⟨⟨rfl, rfl⟩, Ctx.withoutTopHandler_lt hhandler⟩)
    · exact hambient
  · exact serves_fault _

theorem native_apply (h : args.length < arity) : EvalCall.Native ctx arity (.apply f args ctx) := .inl ⟨rfl, h⟩

theorem serves_countedSeq (name : String) (thunk : Int → Value → Thunk) (args : List Value) :
    Serves Q ctx (countedSeq name thunk args) := by
  unfold countedSeq
  split
  · split
    · exact serves_lazy _
    · exact serves_fault _
  · exact serves_fault _
  · exact serves_fault _

theorem serves_whileSeq (name : String) (thunk : Value → Value → Ctx → Thunk) (args : List Value) :
    Serves Q ctx (whileSeq name thunk ctx args) := by
  unfold whileSeq
  split
  · split
    · exact serves_lazy _
    · exact serves_fault _
  · exact serves_fault _

variable (ctx) (args : List Value)

theorem serves_nativeMap : Answers ctx args (nativeMap ctx args) := by
  unfold nativeMap
  split
  · exact serves_lazy _
  · exact .map (serves_collect (fun _ => serves_apply (native_apply (by simp))) _)
  · refine .bind (serves_lift _) fun items _ => ?_
    exact .map (serves_collect (fun _ => serves_apply (native_apply (by simp))) _)
  · exact serves_fault _

theorem serves_nativeFilter : Answers ctx args (nativeFilter ctx args) := by
  unfold nativeFilter
  split
  · exact serves_lazy _
  · exact .map (serves_keepAll (fun _ => native_apply (by simp)) _)
  · refine .bind (serves_lift _) fun items _ => ?_
    exact .map (serves_keepAll (fun _ => native_apply (by simp)) _)
  · exact serves_fault _

theorem serves_nativeFold : Answers ctx args (nativeFold ctx args) := by
  unfold nativeFold
  split
  · exact serves_call trivial
  · exact serves_foldUp (fun _ _ => serves_apply (native_apply (by simp))) _ _
  · refine .bind (serves_lift _) fun items _ => ?_
    exact serves_foldUp (fun _ _ => serves_apply (native_apply (by simp))) _ _
  · exact serves_fault _

theorem serves_foldWhileList (h : ∀ acc item, Q (.apply f [acc, item] ctx)) (acc : Value)
    (items : List Value) : Serves Q ctx (foldWhileList f ctx acc items) := by
  induction items generalizing acc with
  | nil => exact serves_pure _
  | cons item items ih =>
    refine .bind (serves_foldWhileStep (h _ _)) fun next _ => ?_
    split
    · exact ih _
    · exact serves_pure _

theorem serves_nativeFoldWhile : Answers ctx args (nativeFoldWhile ctx args) := by
  unfold nativeFoldWhile
  split
  · exact serves_call trivial
  · refine .bind (serves_lift _) fun items _ => ?_
    exact serves_foldWhileList ctx (fun _ _ => native_apply (by simp)) _ _
  · exact serves_fault _

theorem serves_nativeFlatMap : Answers ctx args (nativeFlatMap ctx args) := by
  unfold nativeFlatMap
  split
  · refine .bind (serves_lift _) fun items _ => .map (serves_collect (fun item => ?_) _)
    exact .bind (serves_apply (native_apply (by simp))) fun _ _ => serves_lift _
  · exact serves_fault _

theorem serves_nativeSortBy : Answers ctx args (nativeSortBy host ctx args) := by
  unfold nativeSortBy
  split
  · refine .bind (serves_lift _) fun items _ => ?_
    refine .bind (serves_collect (fun _ => serves_apply (native_apply (by simp))) _) fun keys _ => ?_
    split
    · exact serves_fault _
    · exact serves_pure _
  · exact serves_fault _

theorem serves_nativeMapMapValues : Answers ctx args (nativeMapMapValues ctx args) := by
  unfold nativeMapMapValues
  split
  · refine .bind (serves_lift _) fun entries _ => .map (serves_collect (fun entry => ?_) _)
    exact .map (serves_apply (native_apply (by simp)))
  · exact serves_fault _

theorem serves_nativeMapUpdate : Answers ctx args (nativeMapUpdate host ctx args) := by
  unfold nativeMapUpdate
  split
  · refine .bind (serves_lift _) fun entries _ => .map (A := Any) ?_
    unfold updatedValue
    split
    · exact serves_apply (native_apply (by simp))
    · exact serves_pure _
  · exact serves_fault _

theorem serves_nativeSpan : Answers ctx args (nativeSpan ctx args) := by
  unfold nativeSpan
  split
  · refine serves_gated (.bind (serves_record _) fun _ _ => ?_)
    refine .bind (serves_apply (native_apply (by simp))) fun _ _ => ?_
    exact .map (serves_record _)
  · exact serves_fault _
  · exact serves_fault _

theorem serves_nativePrint : Answers ctx args (nativePrint host ctx args) := by
  unfold nativePrint
  split
  · exact serves_gated (.map (serves_platform _))
  · exact serves_fault _

theorem serves_nativeReadLine : Answers ctx args (nativeReadLine ctx args) := by
  unfold nativeReadLine
  split
  · exact serves_gated (.map (serves_platform _))
  · exact serves_fault _

theorem serves_nativeReadByte : Answers ctx args (nativeReadByte ctx args) := by
  unfold nativeReadByte
  split
  · exact serves_gated (.map (serves_platform _))
  · exact serves_fault _

theorem serves_nativePresent : Answers ctx args (nativePresent ctx args) := by
  unfold nativePresent
  split
  · split
    · refine .bind (serves_lift _) fun _ _ => .bind (serves_lift _) fun _ _ => ?_
      exact serves_gated (.map (serves_platform _))
    · exact serves_fault _
  · exact serves_fault _
  · exact serves_fault _

theorem serves_nativeWriteConsole : Answers ctx args (nativeWriteConsole ctx args) := by
  unfold nativeWriteConsole
  split
  · exact serves_gated (.map (serves_platform _))
  · exact serves_fault _
  · exact serves_fault _

theorem serves_nativeFsWrite : Answers ctx args (nativeFsWrite ctx args) := by
  unfold nativeFsWrite
  split
  · refine serves_gated ?_
    split
    · exact .map (serves_platform _)
    · exact serves_fault _
  · exact serves_fault _
  · exact serves_fault _
  · exact serves_fault _

theorem serves_nativeReadFile : Answers ctx args (nativeReadFile ctx args) := by
  unfold nativeReadFile
  split
  · exact serves_gated (.map (serves_platform _))
  · exact serves_fault _
  · exact serves_fault _

theorem serves_nativeEmit : Answers ctx args (nativeEmit ctx args) := by
  unfold nativeEmit
  split
  · exact serves_gated (.map (serves_record _))
  · exact serves_fault _
  · exact serves_fault _

theorem serves_nativeHold : Serves Q ctx (nativeHold args) := by
  unfold nativeHold
  split
  · exact .map (serves_platform _)
  · exact serves_fault _

theorem serves_nativeRevoke : Serves Q ctx (nativeRevoke args) := by
  unfold nativeRevoke
  split
  · split
    · refine .bind (serves_platform _) fun count _ => ?_
      split
      · exact serves_pure _
      · exact serves_fault _
    · exact serves_fault _
  · exact serves_fault _

theorem serves_nativeGrant : Serves Q ctx (nativeGrant host args) := by
  unfold nativeGrant
  split
  · split
    · refine .bind (serves_platform _) fun new _ => ?_
      split
      · exact serves_pure _
      · exact serves_fault _
    · exact serves_fault _
    · exact serves_fault _
    · exact serves_fault _
  · exact serves_fault _

theorem serves_native (native : Native) : Answers ctx args (native.call host args ctx) := by
  cases native with
  | map => exact serves_nativeMap ctx args
  | filter => exact serves_nativeFilter ctx args
  | fold => exact serves_nativeFold ctx args
  | print => exact serves_nativePrint ctx args
  | readLine => exact serves_nativeReadLine ctx args
  | hold => exact serves_nativeHold ctx args
  | revoke => exact serves_nativeRevoke ctx args
  | grant => exact serves_nativeGrant ctx args
  | readFile => exact serves_nativeReadFile ctx args
  | readByte => exact serves_nativeReadByte ctx args
  | writeConsole => exact serves_nativeWriteConsole ctx args
  | fsWrite => exact serves_nativeFsWrite ctx args
  | emit => exact serves_nativeEmit ctx args
  | present => exact serves_nativePresent ctx args
  | span => exact serves_nativeSpan ctx args
  | toList =>
    change Serves _ _ (nativeToList args)
    unfold nativeToList
    split
    · exact serves_call trivial
    · exact serves_fault _
  | take | drop => exact serves_countedSeq _ _ args
  | takeWhile | dropWhile => exact serves_whileSeq _ _ args
  | foldWhile => exact serves_nativeFoldWhile ctx args
  | flatMap => exact serves_nativeFlatMap ctx args
  | sortBy => exact serves_nativeSortBy ctx args
  | iterate =>
    change Serves _ _ (nativeIterate ctx args)
    unfold nativeIterate
    split
    · exact serves_lazy _
    · exact serves_fault _
  | repeat_ =>
    change Serves _ _ (nativeRepeat args)
    unfold nativeRepeat
    split
    · exact serves_lazy _
    · exact serves_fault _
  | mapMapValues => exact serves_nativeMapMapValues ctx args
  | mapUpdate => exact serves_nativeMapUpdate ctx args
  | _ => exact serves_lift _

/-! ### Lazy sequences -/

theorem serves_forceSeq (seq : Value) : Serves Lazy ctx (forceSeq seq) := by
  unfold forceSeq
  split
  · exact serves_call (c := .force _) trivial
  · exact serves_fault _

theorem serves_runThunk (thunk : Thunk) : Serves Lazy ctx (runThunk host thunk) := by
  unfold runThunk
  split
  · split
    · exact serves_pure _
    refine .bind (A := Any) ?_ fun next _ => .map (serves_lazy _)
    unfold checked
    split
    · exact serves_pure _
    · exact .throw trivial
  · exact .map (serves_lazy _)
  · exact .bind (serves_apply trivial) fun _ _ => .bind (serves_lazy _) fun _ _ => serves_forceSeq _ _
  · exact .map (serves_lazy _)
  · split
    · exact serves_pure _
    split
    · refine .bind (serves_call (c := .force _) trivial) fun step _ => ?_
      cases step with
      | nil => exact serves_pure _
      | cons head tail => exact .map (serves_lazy _)
    · exact serves_pure _
  · exact serves_call (c := .dropSeq _ _) trivial
  · exact serves_call (c := .dropWhileSeq _ _ _) trivial
  · refine .bind (serves_forceSeq _ _) fun step _ => ?_
    split
    · exact serves_pure _
    refine .bind (serves_keeps trivial) fun keep _ => ?_
    split
    · exact .map (serves_lazy _)
    · exact serves_pure _
  · refine .bind (serves_forceSeq _ _) fun step _ => ?_
    split
    · exact serves_pure _
    · exact .bind (serves_apply trivial) fun _ _ => .map (serves_lazy _)
  · exact serves_call (c := .filterSeq _ _ _) trivial

theorem serves_toListBody (current : Value) (items : List Value) : Serves Lazy ctx (toListBody current items) := by
  unfold toListBody
  split
  · refine .bind (serves_call (c := .force _) trivial) fun step _ => ?_
    cases step with
    | nil => exact serves_pure _
    | cons head tail => exact serves_call (c := .toList _ _) trivial
  · exact serves_fault _

theorem serves_foldSeqBody (current acc f : Value) (ctx' : Ctx) : Serves Lazy ctx (foldSeqBody current acc f ctx') := by
  refine .bind (serves_forceSeq _ _) fun step _ => ?_
  split
  · exact serves_pure _
  · exact .bind (serves_apply trivial) fun _ _ => serves_call (c := .foldSeq _ _ _ _) trivial

theorem serves_foldWhileSeqBody (current acc f : Value) (ctx' : Ctx) : Serves Lazy ctx (foldWhileSeqBody current acc f ctx') := by
  refine .bind (serves_forceSeq _ _) fun step _ => ?_
  split
  · exact serves_pure _
  refine .bind (serves_foldWhileStep trivial) fun next _ => ?_
  split
  · exact serves_call (c := .foldWhileSeq _ _ _ _) trivial
  · exact serves_pure _

theorem serves_dropSeqBody (n : Int) (current : Value) : Serves Lazy ctx (dropSeqBody n current) := by
  unfold dropSeqBody
  split
  · refine .bind (serves_forceSeq _ _) fun step _ => ?_
    split
    · exact serves_pure _
    · exact serves_call (c := .dropSeq _ _) trivial
  · exact serves_forceSeq _ _

theorem serves_dropWhileSeqBody (current pred : Value) (ctx' : Ctx) : Serves Lazy ctx (dropWhileSeqBody current pred ctx') := by
  refine .bind (serves_forceSeq _ _) fun step _ => ?_
  split
  · exact serves_pure _
  refine .bind (serves_keeps trivial) fun keep _ => ?_
  split
  · exact serves_call (c := .dropWhileSeq _ _ _) trivial
  · exact serves_pure _

theorem serves_filterSeqBody (current pred : Value) (ctx' : Ctx) : Serves Lazy ctx (filterSeqBody current pred ctx') := by
  refine .bind (serves_forceSeq _ _) fun step _ => ?_
  split
  · exact serves_pure _
  refine .bind (serves_keeps trivial) fun keep _ => ?_
  split
  · exact .map (serves_lazy _)
  · exact serves_call (c := .filterSeq _ _ _) trivial

end Natives

/-! ### All procedures but one -/

/-- Neither entering nor leaving a call. -/
def WorldOp.Quiet : WorldOp → Prop
  | .enterCall _ _ | .leaveCall _ => False
  | _ => True

def EvalCall.isBody : EvalCall → Bool
  | .body _ _ => true
  | _ => false

def EvalCall.isLoop : EvalCall → Bool
  | .loop _ _ _ => true
  | _ => false

section Quiet

variable {ctx : Ctx}

theorem WorldOp.Plain.quiet {o : WorldOp} (h : o.Plain ctx) : o.Quiet := by
  cases o <;> trivial

theorem EvalCall.Under.not_body (h : c.Under tail ctx) : c.isBody = false := by
  cases c <;> first | rfl | exact h.elim

theorem EvalCall.Native.not_body (h : c.Native ctx arity) : c.isBody = false := by
  cases c <;> first | rfl | exact h.elim

theorem EvalCall.Lazy.not_body (h : c.Lazy) : c.isBody = false := by
  cases c <;> first | rfl | exact h.elim

abbrev Quietly {α : Type} (p : Eval α) : Prop := p.Uses WorldOp.Quiet fun c : EvalCall => c.isBody = false

variable {α : Type} {p : Eval α}

theorem Stays.quietly {A : α → Prop} (h : Stays tail ctx A p) : Quietly p :=
  h.uses.mono (fun _ => WorldOp.Plain.quiet) fun _ => EvalCall.Under.not_body

theorem Serves.quietly {Q : EvalCall → Prop} (hQ : ∀ c, Q c → c.isBody = false) (h : Serves Q ctx p) : Quietly p :=
  h.uses.mono (fun _ => WorldOp.Plain.quiet) hQ

end Quiet

/-- Frames are the business of the loop that applies a function, and only it runs a function's body. -/
theorem bodies_quietly (host : Host) (mode : Mode) (c : EvalCall) (h : c.isLoop = false) : Quietly (bodies host mode c) := by
  cases c with
  | main ctx => exact (stays_callMain ctx).quietly
  | eval e env =>
    refine ⟨trivial, fun fuelled => ?_⟩
    cases fuelled with
    | false => trivial
    | true => exact (stays_evalKind env e.kind).quietly
  | evalTail e env => exact (stays_evalTailDispatch mode e env).quietly
  | body c env => exact (stays_evalTailDispatch mode c.body env).quietly
  | method body env =>
    change Quietly (methodBody body env)
    unfold methodBody
    split
    · trivial
    · exact ⟨rfl, fun _ => trivial⟩
  | apply callee args ctx =>
    change Quietly (applyValues host callee args ctx)
    unfold applyValues
    split
    · split
      · trivial
      · exact ⟨rfl, fun _ => trivial⟩
    · split
      · trivial
      · exact (serves_native ctx args _).quietly fun _ => EvalCall.Native.not_body
    · trivial
    · trivial
  | loop c args ctx => exact nomatch h
  | stage name input ctx =>
    refine Prog.Uses.bind ⟨trivial, fun _ => trivial⟩ fun main => ?_
    cases main with
    | none => trivial
    | some main => exact ⟨rfl, fun _ => ⟨trivial, fun _ => trivial⟩⟩
  | assign place value env => exact (stays_assignBody place value env).quietly
  | force a =>
    refine Prog.Uses.bind ⟨trivial, fun _ => trivial⟩ fun state => ?_
    cases state with
    | forced step => trivial
    | unforced thunk =>
      refine .bind (Serves.quietly (fun _ => Lazy.not_body) (serves_runThunk ⟨0, 0, [], []⟩ thunk)) fun _ => ?_
      exact ⟨trivial, fun _ => trivial⟩
  | toList current items =>
    exact (serves_toListBody ⟨0, 0, [], []⟩ current items).quietly fun _ => Lazy.not_body
  | foldSeq current acc f ctx => exact (serves_foldSeqBody ctx current acc f ctx).quietly fun _ => Lazy.not_body
  | foldWhileSeq current acc f ctx =>
    exact (serves_foldWhileSeqBody ctx current acc f ctx).quietly fun _ => Lazy.not_body
  | dropSeq n current =>
    exact (serves_dropSeqBody ⟨0, 0, [], []⟩ n current).quietly fun _ => Lazy.not_body
  | dropWhileSeq current pred ctx =>
    exact (serves_dropWhileSeqBody ctx current pred ctx).quietly fun _ => Lazy.not_body
  | filterSeq current pred ctx =>
    exact (serves_filterSeqBody ctx current pred ctx).quietly fun _ => Lazy.not_body

theorem callEnv_straight (c : ClosureData) (args : List Value) (ctx : Ctx) :
    (callEnv c args ctx).Straight WorldOp.Quiet (fun _ => False) (fun _ => False) fun env => env.ctx.program = ctx.program := by
  have hextend : ∀ (bindings : List (String × Value)) (env : Env), env.ctx.program = ctx.program →
      (env.extendAll bindings).Straight WorldOp.Quiet (fun _ => False) (fun _ => False)
        fun env => env.ctx.program = ctx.program := by
    intro bindings
    induction bindings with
    | nil => exact fun _ h => .pure h
    | cons binding bindings ih =>
      exact fun env h => .bind (.bind (.perform trivial fun _ => trivial) fun _ _ => .pure h) ih
  refine .bind (A := Any) (.perform trivial fun _ => trivial) fun home _ => ?_
  exact .bind (hextend _ _ rfl) fun env h => .pure h

theorem nextRound_uses (c : ClosureData) (ctx : Ctx) (result : Except Signal Value) :
    (nextRound c ctx result).Uses WorldOp.Quiet fun c : EvalCall => c.isLoop = true := by
  obtain (f | v | next | _) | v := result
  · exact trivial
  · exact trivial
  · exact ⟨rfl, fun _ => trivial⟩
  · exact trivial
  · exact trivial

/-! ### At any depth -/

section Limit

variable {π : Platform} (setting : Setting) (mode : Mode)

/-- What a procedure does, at whatever depth. -/
noncomputable abbrev evalLimit : Meaning evalInterface Signal (World π) :=
  limit (World.handle setting) (bodies setting.host mode)

theorem evalLimit_eq (c : EvalCall) (w : World π) : evalLimit setting mode c w =
      run (World.handle setting) (evalLimit setting mode) (bodies setting.host mode c) w := limit_eq _ _

/-- The calls that are pending at some moment of the run of a procedure. -/
abbrev EvalPending : EvalCall → World π → List EvalCall → World π → Prop :=
  Pending (J := evalInterface) (World.handle setting) (bodies setting.host mode)

/-- Run the program up to a stack of pending calls. -/
def seekMain (stop : List EvalCall → Bool) (depth : Nat) (items : List Item) (fuel : Nat) (platform : π.State) :
    Option (List EvalCall × World π) :=
  match startProgram items fuel platform with
  | none => none
  | some (ctx, w) =>
    match seek (J := evalInterface) (World.handle setting) (bodies setting.host mode) stop depth [] (main ctx) w with
    | .stack cs w => some (cs, w)
    | _ => none

theorem pending_of_seekMain {platform : π.State} {cs : List EvalCall} {w : World π}
    (h : seekMain setting mode stop depth items fuel platform = some (cs, w)) :
    ∃ ctx w₀, startProgram items fuel platform = some (ctx, w₀) ∧ EvalPending setting mode (.main ctx) w₀ cs w ∧
      stop cs = true := by
  unfold seekMain at h
  split at h
  · exact nomatch h
  rename_i ctx w₀ hstart
  split at h
  · rename_i cs' w' hseek
    obtain ⟨rfl, rfl⟩ := Prod.mk.inj (Option.some.inj h)
    exact ⟨ctx, w₀, hstart, seek_stack .start hseek⟩
  · exact nomatch h

end Limit

end SnitchOs.Stitch
