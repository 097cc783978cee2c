import SnitchOs.Stitch.World

/-!
# The procedures of the interpreter

Evaluation is a family of mutually recursive procedures over the world. `EvalCall` has one for every function of the
source that others reach recursively, and one for each loop of a native over a lazy sequence.
-/

namespace SnitchOs.Stitch

open Calls

inductive EvalCall
  /-- `main()`. -/
  | main (ctx : Ctx)
  | eval (e : CoreExpr) (env : Env)
  | evalTail (e : CoreExpr) (env : Env)
  /-- The body of an applied function. -/
  | body (c : ClosureData) (env : Env)
  /-- The body of a method. -/
  | method (body : Expr) (env : Env)
  | apply (callee : Value) (args : List Value) (ctx : Ctx)
  /-- A round of `apply_values`' loop. -/
  | loop (c : ClosureData) (args : List Value) (ctx : Ctx)
  /-- The `main` of a stage. -/
  | stage (name : String) (input : Value) (ctx : Ctx)
  | assign (place : CoreExpr) (value : Value) (env : Env)
  | force (a : Addr)
  | toList (current : Value) (items : List Value)
  | foldSeq (current acc f : Value) (ctx : Ctx)
  | foldWhileSeq (current acc f : Value) (ctx : Ctx)
  | dropSeq (n : Int) (current : Value)
  | dropWhileSeq (current pred : Value) (ctx : Ctx)
  | filterSeq (current pred : Value) (ctx : Ctx)

def EvalCall.Res : EvalCall → Type
  | .assign _ _ _ => Unit
  | .force _ | .dropSeq _ _ | .dropWhileSeq _ _ _ | .filterSeq _ _ _ => Step
  | _ => Value

abbrev evalInterface : Interface := ⟨EvalCall, EvalCall.Res⟩

abbrev Eval := Prog worldInterface evalInterface Signal

/-! ### The operations and the calls -/

namespace Eval

def alloc (v : Value) : Eval Addr := .op (WorldOp.alloc v) fun a => .done (.ok a)

def load (a : Addr) : Eval Value := .op (WorldOp.load a) fun v => .done (.ok v)

def store (a : Addr) (v : Value) : Eval Unit := .op (WorldOp.store a v) fun _ => .done (.ok ())

def lazy (thunk : Thunk) : Eval Value := .op (WorldOp.lazy thunk) fun a => .done (.ok (.seq a))

def seqState (a : Addr) : Eval SeqState := .op (WorldOp.peek a) fun s => .done (.ok s)

def memo (a : Addr) (step : Step) : Eval Unit := .op (WorldOp.memo a step) fun _ => .done (.ok ())

def freshId : Eval Nat := .op WorldOp.freshId fun id => .done (.ok id)

def takeFuel (program : Nat) : Eval Bool := .op (WorldOp.takeFuel program) fun b => .done (.ok b)

def enterCall (program : Nat) (limit : Option Nat) : Eval Bool :=
  .op (WorldOp.enterCall program limit) fun b => .done (.ok b)

def leaveCall (program : Nat) : Eval Unit := .op (WorldOp.leaveCall program) fun _ => .done (.ok ())

def global (table : Nat) (name : String) : Eval (Option Value) :=
  .op (WorldOp.global table name) fun v => .done (.ok v)

def hasMethods (program : Nat) (typeName : String) : Eval Bool :=
  .op (WorldOp.hasMethods program typeName) fun b => .done (.ok b)

def lookupMethod (program : Nat) (typeName name : String) : Eval (Option Method) :=
  .op (WorldOp.lookupMethod program typeName name) fun m => .done (.ok m)

def fieldMutability (program : Nat) (variant field : String) : Eval (Option Bool) :=
  .op (WorldOp.fieldMutability program variant field) fun b => .done (.ok b)

def moduleHandle (id : Nat) : Eval ModuleHandle := .op (WorldOp.moduleHandle id) fun h => .done (.ok h)

def upgrade (table : Nat) : Eval Bool := .op (WorldOp.upgrade table) fun b => .done (.ok b)

def record (event : TelemetryEvent) : Eval Unit := .op (WorldOp.span event) fun _ => .done (.ok ())

def platform (o : PlatformOp) : Eval o.Res := .op (WorldOp.platform o) fun r => .done (.ok r)

def build (items : List Item) : Eval (Option Ctx) := .op (WorldOp.build items) fun ctx => .done (.ok ctx)

def finish (table : Nat) : Eval Unit := .op (WorldOp.finish table) fun _ => .done (.ok ())

def eval (e : CoreExpr) (env : Env) : Eval Value := .call (EvalCall.eval e env) .done

def evalTail (e : CoreExpr) (env : Env) : Eval Value := .call (EvalCall.evalTail e env) .done

def apply (callee : Value) (args : List Value) (ctx : Ctx) : Eval Value := .call (EvalCall.apply callee args ctx) .done

def force (a : Addr) : Eval Step := .call (EvalCall.force a) .done

def fault {α : Type} (f : Fault) : Eval α := throw (.fault f)

def faultWith {α : Type} (text : String) : Eval α := fault (.other text)

def lift {α : Type} (r : Except Failure α) : Eval α := .done (r.mapError Failure.signal)

section Lists

variable {α β : Type}

/-- The results of all, in order. -/
def collect (f : α → Eval β) : List α → Eval (List β)
  | [] => pure []
  | x :: xs => do
    let y ← f x
    let ys ← collect f xs
    pure (y :: ys)

/-- Left to right. -/
def foldUp (f : β → α → Eval β) : β → List α → Eval β
  | acc, [] => pure acc
  | acc, x :: xs => do
    let acc ← f acc x
    foldUp f acc xs

end Lists

end Eval

/-! ### Environments in the world -/

open Eval

namespace Env

def bind (env : Env) (name : String) (value : Value) (mutable : Bool) : Eval Env := do
  let cell ← alloc value
  pure { env with locals := (name, cell, mutable) :: env.locals }

def extend (env : Env) (name : String) (value : Value) : Eval Env := env.bind name value false

/-- One after the other, the last innermost. -/
def extendAll (env : Env) (bindings : List (String × Value)) : Eval Env :=
  foldUp (fun env binding => env.extend binding.1 binding.2) env bindings

def lookup (env : Env) (name : String) : Eval (Option Value) :=
  match env.lookupLocalCell name with
  | some (cell, _) => do
    let value ← load cell
    pure (some value)
  | none => global env.ctx.globals name

def assign (env : Env) (name : String) (value : Value) : Eval Unit :=
  match env.lookupLocalCell name with
  | none => faultWith ("cannot assign to undefined variable `" ++ name ++ "`")
  | some (_, false) => faultWith ("cannot assign to immutable `" ++ name ++ "` (declare it with `let mut`)")
  | some (cell, true) => store cell value

end Env

def Ctx.globalsOnly (ctx : Ctx) : Env := ⟨[], ctx, none⟩

end SnitchOs.Stitch
