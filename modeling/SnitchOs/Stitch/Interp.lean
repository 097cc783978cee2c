import SnitchOs.Stitch.Bridge
import SnitchOs.Stitch.Natives

/-!
# The interpreter

The bodies of the procedures, and the entries of the evaluator. A fault, a `?` that returns early and a self-tail-call
all leave as a `Signal`; the activation of a function takes the last two. `Mode.source` is the evaluator as it is;
`Mode.direct` applies a function that calls itself in tail position like any other, to any depth.
-/

namespace SnitchOs.Stitch

open Calls Eval

/-! ### Free variables -/

section FreeVars

mutual

def patternBindings : Pattern → List String
  | .binding name => [name]
  | .constructor _ args => patternsBindings args
  | .tuple pats => patternsBindings pats
  | .or alts => patternsBindings alts
  | _ => []
termination_by structural p => p

def patternsBindings : List Pattern → List String
  | [] => []
  | p :: ps => patternBindings p ++ patternsBindings ps
termination_by structural ps => ps

end

/-- The names free in a child, given those bound around it. -/
abbrev Free := CoreExpr × (List String → List String)

def freeInArm (bound : List String) (arm : MatchArmOf Free) : List String :=
  let inner := patternBindings arm.pattern ++ bound
  (arm.guard.map fun guard => guard.2 inner).getD [] ++ arm.body.2 inner

/-- Statement by statement: a `let` binds in those behind it. -/
def freeInBlock (bound : List String) : List (CoreStmtOf Free) → Option Free → List String
  | [], result => (result.map fun e => e.2 bound).getD []
  | .let_ name _ value :: stmts, result => value.2 bound ++ freeInBlock (name :: bound) stmts result
  | .assign target value :: stmts, result => target.2 bound ++ value.2 bound ++ freeInBlock bound stmts result
  | .expr e :: stmts, result => e.2 bound ++ freeInBlock bound stmts result

def freeInKind (k : CoreExprKind Free) (bound : List String) : List String :=
  match k with
  | .var name => if bound.contains name then [] else [name]
  | .lambda params body => body.2 (params ++ bound)
  | .block stmts result => freeInBlock bound stmts result
  | .match_ subject arms => subject.2 bound ++ arms.flatMap (freeInArm bound)
  | .handle _ handler body => handler.2 bound ++ body.2 bound
  | .without _ body => body.2 bound
  | .binary _ left right => left.2 bound ++ right.2 bound
  | .unary _ operand => operand.2 bound
  | .try_ operand => operand.2 bound
  | .spread operand => operand.2 bound
  | .call callee args => callee.2 bound ++ args.flatMap fun arg => arg.value.2 bound
  | .field object _ => object.2 bound
  | .safeField object _ => object.2 bound
  | .index object i => object.2 bound ++ i.2 bound
  | .range start stop _ => ((start.map fun e => e.2 bound).getD []) ++ ((stop.map fun e => e.2 bound).getD [])
  | .if_ cond then_ els => cond.2 bound ++ then_.2 bound ++ els.2 bound
  | .expect e => e.2 bound
  | .tuple elems => elems.flatMap fun e => e.2 bound
  | .list elems => elems.flatMap fun e => e.2 bound
  | .map entries => entries.flatMap fun entry => entry.1.2 bound ++ entry.2.2 bound
  | .str segments => (segments.flatMap StrSegmentOf.children).flatMap fun e => e.2 bound
  | .int _ | .float _ | .bool _ | .selfRef => []

/-- The free names of a core expression, for a lambda to capture. The receiver `@` is not among them. -/
def freeVarsCore (e : CoreExpr) (bound : List String) : List String := CoreExpr.fold freeInKind e bound

end FreeVars

/-! ### Patterns -/

section Patterns

variable (host : Host)

mutual

/-- What the pattern binds, in order. -/
def tryMatch : Pattern → Value → Option (List (String × Value))
  | .wildcard, _ => some []
  | .binding name, value => some [(name, value)]
  | .int n, value => if value.eq host (.int n) then some [] else none
  | .float text, value => if value.eq host (.float (host.floatOfText text)) then some [] else none
  | .bool b, value => if value.eq host (.bool b) then some [] else none
  | .str text, value =>
    match value with
    | .str s => if s = text then some [] else none
    | _ => none
  | .constructor name args, value =>
    match value with
    | .data _ variant fields _ =>
      if variant ≠ name ∨ fields.length ≠ args.length then none else tryMatchAll args (fields.map Prod.snd)
    | _ => none
  | .or alts, value => tryMatchAny alts value
  | .tuple [], value =>
    match value with
    | .unit => some []
    | _ => none
  | .tuple pats, value =>
    match value with
    | .tuple elems => if elems.length ≠ pats.length then none else tryMatchAll pats elems
    | _ => none
termination_by structural p => p

def tryMatchAll : List Pattern → List Value → Option (List (String × Value))
  | p :: ps, v :: vs => do
    let bound ← tryMatch p v
    let rest ← tryMatchAll ps vs
    some (bound ++ rest)
  | _, _ => some []
termination_by structural ps => ps

def tryMatchAny : List Pattern → Value → Option (List (String × Value))
  | [], _ => none
  | p :: ps, v => (tryMatch p v).orElse fun _ => tryMatchAny ps v
termination_by structural ps => ps

end

end Patterns

/-! ### Places -/

def isPlaceKind : CoreExprKind (CoreExpr × Bool) → Bool
  | .var _ | .selfRef => true
  | .field object _ => object.2
  | _ => false

def isAssignablePlace : CoreExpr → Bool := CoreExpr.fold isPlaceKind

/-! ### Evaluation -/

structure Mode where
  trampoline : Bool
  limit : Option Nat

namespace Mode

def source : Mode := ⟨true, some maxCallDepth⟩

def direct : Mode := ⟨false, none⟩

end Mode

section Evaluator

variable (host : Host) (mode : Mode)

def isSpread (e : CoreExpr) : Bool :=
  match e.kind with
  | .spread _ => true
  | _ => false

def evalArgs (env : Env) : List CoreArg → Eval (List Value)
  | [] => pure []
  | arg :: args =>
    if arg.label.isSome then fault .namedArgument
    else if isSpread arg.value then fault .spreadArgument
    else do
      let value ← eval arg.value env
      let values ← evalArgs env args
      pure (value :: values)

/-- The fields of a spread record in front of the slots. -/
def overlay : List (Option Value) → List (Option String × Value) → List (Option Value)
  | _ :: slots, field :: fields => some field.2 :: overlay slots fields
  | slots, _ => slots

/-- The field of an argument, and the one the next without a label is for. -/
def slotOf (ctor : Constructor) (label : Option String) (next : Nat) : Except Failure (Nat × Nat) :=
  match label with
  | some label =>
    match ctor.fieldNames.findIdx? fun name => name == some label with
    | some index => .ok (index, next)
    | none => faultText (ctor.typeName ++ " has no field `" ++ label ++ "`")
  | none => .ok (next, next + 1)

/-- The slots of the fields, filled by the arguments from the left. -/
def constructArgs (ctor : Constructor) (env : Env) :
    List CoreArg → (next : Nat) → List (Option Value) → Eval (List (Option Value))
  | [], _, slots => pure slots
  | arg :: args, next, slots =>
    match arg.value.kind with
    | .spread base => do
      let base ← eval base env
      match base with
      | .data typeName _ fields _ =>
        if typeName ≠ ctor.typeName then
          faultWith ("cannot spread a " ++ typeName ++ " into " ++ ctor.typeName)
        else constructArgs ctor env args next (overlay slots fields)
      | other => faultWith ("can only spread a record, not " ++ other.kind)
    | _ => do
      let (index, next) ← lift (slotOf ctor arg.label next)
      if index < slots.length then
        let value ← eval arg.value env
        constructArgs ctor env args next (slots.set index (some value))
      else
        faultWith (ctor.variant ++ " expects " ++ toString ctor.fieldNames.length ++ " field(s), got more")

/-- The slots, none of them empty. -/
def filledSlots (typeName : String) : List (Option String) → List (Option Value) → Except Failure (List Value)
  | _ :: names, some value :: slots => do
    let values ← filledSlots typeName names slots
    pure (value :: values)
  | name :: _, none :: _ => faultText (typeName ++ " is missing field `" ++ name.getD "?" ++ "`")
  | _, _ => .ok []

def construct (ctor : Constructor) (args : List CoreArg) (env : Env) : Eval Value := do
  let slots ← constructArgs ctor env args 0 (List.replicate ctor.fieldNames.length none)
  let values ← lift (filledSlots ctor.typeName ctor.fieldNames slots)
  lift (makeData ctor values)

def evalCall (callee : Value) (args : List CoreArg) (env : Env) : Eval Value :=
  match callee with
  | .constructor ctor => construct ctor args env
  | _ => do
    let values ← evalArgs env args
    apply callee values env.ctx

def evalString (env : Env) : List CoreStrSegment → (text : String) → Eval Value
  | [], text => pure (.str text)
  | .lit literal :: segments, text => evalString env segments (text ++ literal)
  | .interp e :: segments, text => do
    let value ← eval e env
    evalString env segments (text ++ value.display host)

/-- Member of a module, or field of a record. -/
def evalField (object : Value) (name : String) : Eval Value :=
  match object with
  | .module id _ => do
    let handle ← moduleHandle id
    match handle.member name with
    | some value => pure value
    | none => fault (handle.accessError name)
  | .data typeName _ fields _ =>
    match (fields.find? fun field => field.1 == some name).map Prod.snd with
    | some value => pure value
    | none => faultWith (typeName ++ " has no field `" ++ name ++ "`")
  | other => faultWith ("cannot read field `" ++ name ++ "` on " ++ other.kind)

/-- A method's environment: the globals of where it is called, its receiver, and exactly the authority it declares. -/
def methodEnv (self : Option Value) (mutable : Bool) (ctx : Ctx) : Eval Env := do
  let env := ctx.globalsOnly
  match self with
  | some receiver => env.bind "@" receiver mutable
  | none => pure env

def withUses (env : Env) (uses : List String) : Env := { env with ctx := { env.ctx with authority := uses } }

/-- Bind each parameter to its argument, evaluated in the caller's environment. -/
def bindParams (env : Env) : List Param → List CoreArg → Env → Eval Env
  | param :: params, arg :: args, inner => do
    let value ← eval arg.value env
    let inner ← inner.extend param.name value
    bindParams env params args inner
  | _, _, inner => pure inner

def runMethod (body : Expr) (env : Env) : Eval Value := Prog.call (EvalCall.method body env) Prog.done

/-- At a call boundary an early return is the result. -/
def returned : Except Signal Value → Except Signal Value
  | .error (.return_ value) => .ok value
  | result => result

def methodBody (body : Expr) (env : Env) : Eval Value :=
  match lowerExprToCore body with
  | none => throw .panic
  | some core =>
    Prog.call (EvalCall.eval core env) fun result => .done (returned result)

/-- What a method call is dispatched on. -/
inductive Receiver
  | type (typeName : String) (self : Option Value)
  | member (value : Value)

/-- A bare name without a value may be a type with methods. -/
def typePath (object : CoreExpr) (env : Env) : Eval (Option String) :=
  match object.kind with
  | .var path => do
    let value ← env.lookup path
    let known ← hasMethods env.ctx.program path
    pure (if value.isNone && known then some path else none)
  | _ => pure none

def receiver (object : CoreExpr) (name : String) (env : Env) : Eval Receiver := do
  match ← typePath object env with
  | some path => pure (.type path none)
  | none => do
    let value ← eval object env
    match value with
    | .data typeName _ _ _ => pure (.type typeName (some value))
    | .constructor ctor => pure (.type ctor.typeName none)
    | .module id _ => do
      let handle ← moduleHandle id
      match handle.member name with
      | some member => pure (.member member)
      | none => fault (handle.accessError name)
    | other => faultWith ("cannot call method `" ++ name ++ "` on " ++ other.kind)

def fieldValue (object : Value) (name : String) : Option Value :=
  match object with
  | .data _ _ fields _ => (fields.find? fun field => field.1 == some name).map Prod.snd
  | _ => none

/-- The arguments of a field that is called; labels are not looked at. -/
def evalAllArgs (env : Env) (args : List CoreArg) : Eval (List Value) := collect (fun arg => eval arg.value env) args

def assignPlace (place : CoreExpr) (value : Value) (env : Env) : Eval Unit :=
  Prog.call (EvalCall.assign place value env) Prog.done

def callMethod (method : Method) (object : CoreExpr) (typeName name : String) (self : Option Value)
    (args : List CoreArg) (env : Env) : Eval Value := do
  if method.modifier = .free && self.isSome then
    faultWith ("free method `" ++ name ++ "` is called on the type `" ++ typeName ++ "`, not an instance")
  else if method.modifier ≠ .free && self.isNone then
    faultWith ("method `" ++ name ++ "` needs an instance receiver — call it on a value")
  else if args.length ≠ method.params.length then
    faultWith ("method `" ++ name ++ "` expects " ++ toString method.params.length ++ " argument(s), got " ++
      toString args.length)
  else if method.modifier = .mut_ && !isAssignablePlace object then
    faultWith ("cannot call mut method `" ++ name ++ "` on a temporary — it has no place to write back to")
  else do
    let inner ← methodEnv self (method.modifier = .mut_) env.ctx
    let inner ← bindParams env method.params args inner
    let inner := withUses inner method.uses
    match method.body with
    | none => throw .panic
    | some body => do
      let result ← runMethod body inner
      if method.modifier = .mut_ then
        match ← inner.lookup "@" with
        | some mutated => assignPlace object mutated env
        | none => throw .panic
      pure result

def evalMethodCall (object : CoreExpr) (name : String) (args : List CoreArg) (env : Env) : Eval Value := do
  match ← receiver object name env with
  | .member member => evalCall member args env
  | .type typeName self =>
    match ← lookupMethod env.ctx.program typeName name with
    | some method => callMethod method object typeName name self args env
    | none =>
      match self.bind fun receiver => fieldValue receiver name with
      | some field => do
        let values ← evalAllArgs env args
        apply field values env.ctx
      | none => faultWith (typeName ++ " has no method `" ++ name ++ "`")

/-- An instance method on an evaluated receiver; `none` if its type has no such method. -/
def callInstanceMethod (receiver : Value) (name : String) (args : List Value) (env : Env) : Eval (Option Value) :=
  match receiver with
  | .data typeName _ _ _ => do
    match ← lookupMethod env.ctx.program typeName name with
    | none => pure none
    | some method =>
      match method.body with
      | none => pure none
      | some body => do
        let inner ← env.ctx.globalsOnly.extend "@" receiver
        let inner ← inner.extendAll ((method.params.map Param.name).zip args)
        let result ← runMethod body (withUses inner method.uses)
        pure (some result)
  | _ => pure none

def evalTry (value : Value) (env : Env) : Eval Value := do
  match ← callInstanceMethod value "isFailure" [] env with
  | none => faultWith ("`?` expects a value implementing `Try` (e.g. Maybe/Result), got " ++ value.kind)
  | some (.bool true) => throw (.return_ value)
  | some (.bool false) =>
    match ← callInstanceMethod value "unwrap" [] env with
    | some payload => pure payload
    | none => faultWith "`Try` value implements isFailure but not unwrap"
  | some other => faultWith ("`Try.isFailure` must return a Bool, got " ++ other.kind)

def evalSafeField (object : Value) (name : String) (env : Env) : Eval Value := do
  let id ← freshId
  let accessor := .closure ⟨id, ["v"], ⟨.field ⟨.var "v"⟩ name⟩, [], env.ctx.globals, env.ctx.authority, none⟩
  match ← callInstanceMethod object "map" [accessor] env with
  | some value => pure value
  | none => faultWith ("`?.` expects a value implementing `Functor` (e.g. Maybe/Result), got " ++ object.kind)

def pipedArgs (env : Env) : List CoreArg → Eval (List Value)
  | [] => pure []
  | arg :: args =>
    if arg.label.isSome || isSpread arg.value then faultWith "a piped call takes positional arguments only"
    else do
      let value ← eval arg.value env
      let values ← pipedArgs env args
      pure (value :: values)

/-- `left |> f(a)` is `f(left, a)`, anything else on the right is applied to `left` alone. -/
def evalPipe (left right : CoreExpr) (env : Env) : Eval Value := do
  let piped ← eval left env
  match right.kind with
  | .call callee args => do
    let function ← eval callee env
    let values ← pipedArgs env args
    apply function (piped :: values) env.ctx
  | _ => do
    let function ← eval right env
    apply function [piped] env.ctx

def stageName (e : CoreExpr) : Except Failure String :=
  match e.kind with
  | .var name => .ok name
  | _ => faultText "the right side of `~>` must be a program name"

/-- The stage's program, from the file of its name, and its interface. -/
def resolveStage (name : String) : Eval (List Item × Hitch.Manifest) := do
  let source : Option String ← platform (.fsRead (name ++ ".st"))
  match source with
  | none => faultWith ("no such stage `" ++ name ++ "`")
  | some source =>
    match parseProgram source with
    | .error e => faultWith ("stage `" ++ name ++ "` does not parse: " ++ host.messageText e.message)
    | .ok items => do
      let manifest ← lift (manifestOfMain items)
      pure (items, manifest)

/-- If the input is itself piped from a stage, that stage's output has to fit. -/
def checkUpstream (left : CoreExpr) (name : String) (input : Hitch.TypeSchema) : Eval Unit :=
  match left.kind with
  | .binary .crossPipe _ upstream => do
    let upstreamName ← lift (stageName upstream)
    let (_, manifest) ← resolveStage host upstreamName
    match manifest.output with
    | none => faultWith ("pipeline: stage `" ++ upstreamName ++ "` has no output type to pipe from")
    | some output =>
      if output.compatible input then pure ()
      else
        faultWith ("pipeline: stage `" ++ upstreamName ++ "`'s output is not compatible with stage `" ++ name ++
          "`'s input")
  | _ => pure ()

/-- In an environment of its own, with the ambient authority. -/
def runStage (name : String) (items : List Item) (input : Value) : Eval Value := do
  match ← build items with
  | none => throw .panic
  | some ctx => Prog.call (EvalCall.stage name input ctx) Prog.done

def stageMain (name : String) (input : Value) (ctx : Ctx) : Option Value → Eval Value
  | none => faultWith ("stage `" ++ name ++ "` has no `main`")
  | some main =>
    Prog.call (EvalCall.apply main [input] ctx) fun result => do
      finish ctx.globals
      .done result

def stageBody (name : String) (input : Value) (ctx : Ctx) : Eval Value := do
  let main ← global ctx.globals "main"
  stageMain name input ctx main

def evalCrossPipe (left right : CoreExpr) (env : Env) : Eval Value := do
  let name ← lift (stageName right)
  let (items, manifest) ← resolveStage host name
  match manifest.input with
  | none => faultWith ("stage `" ++ name ++ "` is a source — it takes no input")
  | some schema => do
    checkUpstream host left name schema
    let input ← eval left env
    let hitched ← lift (toHitch input)
    if schema.accepts hitched then runStage name items input
    else faultWith ("stage `" ++ name ++ "` expects a different input type")

/-- A comparison is evaluated by its operands, so that a failure can show both. -/
def evalExpect (asserted : CoreExpr) (env : Env) : Eval Value := do
  let whole : Eval Value := do
    let value ← eval asserted env
    let holds ← lift (asBool value "`expect`")
    if holds then pure .unit else faultWith "expect failed"
  match asserted.kind with
  | .binary op left right =>
    if op.isComparison then
      let left ← eval left env
      let right ← eval right env
      let outcome ← lift (evalBinary host op left right)
      let holds ← lift (asBool outcome "`expect`")
      if holds then pure .unit
      else faultWith ("expect failed: " ++ host.render left ++ " " ++ op.spelling ++ " " ++ host.render right)
    else whole
  | _ => whole

/-- The last value of a key counts, at the key's first place. -/
def evalEntries (env : Env) : List (CoreExpr × CoreExpr) → List (Value × Value) → Eval Value
  | [], entries => pure (.map entries)
  | (keyExpr, valueExpr) :: rest, entries => do
    let key ← eval keyExpr env
    let value ← eval valueExpr env
    evalEntries env rest (insertEntry host key value entries)

def evalInt (e : CoreExpr) (env : Env) (what : String) : Eval Int := do
  let value ← eval e env
  match value with
  | .int n => pure n
  | other => faultWith (what ++ " must be an Int, got " ++ other.kind)

def evalStop (stop : Option CoreExpr) (env : Env) : Eval (Option Int) :=
  match stop with
  | none => pure none
  | some stop => do
    let stop ← evalInt stop env "range end"
    pure (some stop)

def evalRange (start stop : Option CoreExpr) (inclusive : Bool) (env : Env) : Eval Value :=
  match start with
  | none => faultWith "a range needs a start to be a sequence"
  | some start => do
    let start ← evalInt start env "range start"
    let stop ← evalStop stop env
    lazy (.range start stop inclusive)

/-- The local bindings of the free names, by their cells. -/
def capture (env : Env) (params : List String) (body : CoreExpr) : List (String × Addr × Bool) :=
  (freeVarsCore body params).eraseDups.filterMap fun name => (env.lookupLocalCell name).map fun cell => (name, cell)

def makeLambda (env : Env) (params : List String) (body : CoreExpr) (id : Nat) : ClosureData :=
  ⟨id, params, body, capture env params body, env.ctx.globals, env.ctx.authority, none⟩

/-- In tail position or not. -/
def evalAt (tail : Bool) (e : CoreExpr) (env : Env) : Eval Value := if tail then evalTail e env else eval e env

def evalBlock (tail : Bool) (result : Option CoreExpr) : List CoreStmt → Env → Eval Value
  | [], scope =>
    match result with
    | some e => evalAt tail e scope
    | none => pure .unit
  | .let_ name mutable value :: stmts, scope => do
    let bound ← eval value scope
    let scope ← scope.bind name bound mutable
    evalBlock tail result stmts scope
  | .expr e :: stmts, scope => do
    let _ ← eval e scope
    evalBlock tail result stmts scope
  | .assign target value :: stmts, scope => do
    let value ← eval value scope
    assignPlace target value scope
    evalBlock tail result stmts scope

def guardHolds (guard : Option CoreExpr) (env : Env) : Eval Bool :=
  match guard with
  | some guard => do
    let value ← eval guard env
    lift (asBool value "match guard")
  | none => pure true

def evalMatch (tail : Bool) (subject : Value) (env : Env) : List CoreMatchArm → Eval Value
  | [] => faultWith "no match arm matched"
  | arm :: arms =>
    match tryMatch host arm.pattern subject with
    | none => evalMatch tail subject env arms
    | some bindings => do
      let bound ← env.extendAll bindings
      if ← guardHolds arm.guard bound then evalAt tail arm.body bound else evalMatch tail subject env arms

/-- `and` and `or`: the right operand only if the left does not decide. -/
def evalLogic (decides : Bool) (context : String) (left right : CoreExpr) (env : Env) : Eval Value := do
  let left ← eval left env
  let leftHolds ← lift (asBool left context)
  if leftHolds = decides then pure (.bool decides)
  else do
    let right ← eval right env
    let rightHolds ← lift (asBool right context)
    pure (.bool rightHolds)

/-- Behind the fuel. -/
def evalKind (env : Env) : CoreExprKind CoreExpr → Eval Value
  | .int n => pure (.int n)
  | .float text => pure (.float (host.floatOfText text))
  | .bool b => pure (.bool b)
  | .str segments => evalString host env segments ""
  | .binary .and left right => evalLogic false "`and`" left right env
  | .binary .or left right => evalLogic true "`or`" left right env
  | .binary .pipe left right => evalPipe left right env
  | .binary .crossPipe left right => evalCrossPipe host left right env
  | .binary op left right => do
    let left ← eval left env
    let right ← eval right env
    lift (evalBinary host op left right)
  | .unary op operand => do
    let operand ← eval operand env
    lift (evalUnary host op operand)
  | .var name => do
    match ← env.lookup name with
    | some value => pure value
    | none => faultWith ("unbound variable `" ++ name ++ "`")
  | .selfRef => do
    match ← env.lookup "@" with
    | some value => pure value
    | none => faultWith "`@` is only valid inside a method body"
  | .if_ cond then_ els => do
    let cond ← eval cond env
    if ← lift (asBool cond "condition") then eval then_ env else eval els env
  | .block stmts result => evalBlock false result stmts env
  | .match_ subject arms => do
    let subject ← eval subject env
    evalMatch host false subject env arms
  | .handle op handler body => do
    let handler ← eval handler env
    eval body (env.withHandler op handler)
  | .without cap body => eval body (env.withoutAuthority cap)
  | .expect asserted => evalExpect host asserted env
  | .tuple [] => pure .unit
  | .tuple elems => do
    let values ← collect (fun e => eval e env) elems
    pure (.tuple values)
  | .list elems => do
    let values ← collect (fun e => eval e env) elems
    pure (.list values)
  | .map entries => evalEntries host env entries []
  | .lambda params body => do
    let id ← freshId
    pure (.closure (makeLambda env params body id))
  | .call callee args =>
    match callee.kind with
    | .field object name => evalMethodCall object name args env
    | _ => do
      let function ← eval callee env
      evalCall function args env
  | .field object name => do
    let object ← eval object env
    evalField object name
  | .try_ operand => do
    let value ← eval operand env
    evalTry value env
  | .safeField object name => do
    let object ← eval object env
    evalSafeField object name env
  | .index object i => do
    let object ← eval object env
    let i ← eval i env
    lift (evalIndex host object i)
  | .range start stop inclusive => evalRange start stop inclusive env
  | .spread _ => fault .spreadArgument

def evalDispatch (e : CoreExpr) (env : Env) : Eval Value := do
  if ← takeFuel env.ctx.program then evalKind host env e.kind else fault .fuelExhausted

/-- The function being applied, if it is what is called. -/
def isSelfClosure (env : Env) (callee : Value) : Option ClosureData :=
  match callee with
  | .closure c => env.self.filter fun self => self.id == c.id
  | _ => none

/-- The arguments of a self-tail-call, unless one is named or spread. -/
def tailArgs (env : Env) : List CoreArg → Eval (Option (List Value))
  | [] => pure (some [])
  | arg :: args =>
    if arg.label.isSome || isSpread arg.value then pure none
    else do
      let value ← eval arg.value env
      let values ← tailArgs env args
      pure (values.map (value :: ·))

def arityFault (c : ClosureData) (args : List Value) : Fault :=
  .other ("function expects " ++ toString c.params.length ++ " argument(s), got " ++ toString args.length)

/-- A call of the function to itself signals the arguments of the next round; with a named or a spread argument it is
an ordinary call. -/
def signalTail (c : ClosureData) (callee : Value) (args : List CoreArg) (env : Env) : Option (List Value) → Eval Value
  | none => evalCall callee args env
  | some values =>
    if values.length ≠ c.params.length then fault (arityFault c values) else throw (.tailCall values)

def evalTailCall (callee : Value) (args : List CoreArg) (env : Env) : Eval Value :=
  match isSelfClosure env callee with
  | none => evalCall callee args env
  | some c =>
    if mode.trampoline then do
      let values ← tailArgs env args
      signalTail c callee args env values
    else evalCall (.closure c) args env

def evalTailDispatch (e : CoreExpr) (env : Env) : Eval Value :=
  match e.kind with
  | .call callee args =>
    match callee.kind with
    | .field _ _ => eval e env
    | _ => do
      let function ← eval callee env
      evalTailCall mode function args env
  | .if_ cond then_ els => do
    let cond ← eval cond env
    if ← lift (asBool cond "condition") then evalTail then_ env else evalTail els env
  | .block stmts result => evalBlock true result stmts env
  | .match_ subject arms => do
    let subject ← eval subject env
    evalMatch host true subject env arms
  | _ => eval e env

/-- What the body of a function runs in: the globals of its home, the captured cells, its parameters, the authority
it declares or was made with. -/
def callCtx (c : ClosureData) (home : Bool) (ctx : Ctx) : Ctx :=
  { ctx with globals := if home then c.homeGlobals else ctx.globals, authority := c.uses.getD c.authority }

def callEnv (c : ClosureData) (args : List Value) (ctx : Ctx) : Eval Env := do
  let home ← upgrade c.homeGlobals
  let env : Env := ⟨c.upvalues.reverse, callCtx c home ctx, none⟩
  let env ← env.extendAll (c.params.zip args)
  pure { env with self := some c }

/-- A self-tail-call starts the next round. -/
def nextRound (c : ClosureData) (ctx : Ctx) : Except Signal Value → Eval Value
  | .error (.tailCall next) => Prog.call (EvalCall.loop c next ctx) Prog.done
  | result => .done (returned result)

/-- The frame is left on every way out of the body. -/
def entered (c : ClosureData) (env : Env) (ctx : Ctx) : Eval Value :=
  Prog.call (EvalCall.body c env) fun result => do
    leaveCall ctx.program
    nextRound c ctx result

def activate (c : ClosureData) (env : Env) (ctx : Ctx) : Eval Value := do
  if ← enterCall ctx.program mode.limit then entered c env ctx else fault .tooDeep

def loopBody (c : ClosureData) (args : List Value) (ctx : Ctx) : Eval Value := do
  let env ← callEnv c args ctx
  activate mode c env ctx

def applyValues (callee : Value) (args : List Value) (ctx : Ctx) : Eval Value :=
  match callee with
  | .closure c =>
    if args.length ≠ c.params.length then fault (arityFault c args)
    else Prog.call (EvalCall.loop c args ctx) Prog.done
  | .native native =>
    if args.length ≠ native.arity then
      faultWith (native.name ++ " expects " ++ toString native.arity ++ " argument(s), got " ++ toString args.length)
    else native.call host args ctx
  | .constructor ctor => lift (makeData ctor args)
  | other => faultWith ("cannot call a " ++ other.kind)

/-- A field assignment rebuilds the record and assigns the place it came from. -/
def assignBody (place : CoreExpr) (value : Value) (env : Env) : Eval Unit :=
  match place.kind with
  | .var name => env.assign name value
  | .selfRef => env.assign "@" value
  | .field object name => do
    let current ← eval object env
    match current with
    | .data typeName variant fields _ => do
      match ← fieldMutability env.ctx.program variant name with
      | none => faultWith (typeName ++ " has no field `" ++ name ++ "`")
      | some false =>
        faultWith ("cannot assign to immutable field `" ++ name ++ "` of `" ++ typeName ++ "` (declare it `mut`)")
      | some true =>
        match setField name value fields with
        | none => faultWith (typeName ++ " has no field `" ++ name ++ "`")
        | some fields => assignPlace object (.data typeName variant fields false) env
    | other => faultWith ("cannot assign field `" ++ name ++ "` on " ++ other.kind)
  | _ => faultWith "invalid assignment target"

def callMain (ctx : Ctx) : Eval Value := do
  match ← global ctx.globals "main" with
  | some main => evalCall main [] ctx.globalsOnly
  | none => faultWith "no `main` function"

def bodies : (c : EvalCall) → Eval c.Res
  | .main ctx => callMain ctx
  | .eval e env => evalDispatch host e env
  | .evalTail e env => evalTailDispatch host mode e env
  | .body c env => evalTailDispatch host mode c.body env
  | .method body env => methodBody body env
  | .apply callee args ctx => applyValues host callee args ctx
  | .loop c args ctx => loopBody mode c args ctx
  | .stage name input ctx => stageBody name input ctx
  | .assign place value env => assignBody place value env
  | .force a => forceBody host a
  | .toList current items => toListBody current items
  | .foldSeq current acc f ctx => foldSeqBody current acc f ctx
  | .foldWhileSeq current acc f ctx => foldWhileSeqBody current acc f ctx
  | .dropSeq n current => dropSeqBody n current
  | .dropWhileSeq current pred ctx => dropWhileSeqBody current pred ctx
  | .filterSeq current pred ctx => filterSeqBody current pred ctx

end Evaluator

/-! ### Runs -/

section Runs

variable {π : Platform} (setting : Setting) (mode : Mode)

/-- With at most that many nested procedures; `none` if they do not suffice. -/
def meaningAt (depth : Nat) : Meaning evalInterface Signal (World π) :=
  meaning (World.handle setting) (bodies setting.host mode) depth

def emptyWorld (platform : π.State) : World π := ⟨[], [], 0, [], [], [], [], [], platform⟩

/-- The world with the program set up and the given budget, `none` if registering panics. -/
def startProgram (items : List Item) (fuel : Nat) (platform : π.State) : Option (Ctx × World π) :=
  (buildEnv ambient 0 0 0 items).map fun loaded => (emptyWorld platform).add loaded fuel ambient

def itemsOf (text : String) : List Item :=
  match parseProgram text with
  | .ok items => items
  | .error _ => []

/-- Up to a depth of nested procedures: what the program yields, and the world it leaves. -/
def evalProgramWithFuel (depth : Nat) (items : List Item) (fuel : Nat) (platform : π.State) :
    Option (Except Signal Value × World π) :=
  match startProgram items fuel platform with
  | some (ctx, w) => meaningAt setting mode depth (.main ctx) w
  | none => some (.error .panic, emptyWorld platform)

end Runs

end SnitchOs.Stitch
