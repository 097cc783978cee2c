import SnitchOs.Stitch.Registry

/-!
# What evaluation works on

An environment is the local bindings, innermost first, over what calls pass on: the globals' table, the program whose
methods, fuel and frames are used, the authority and the handlers. Cells, lazy sequences, tables, telemetry and the
platform's own state are the `World`, which an evaluation reaches through the operations of `WorldOp`.

Positions, sources and backtraces are left out. A frame is then only counted.
-/

namespace SnitchOs.Stitch

open Calls

/-! ### Environments -/

/-- What an environment keeps when its local bindings are dropped. Handlers innermost first. -/
structure Ctx where
  globals : Nat
  program : Nat
  authority : List String
  handlers : List (String × Value)

/-- `self` is the function being applied. -/
structure Env where
  locals : List (String × Addr × Bool)
  ctx : Ctx
  self : Option ClosureData

namespace Ctx

def hasAuthority (ctx : Ctx) (cap : String) : Bool := ctx.authority.contains cap

def handlerFor (ctx : Ctx) (op : String) : Option Value := (ctx.handlers.find? fun h => h.1 == op).map Prod.snd

/-- Without the innermost handler of the operation, for the handler itself to run in. -/
def withoutTopHandler (ctx : Ctx) (op : String) : Ctx := { ctx with handlers := ctx.handlers.eraseP fun h => h.1 == op }

end Ctx

namespace Env

def lookupLocalCell (env : Env) (name : String) : Option (Addr × Bool) :=
  (env.locals.find? fun binding => binding.1 == name).map Prod.snd

def withHandler (env : Env) (op : String) (handler : Value) : Env :=
  { env with ctx := { env.ctx with handlers := (op, handler) :: env.ctx.handlers } }

def withoutAuthority (env : Env) (cap : String) : Env :=
  { env with ctx := { env.ctx with authority := env.ctx.authority.filter fun held => held != cap } }

end Env

/-! ### Lazy sequences -/

inductive Step
  | nil
  | cons (head tail : Value)

/-- What makes the next step, with all it captures. -/
inductive Thunk
  | range (current : Int) (stop : Option Int) (inclusive : Bool)
  | iterate (current f : Value) (ctx : Ctx)
  /-- The tail behind `current`: it applies `f` only when it is forced. -/
  | iterateNext (current f : Value) (ctx : Ctx)
  | repeat_ (x : Value)
  | take (n : Int) (seq : Value)
  | drop (n : Int) (seq : Value)
  | dropWhile (seq pred : Value) (ctx : Ctx)
  | takeWhile (seq pred : Value) (ctx : Ctx)
  | map (seq f : Value) (ctx : Ctx)
  | filter (seq pred : Value) (ctx : Ctx)

inductive SeqState
  | unforced (thunk : Thunk)
  | forced (step : Step)

/-! ### The outside -/

inductive TelemetryEvent
  | spanOpen (name : String)
  | spanClose (name : String)
  | emit (name : String) (value : Value)

inductive ObjectKind
  | telemetrySink | spanSink | endpoint | reply | notification | unknown

def ObjectKind.asStr : ObjectKind → String
  | .telemetrySink => "TelemetrySink"
  | .spanSink => "SpanSink"
  | .endpoint => "Endpoint"
  | .reply => "Reply"
  | .notification => "Notification"
  | .unknown => "Unknown"

structure CapInfo where
  handle : UInt32
  kind : ObjectKind
  rights : UInt32
  badge : UInt64
  name : String

inductive PlatformOp
  | readLine
  | readByte
  | write (text : String)
  | hold
  | fsRead (name : String)
  | fsWrite (file : UInt32) (text : String)
  | present (x y : UInt32) (rows : List String)
  | revoke (handle : UInt32)
  | grant (handle : UInt32) (badge : UInt64) (rights : UInt32)

def PlatformOp.Res : PlatformOp → Type
  | .readLine => Option String
  | .readByte => Option UInt8
  | .write _ => Unit
  | .hold => List CapInfo
  | .fsRead _ => Option String
  | .fsWrite _ _ => Bool
  | .present _ _ _ => Bool
  | .revoke _ => Option Nat
  | .grant _ _ _ => Option UInt32

/-- A backend with its state. -/
structure Platform where
  State : Type
  act : (o : PlatformOp) → State → o.Res × State

/-- No console, no files, no capabilities. -/
def nullPlatform : Platform where
  State := Unit
  act
    | .readLine, _ => (none, ())
    | .readByte, _ => (none, ())
    | .write _, _ => ((), ())
    | .hold, _ => ([], ())
    | .fsRead _, _ => (none, ())
    | .fsWrite _ _, _ => (false, ())
    | .present _ _ _, _ => (false, ())
    | .revoke _, _ => (none, ())
    | .grant _ _ _, _ => (none, ())

/-! ### The world -/

/-- What one program shares between all its environments. -/
structure Program where
  methods : List (String × List Method)
  fieldMut : List (String × List (String × Bool))
  fuel : Nat
  frames : Nat

/-- `finished` are the tables of stages that have returned: a closure's weak reference to one of them may be dead. -/
structure World (π : Platform) where
  cells : List Value
  seqs : List SeqState
  nextId : Nat
  globals : List (List (String × Value))
  programs : List Program
  modules : List ModuleHandle
  finished : List Nat
  telemetry : List TelemetryEvent
  platform : π.State

inductive WorldOp
  | alloc (v : Value)
  | load (a : Addr)
  | store (a : Addr) (v : Value)
  | lazy (thunk : Thunk)
  | peek (a : Addr)
  | memo (a : Addr) (step : Step)
  | freshId
  | takeFuel (program : Nat)
  /-- Enter a call, unless as many as the limit are active. -/
  | enterCall (program : Nat) (limit : Option Nat)
  | leaveCall (program : Nat)
  | global (table : Nat) (name : String)
  | hasMethods (program : Nat) (typeName : String)
  | lookupMethod (program : Nat) (typeName name : String)
  | fieldMutability (program : Nat) (variant field : String)
  | moduleHandle (id : Nat)
  /-- Is the table still there? -/
  | upgrade (table : Nat)
  | span (event : TelemetryEvent)
  | platform (o : PlatformOp)
  /-- Set a program up, with a table of globals of its own. -/
  | build (items : List Item)
  | finish (table : Nat)

def WorldOp.Res : WorldOp → Type
  | .alloc _ => Addr
  | .load _ => Value
  | .store _ _ => Unit
  | .lazy _ => Addr
  | .peek _ => SeqState
  | .memo _ _ => Unit
  | .freshId => Nat
  | .takeFuel _ => Bool
  | .enterCall _ _ => Bool
  | .leaveCall _ => Unit
  | .global _ _ => Option Value
  | .hasMethods _ _ => Bool
  | .lookupMethod _ _ _ => Option Method
  | .fieldMutability _ _ _ => Option Bool
  | .moduleHandle _ => ModuleHandle
  | .upgrade _ => Bool
  | .span _ => Unit
  | .platform o => o.Res
  | .build _ => Option Ctx
  | .finish _ => Unit

abbrev worldInterface : Interface := ⟨WorldOp, WorldOp.Res⟩

/-! ### What the operations do -/

/-- `u64::MAX`, the budget of a program that is given none. -/
def unbounded : Nat := 18446744073709551615

def maxCallDepth : Nat := 48

/-- The capabilities of the program's entry. -/
def ambient : List String := ["Telemetry", "ConsoleOut", "ConsoleIn", "FsRead", "FsWrite", "Display"]

structure Setting where
  host : Host
  /-- Is the table of a finished stage still referred to by what is in the cells? -/
  alive : List Value → Nat → Bool

def Setting.plain : Setting := ⟨Host.plain, fun _ _ => true⟩

namespace World

variable {π : Platform}

/-- Nothing runs in a program that was not set up. -/
def program (w : World π) (p : Nat) : Program := w.programs.getD p ⟨[], [], 0, maxCallDepth⟩

def setProgram (w : World π) (p : Nat) (program : Program) : World π :=
  { w with programs := w.programs.set p program }

def add (w : World π) (loaded : Loaded) (fuel : Nat) (authority : List String) : Ctx × World π :=
  (⟨w.globals.length, w.programs.length, authority, []⟩,
    { w with
      nextId := loaded.nextId
      globals := w.globals ++ [loaded.globals]
      programs := w.programs ++ [⟨loaded.methods, loaded.fieldMut, fuel, 0⟩]
      modules := w.modules ++ loaded.modules })

variable (setting : Setting)

def handle : (o : WorldOp) → World π → o.Res × World π
  | .alloc v, w => (w.cells.length, { w with cells := w.cells ++ [v] })
  | .load a, w => (w.cells.getD a .unit, w)
  | .store a v, w => ((), { w with cells := w.cells.set a v })
  | .lazy thunk, w => (w.seqs.length, { w with seqs := w.seqs ++ [.unforced thunk] })
  | .peek a, w => (w.seqs.getD a (.forced .nil), w)
  | .memo a step, w => ((), { w with seqs := w.seqs.set a (.forced step) })
  | .freshId, w => (w.nextId, { w with nextId := w.nextId + 1 })
  | .takeFuel p, w =>
    let program := w.program p
    if program.fuel = 0 then (false, w) else (true, w.setProgram p { program with fuel := program.fuel - 1 })
  | .enterCall p limit, w =>
    let program := w.program p
    if limit.any fun limit => limit ≤ program.frames then (false, w)
    else (true, w.setProgram p { program with frames := program.frames + 1 })
  | .leaveCall p, w =>
    let program := w.program p
    ((), w.setProgram p { program with frames := program.frames - 1 })
  | .global table name, w => ((w.globals.getD table []).lookup name, w)
  | .hasMethods p typeName, w => (((w.program p).methods.lookup typeName).isSome, w)
  | .lookupMethod p typeName name, w =>
    (((w.program p).methods.lookup typeName).bind fun methods => methods.find? fun m => m.name == name, w)
  | .fieldMutability p variant field, w =>
    (((w.program p).fieldMut.lookup variant).bind fun fields => fields.lookup field, w)
  | .moduleHandle id, w => (w.modules.getD id ⟨"", [], []⟩, w)
  | .upgrade table, w => (!w.finished.contains table || setting.alive w.cells table, w)
  | .span event, w => ((), { w with telemetry := w.telemetry ++ [event] })
  | .platform o, w =>
    let answer := π.act o w.platform
    (answer.1, { w with platform := answer.2 })
  | .build items, w =>
    match buildEnv ambient w.nextId w.globals.length w.modules.length items with
    | none => (none, w)
    | some loaded =>
      let added := w.add loaded unbounded ambient
      (some added.1, added.2)
  | .finish table, w => ((), { w with finished := table :: w.finished })

section Handle

variable (w : World π) (p : Nat)

theorem takeFuel_empty (h : (w.program p).fuel = 0) : handle setting (.takeFuel p) w = (false, w) := if_pos h

theorem takeFuel_some (h : (w.program p).fuel ≠ 0) :
    handle setting (.takeFuel p) w = (true, w.setProgram p { w.program p with fuel := (w.program p).fuel - 1 }) :=
  if_neg h

theorem enterCall_refused {limit : Option Nat} (h : limit.any (fun limit => decide (limit ≤ (w.program p).frames)) = true) :
    handle setting (.enterCall p limit) w = (false, w) := if_pos h

theorem enterCall_entered {limit : Option Nat} (h : ¬ limit.any (fun limit => decide (limit ≤ (w.program p).frames)) = true) :
    handle setting (.enterCall p limit) w =
      (true, w.setProgram p { w.program p with frames := (w.program p).frames + 1 }) := if_neg h

theorem build_refused (h : buildEnv ambient w.nextId w.globals.length w.modules.length items = none) :
    handle setting (.build items) w = (none, w) := by
  simp only [handle.eq_def, h]
  rfl

theorem build_added (h : buildEnv ambient w.nextId w.globals.length w.modules.length items = some loaded) :
    handle setting (.build items) w =
      (some (w.add loaded unbounded ambient).1, (w.add loaded unbounded ambient).2) := by
  simp only [handle.eq_def, h]
  rfl

end Handle

end World

end SnitchOs.Stitch
