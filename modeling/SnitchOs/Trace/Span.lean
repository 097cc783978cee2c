import SnitchOs.Kernel.Emits

/-!
# Spans

Tracing over the whole kernel. Each task has a cursor, the id of its innermost open span. `SpanOpen` makes it the
parent of a fresh id and answers with both; `SpanClose` takes both back from the caller's registers, compares the id
with the cursor and restores the parent it was given. `Send` and `Call` put the cursor into the message, and taking
delivery sets the receiver's. The kernel's own spans are guards on the cursor of the task that opened them; the harts'
own tasks open them too.

`wire` holds the frames in the order of emission. Who emitted a frame, and for whom, is ghost: a `SpanEnd` names only
the span.
-/

namespace SnitchOs.Trace

open Cap Ipc Kernel Function

variable {n : Nat}

abbrev StringId := Nat

structure SpanOpen where
  id : SpanId
  parent : SpanId
deriving DecidableEq

/-! ### Frames -/

inductive RefusalReason
  | noProcess
  | capNotFound
  | capWrongRights
  | capWrongObject
  | badUserRange
  | badUtf8
  | quota
  | badSpanId
deriving DecidableEq

def refusalFor : Denied → RefusalReason
  | .noSuchCapability => .capNotFound
  | .missingRight => .capWrongRights
  | .wrongObject => .capWrongObject

inductive SpanCall
  | spanOpen
  | spanClose
deriving DecidableEq

inductive Frame
  | stringRegister (id : StringId) (value : String)
  | spanStart (id parent : SpanId) (nameId : StringId) (taskId : TaskId)
  | spanEnd (id : SpanId)
  | message (sender receiver : TaskId) (parent : SpanId)
  | syscallRefused (syscall : SpanCall) (reason : RefusalReason) (taskId : TaskId)
deriving DecidableEq

/-- A frame is emitted for a syscall of a process, or for the kernel itself. -/
inductive Origin
  | process
  | kernel
deriving DecidableEq

structure Emission where
  frame : Frame
  task : TaskId
  origin : Origin
deriving DecidableEq

namespace Emission

def starts (e : Emission) : Option SpanOpen :=
  match e.frame with
  | .spanStart id parent _ _ => some ⟨id, parent⟩
  | _ => none

def ends (e : Emission) : Option SpanId :=
  match e.frame with
  | .spanEnd id => some id
  | _ => none

end Emission

/-! ### Span names -/

/-- The span names a process has introduced. -/
structure SpanNameTable where
  names : List (String × StringId) := []

namespace SpanNameTable

def maxSpanNames : Nat := 16

variable (t : SpanNameTable)

def resolve (name : String) : Option StringId := (t.names.find? (·.1 == name)).map (·.2)

def isFull : Bool := maxSpanNames ≤ t.names.length

def insert (name : String) (id : StringId) : SpanNameTable := { names := t.names ++ [(name, id)] }

end SpanNameTable

/-! ### The tracing state -/

structure Tracing (n : Nat) where
  kernel : State n
  /-- `SPAN_IDS`, a `u64` counter. -/
  nextId : Nat := 1
  cursor : TaskId → SpanId := fun _ => 0
  /-- The kernel's span guards in scope, innermost first. -/
  guards : TaskId → List SpanOpen := fun _ => []
  spanNames : TaskId → SpanNameTable := fun _ => {}
  /-- Length of the intern table. -/
  internCount : StringId := 0
  wire : List Emission := []

namespace Tracing

variable (m : Tracing n)

def emit (frame : Frame) (task : TaskId) (origin : Origin) : Tracing n :=
  { m with wire := m.wire ++ [⟨frame, task, origin⟩] }

def refuse (t : TaskId) (syscall : SpanCall) (reason : RefusalReason) : Tracing n :=
  m.emit (.syscallRefused syscall reason t) t .process

/-- The span `open` gives out to task `t`. -/
def fresh (t : TaskId) : SpanOpen := ⟨.ofNat m.nextId, m.cursor t⟩

/-- `span::open` on the cursor of `t`, and its frame. -/
def openSpan (t : TaskId) (origin : Origin) (nameId : StringId) : Tracing n :=
  { m with
    nextId := m.nextId + 1
    cursor := update m.cursor t (m.fresh t).id }.emit
      (.spanStart (m.fresh t).id (m.fresh t).parent nameId t) t origin

/-- The frame, and `span::close` on the cursor of `t`. -/
def closeSpan (t : TaskId) (origin : Origin) (span : SpanOpen) : Tracing n :=
  { m with cursor := update m.cursor t span.parent }.emit (.spanEnd span.id) t origin

def registerName (t : TaskId) (name : String) : Tracing n :=
  { m with
    spanNames := update m.spanNames t ((m.spanNames t).insert name m.internCount)
    internCount := m.internCount + 1 }.emit (.stringRegister m.internCount name) t .process

def spanOpenBounded (t : TaskId) (name : String) : Option (Tracing n) :=
  match (m.spanNames t).resolve name with
  | some id => some (m.openSpan t .process id)
  | none =>
    if (m.spanNames t).isFull then none
    else some ((m.registerName t name).openSpan t .process m.internCount)

def spanCloseChecked (t : TaskId) (id parent : SpanId) : Option (Tracing n) :=
  if m.cursor t ≠ id then none else some (m.closeSpan t .process ⟨id, parent⟩)

/-- What copying the name out of user memory gives. -/
inductive CopiedName
  | badRange
  | badUtf8
  | name (s : String)
deriving DecidableEq

def handleSpanOpen (t : TaskId) (handle : Handle) (name : CopiedName) : Tracing n :=
  match m.kernel.procs.tables t with
  | none => m.refuse t .spanOpen .noProcess
  | some caps =>
    match invokeSpan caps handle with
    | .error denied => m.refuse t .spanOpen (refusalFor denied)
    | .ok () =>
      match name with
      | .badRange => m.refuse t .spanOpen .badUserRange
      | .badUtf8 => m.refuse t .spanOpen .badUtf8
      | .name s =>
        match m.spanOpenBounded t s with
        | some m' => m'
        | none => m.refuse t .spanOpen .quota

def handleSpanClose (t : TaskId) (id parent : SpanId) : Tracing n :=
  match m.spanCloseChecked t id parent with
  | some m' => m'
  | none => m.refuse t .spanClose .badSpanId

/-- The end of `receive_into_frame`: the message is on the wire, and the sender's span the parent of
what the receiver opens next. -/
def deliver (t : TaskId) (d : Delivered) : Tracing n :=
  { m with cursor := update m.cursor t d.parent }.emit (.message d.sender t d.parent) t .process

/-- The `span!` of a kernel task. -/
def spanStartId (t : TaskId) (nameId : StringId) : Tracing n :=
  { m.openSpan t .kernel nameId with guards := update m.guards t (m.fresh t :: m.guards t) }

/-- The innermost guard goes out of scope. -/
def dropGuard (t : TaskId) : Option (Tracing n) :=
  match m.guards t with
  | [] => none
  | span :: guards => some { m.closeSpan t .kernel span with guards := update m.guards t guards }

end Tracing

/-! ### Steps -/

/-- A send or a call carries the cursor of its sender. -/
def withSpan (span : SpanId) : Kernel.Label n → Kernel.Label n
  | .syscall h (.send c msg _) => .syscall h (.send c msg span)
  | .syscall h (.call c msg _) => .syscall h (.call c msg span)
  | l => l

def received (k : State n) : Kernel.Label n → Option Delivered
  | .run h _ =>
    match k.todo (k.sched.current h) with
    | .caps (.replyHandleFor d) :: _ => some d
    | _ => none
  | _ => none

inductive Label (n : Nat)
  | kernel (l : Kernel.Label n)
  | spanOpen (h : Fin n) (handle : Handle) (name : Tracing.CopiedName)
  | spanClose (h : Fin n) (id parent : SpanId)
  | spanStart (h : Fin n) (nameId : StringId)
  | spanDrop (h : Fin n)
deriving DecidableEq

namespace Tracing

variable (m : Tracing n)

abbrev current (h : Fin n) : TaskId := m.kernel.sched.current h

/-- Hart `h` is in the loop of its own task, or of another hart's. -/
def inKernelTask (h : Fin n) : Bool := m.kernel.idle h && decide (m.current h < n)

def step : Label n → Option (Tracing n)
  | .kernel l =>
    (m.kernel.step (withSpan (m.cursor (m.current l.hart)) l)).map fun k =>
      match received m.kernel l with
      | some d => { m with kernel := k }.deliver (m.current l.hart) d
      | none => { m with kernel := k }
  | .spanOpen h handle name =>
    if m.kernel.idle h && m.kernel.isProcess h then some (m.handleSpanOpen (m.current h) handle name) else none
  | .spanClose h id parent =>
    if m.kernel.idle h && m.kernel.isProcess h then some (m.handleSpanClose (m.current h) id parent) else none
  | .spanStart h nameId => if m.inKernelTask h then some (m.spanStartId (m.current h) nameId) else none
  | .spanDrop h => if m.inKernelTask h then m.dropGuard (m.current h) else none

end Tracing

def boot (b : Boot n) : Tracing n := { kernel := b.state }

end SnitchOs.Trace
