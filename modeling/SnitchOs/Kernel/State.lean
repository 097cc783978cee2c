import SnitchOs.Cap.Handlers
import SnitchOs.Ipc.Endpoint
import SnitchOs.Notify.Notification
import SnitchOs.Sched.Reap
import SnitchOs.Sched.Runqueue
import SnitchOs.Sched.Timeout

/-!
# The kernel's state

The structures behind the kernel's locks, and for each task what is left of the handler it is in: a list of
*sections*, each run under one lock. A task in user mode has nothing left. The subsystems only meet through these
lists: a section answers with the sections the handler goes on with, and `park` is `block_current`, after which the
handler resumes.

Ghost state: calls are numbered as they are accepted (`nextCall`), `accepted` logs the replies the kernel accepted and
`returned` the words calls returned with.
-/

namespace SnitchOs.Kernel

open Cap Ipc Notify Sched

/-! ### Machines with one and with two harts

Runs on fixed inputs name their harts by numerals. -/

scoped instance oneHart : NeZero 1 := ⟨Nat.one_ne_zero⟩

scoped instance twoHarts : NeZero 2 := ⟨Nat.succ_ne_zero 1⟩

/-! ### What the locks protect -/

structure Task where
  state : TaskState
  priority : Priority := .normal
  killRequested : Bool := false
deriving DecidableEq

structure Scheduler (n : Nat) where
  tasks : TaskId → Option Task
  nextTaskId : TaskId
  runqueues : Fin n → List Candidate
  current : Fin n → TaskId

structure StashedReply where
  msg : Message := .replicate 4 0
  moved : Option Moved := none
  call : CallNo := 0
deriving DecidableEq

/-- A reply as the logs record it: the caller it answers, the number of the call, the words. -/
abbrev Answer := TaskId × CallNo × Message

/-- `ENDPOINTS` and `REPLIES`. An id the kernel has not handed out names an idle endpoint. -/
structure IpcState where
  endpoints : EndpointId → Endpoint := fun _ => {}
  nextEndpoint : EndpointId := 0
  replies : TaskId → Option StashedReply := fun _ => none
  nextCall : CallNo := 0
  returned : List Answer := []

structure NotifyTable where
  notifications : NotificationId → Option Notification := fun _ => none
  nextId : NotificationId := 0

structure Processes where
  tables : TaskId → Option CapTable := fun _ => none
  nextCapId : Nat := 1
  accepted : List Answer := []

/-! ### Sections -/

/-- Where a handler goes on when `block_current` returns. -/
inductive Resume
  | sent (ep : EndpointId)
  | received (ep : EndpointId)
  | called (call : CallNo)
  | notified (id : NotificationId) (deadline : Nat)
  | child (child : TaskId)
  | anyChild (deadline : Nat)
deriving DecidableEq

/-- `killRead` reads the per-hart current tasks, before the lock is taken for `kill`. -/
inductive SchedSec (n : Nat)
  | wake (id : TaskId)
  | yieldNow
  | exitNow
  | reapTask (child : TaskId)
  | spawn (hart : Fin n) (handed : List Moved)
  | killRead (handle : Handle) (target : TaskId)
  | kill (handle : Handle) (target : TaskId) (isSelf runningRemote : Bool)
deriving DecidableEq

inductive IpcSec
  | sendBegin (ep : EndpointId) (msg : Message) (parent : SpanId) (badge : UInt64)
  | callBegin (ep : EndpointId) (msg : Message) (parent : SpanId) (badge : UInt64)
  | receiveBegin (ep : EndpointId)
  | stashReply (caller : TaskId) (reply : StashedReply)
  | cancelEndpoints (target : TaskId)
  | cancelReplies (target : TaskId)
  | createEndpoint
deriving DecidableEq

inductive NotifySec
  | signal (id : NotificationId) (mask : UInt64)
  | wait (id : NotificationId) (deadline : Nat)
  | cancelWait (id : NotificationId)
  | create
deriving DecidableEq

inductive ReapSec
  | waitFor (child : TaskId)
  | waitForAny (deadline : Nat)
  | cancelWaitAny
  | noteSpawn (child : TaskId)
  | noteExit (child : TaskId) (status : Int)
deriving DecidableEq

inductive TimeoutSec
  | register (deadline : Nat)
  | cancel
deriving DecidableEq

/-- The sections under a process's `caps` lock. `replyViaCap` ends a `Reply`, or goes on to the
receive half of a `ReplyRecv` on the endpoint handle `recv`; `insertMoved` is a resumed `Call` taking
the capability its reply carried; `publish` is a spawned child building its table. -/
inductive CapsSec (n : Nat)
  | invokeSend (h : Handle) (msg : Message) (parent : SpanId) (call : Bool)
  | invokeRecv (h : Handle)
  | replyViaCap (h : Handle) (msg : Message) (transfer recv : Option Handle)
  | replyHandleFor (d : Delivered)
  | insertMoved (m : Moved)
  | invokeSignal (h : Handle) (mask : UInt64)
  | invokeWait (h : Handle) (deadline : Nat)
  | invokeKill (h : Handle)
  | consume (h : Handle)
  | delegateFromUser (hart : Fin n) (handles : List Handle)
  | mintProcessCap (child : TaskId)
  | mintBadged (h : Handle) (badge : UInt64) (rights : Rights)
  | insertRoot (cap : Capability)
  | publish (handed : List Moved)
  | dropProcess (child : TaskId)
deriving DecidableEq

inductive Sec (n : Nat)
  | sched (s : SchedSec n)
  | ipc (s : IpcSec)
  | notify (s : NotifySec)
  | reap (s : ReapSec)
  | timeout (s : TimeoutSec)
  | caps (s : CapsSec n)
  | park (r : Resume)
  | resume (r : Resume)
deriving DecidableEq

abbrev Sec.wake {n : Nat} (id : TaskId) : Sec n := .sched (.wake id)

structure State (n : Nat) where
  sched : Scheduler n
  ipc : IpcState := {}
  notify : NotifyTable := {}
  reap : ReapTable := {}
  /-- `TIMEOUTS`, one queue per hart. -/
  timeouts : Fin n → TimeoutQueue := fun _ => {}
  procs : Processes := {}
  /-- What is left of the handler each task is in. -/
  todo : TaskId → List (Sec n) := fun _ => []

/-! ### Boot -/

/-- What the kernel starts with: a process for each entry, ready on its hart, holding a table without
reply capabilities; `endpoints` endpoints and `notifications` notifications exist. -/
structure Boot (n : Nat) where
  procs : List (Fin n × CapTable)
  noReply : ∀ p ∈ procs, ∀ s ∈ p.2.slots, ∀ caller call rights, s.cap ≠ some ⟨.reply caller call, rights⟩
  endpoints : Nat := 0
  notifications : Nat := 0
  nextCapId : Nat := 1

namespace Boot

variable {n : Nat} (b : Boot n)

/-- The processes' ids start behind those of the harts' own tasks. -/
def entry (id : TaskId) : Option (Fin n × CapTable) :=
  if id < n then none else b.procs[id - n]?

/-- Hart `h` starts in its own kernel task, number `h`, which does nothing but yield. -/
def state : State n where
  sched := {
    tasks := fun id =>
      if id < n then some { state := .running } else (b.entry id).map fun _ => { state := .ready }
    nextTaskId := n + b.procs.length
    runqueues := fun h =>
      (b.procs.zipIdx.filter (·.1.1 = h)).map fun p => { id := n + p.2, base := .normal, enqueuedTick := 0 }
    current := fun h => h.val }
  ipc := { nextEndpoint := b.endpoints }
  notify := {
    notifications := fun id => if id < b.notifications then some {} else none
    nextId := b.notifications }
  procs := {
    tables := fun id => (b.entry id).map (·.2)
    nextCapId := b.nextCapId }

end Boot

end SnitchOs.Kernel
