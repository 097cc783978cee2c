import SnitchOs.Cap.System
import SnitchOs.Kernel.State

/-!
# The kernel's steps

Each subsystem executes its sections and answers with the sections the handler goes on with. A hart
takes one section at a time of the handler its current task is in; between two sections any other
hart may step. A panic is a step that does not exist.
-/

namespace SnitchOs.Kernel

open Cap Ipc Notify Sched Function

variable {n : Nat}

/-! ### The scheduler -/

def agingStepTicks : Nat := 10000000

inductive KillOutcome
  | killed
  | alreadyDead
  | refusedSelf
  | requested
deriving DecidableEq

namespace Scheduler

variable (s : Scheduler n)

/-- Pick the next task of hart `h` and switch to it. With nothing ready the current task keeps the
hart, unless it exits: that, and a task missing from the table, is a panic. -/
def prepareSwitch (h : Fin n) (now : Nat) (d : CurrentDisposition) : Option (Scheduler n) :=
  match pickNext (s.runqueues h) now agingStepTicks with
  | none => if d = .exit then none else some s
  | some next =>
    match s.tasks (s.current h), s.tasks next with
    | some outgoing, some _ =>
      some { s with
        tasks := update s.tasks (s.current h)
          (some { outgoing with state := d.nextState.getD outgoing.state })
        runqueues := update s.runqueues h
          (Runqueue.remove (s.runqueues h) next ++
            if d.requeues then [⟨s.current h, outgoing.priority, now⟩] else [])
        current := update s.current h next }
    | _, _ => none

/-- A blocked task becomes ready on the waker's hart; anything else is left alone. -/
def wake (h : Fin n) (now : Nat) (id : TaskId) : Scheduler n :=
  match s.tasks id with
  | none => s
  | some task =>
    if onWake task.state then
      { s with
        tasks := update s.tasks id (some { task with state := .ready })
        runqueues := update s.runqueues h (s.runqueues h ++ [⟨id, task.priority, now⟩]) }
    else s

/-- `spawn_on_with_arg`; the new task is number `nextTaskId`. -/
def spawn (hart : Fin n) (now : Nat) : Scheduler n :=
  { s with
    tasks := update s.tasks s.nextTaskId (some { state := .ready })
    nextTaskId := s.nextTaskId + 1
    runqueues := update s.runqueues hart (s.runqueues hart ++ [⟨s.nextTaskId, .normal, now⟩]) }

def runningRemote (h : Fin n) (target : TaskId) : Bool :=
  decide (∃ h', h' ≠ h ∧ s.current h' = target)

/-- The locked section of `kill_task`. -/
def kill (target : TaskId) (isSelf runningRemote : Bool) : KillOutcome × Scheduler n :=
  match s.tasks target with
  | none => (.alreadyDead, s)
  | some task =>
    match classifyKill ⟨isSelf, runningRemote, task.state == .exited⟩ with
    | .terminate =>
      (.killed, { s with
        tasks := update s.tasks target (some { task with state := .exited })
        runqueues := fun h => Runqueue.remove (s.runqueues h) target })
    | .noOp => (.alreadyDead, s)
    | .refuseSelf => (.refusedSelf, s)
    | .refuseRunningRemote =>
      (.requested, { s with
        tasks := update s.tasks target (some { task with killRequested := true }) })

/-- The table part of `reap_task`. -/
def reapTask (child : TaskId) : Scheduler n := { s with tasks := update s.tasks child none }

end Scheduler

def killedStatus : Int := -9

def faultedStatus : Int := -4

/-- How `handle_kill` goes on after the locked section of `kill_task`. -/
def afterKill (handle : Handle) (target : TaskId) : KillOutcome → List (Sec n)
  | .killed =>
    [.ipc (.cancelEndpoints target), .ipc (.cancelReplies target), .reap (.noteExit target killedStatus),
      .caps (.consume handle)]
  | .alreadyDead | .requested => [.caps (.consume handle)]
  | .refusedSelf => []

/-! ### Endpoints and the reply mailbox -/

namespace IpcState

variable (i : IpcState)

def set (ep : EndpointId) (e : Endpoint) : IpcState :=
  { i with endpoints := update i.endpoints ep e }

/-- `take_delivered`, after which a receive mints its reply capability. -/
def takeDelivered (me : TaskId) (ep : EndpointId) : IpcState × List (Sec n) :=
  let r := (i.endpoints ep).takeDelivered me
  (i.set ep r.2, [.caps (.replyHandleFor r.1)])

/-- `take_reply`: zeros if nothing is stashed. -/
def takeReply (me : TaskId) (call : CallNo) : IpcState × List (Sec n) :=
  let r := (i.replies me).getD {}
  ({ i with
      replies := update i.replies me none
      returned := i.returned ++ [(me, call, r.msg)] },
    match r.moved with
    | some m => [.caps (.insertMoved m)]
    | none => [])

def sendBegin (me : TaskId) (ep : EndpointId) (msg : Message) (parent : SpanId) (badge : UInt64) :
    IpcState × List (Sec n) :=
  match (i.endpoints ep).begin me { msg, parent, sender := me, replyTo := none, badge } with
  | (.deliver peer, e) => (i.set ep e, [.wake peer])
  | (.block, e) => (i.set ep e, [.park (.sent ep)])

/-- A caller parks in either case. -/
def callBegin (me : TaskId) (ep : EndpointId) (msg : Message) (parent : SpanId) (badge : UInt64) :
    IpcState × List (Sec n) :=
  let i' := { i with nextCall := i.nextCall + 1 }
  match (i.endpoints ep).begin me
    { msg, parent, sender := me, replyTo := some me, badge, call := i.nextCall } with
  | (.deliver peer, e) => (i'.set ep e, [.wake peer, .park (.called i.nextCall)])
  | (.block, e) => (i'.set ep e, [.park (.called i.nextCall)])

/-- The sender is woken unless it called: a caller stays parked for its reply. -/
def receiveBegin (me : TaskId) (ep : EndpointId) : IpcState × List (Sec n) :=
  match (i.endpoints ep).receiveBegin me with
  | (.deliver d peer, e) =>
    (i.set ep e, (if d.replyTo.isNone then [.wake peer] else []) ++ [.caps (.replyHandleFor d)])
  | (.block, e) => (i.set ep e, [.park (.received ep)])

def exec (me : TaskId) : IpcSec → IpcState × List (Sec n)
  | .sendBegin ep msg parent badge => i.sendBegin me ep msg parent badge
  | .callBegin ep msg parent badge => i.callBegin me ep msg parent badge
  | .receiveBegin ep => i.receiveBegin me ep
  | .stashReply caller reply => ({ i with replies := update i.replies caller (some reply) }, [])
  | .cancelEndpoints target => ({ i with endpoints := fun ep => (i.endpoints ep).cancelWait target }, [])
  | .cancelReplies target => ({ i with replies := update i.replies target none }, [])
  | .createEndpoint =>
    ({ i with nextEndpoint := i.nextEndpoint + 1 },
      [.caps (.insertRoot ⟨.endpoint i.nextEndpoint 0, Rights.recv.union .mint⟩)])

end IpcState

/-! ### Notifications, reaping and timeouts -/

def timedOut (deadline now : Nat) : Bool := deadline ≠ 0 && deadline ≤ now

namespace NotifyTable

variable (t : NotifyTable)

def set (id : NotificationId) (x : Notification) : NotifyTable :=
  { t with notifications := update t.notifications id (some x) }

def exec (me : TaskId) : NotifySec → NotifyTable × List (Sec n)
  | .signal id mask =>
    match t.notifications id with
    | none => (t, [])
    | some x =>
      match x.signal mask with
      | (.woke waiter, x) => (t.set id x, [.wake waiter])
      | (.noWaiter, x) => (t.set id x, [])
  | .wait id deadline =>
    match t.notifications id with
    | none => (t, [])
    | some x =>
      match x.wait me with
      | (.ready _, x) => (t.set id x, [])
      | (.block, x) => (t.set id x, [.timeout (.register deadline), .park (.notified id deadline)])
      | (.busy, x) => (t.set id x, [])
  | .cancelWait id =>
    match t.notifications id with
    | none => (t, [])
    | some x => (t.set id (x.cancelWait me), [])
  | .create =>
    ({ notifications := update t.notifications t.nextId (some {}), nextId := t.nextId + 1 },
      [.caps (.insertRoot ⟨.notification t.nextId, Rights.signal.union .wait⟩)])

/-- The wait loop's turn after a wake: bits, or the deadline, or park again. -/
def recheck (now : Nat) (id : NotificationId) (deadline : Nat) : NotifyTable × List (Sec n) :=
  let taken := (t.notifications id).map Notification.takePending
  let t' := match taken with
    | some (_, x) => t.set id x
    | none => t
  match taken.bind (·.1) with
  | some _ => (t', [.timeout .cancel])
  | none =>
    if timedOut deadline now then (t', [.notify (.cancelWait id), .timeout .cancel])
    else (t', [.park (.notified id deadline)])

end NotifyTable

/-- The `REAP` sections, with how `Wait`, `WaitAny`, `Exit` and `Kill` go on. -/
def execReap (r : ReapTable) (me : TaskId) : ReapSec → ReapTable × List (Sec n)
  | .waitFor child =>
    match r.onWait me child with
    | (.ready _, r) => (r, [.sched (.reapTask child)])
    | (.block, r) => (r, [.park (.child child)])
  | .waitForAny deadline =>
    match r.onWaitAny me with
    | (.ready child _, r) => (r, [.sched (.reapTask child)])
    | (.block, r) => (r, [.timeout (.register deadline), .park (.anyChild deadline)])
  | .cancelWaitAny => (r.cancelWaitAny me, [])
  | .noteSpawn child => (r.onSpawn me child, [])
  | .noteExit child status =>
    match r.onExit child status with
    | (some parent, r) => (r, [.wake parent])
    | (none, r) => (r, [])

/-- The turn of `WaitAny`'s loop after a wake. -/
def recheckAny (r : ReapTable) (me : TaskId) (now deadline : Nat) : ReapTable × List (Sec n) :=
  match r.onWaitAny me with
  | (.ready child _, r) => (r, [.timeout .cancel, .sched (.reapTask child)])
  | (.block, r) =>
    if timedOut deadline now then (r, [.reap .cancelWaitAny, .timeout .cancel])
    else (r, [.park (.anyChild deadline)])

def execTimeout (q : TimeoutQueue) (me : TaskId) : TimeoutSec → TimeoutQueue
  | .register deadline => if deadline ≠ 0 then q.insert deadline me else q
  | .cancel => q.remove me

/-! ### Capability tables -/

namespace Processes

variable (p : Processes)

def drawId : Nat := p.nextCapId % 2 ^ 64

def setTable (me : TaskId) (t : CapTable) : Processes :=
  { p with tables := update p.tables me (some t) }

def grantIn (me : TaskId) (t : CapTable) (cap : Capability) (m : Multiplicity) (parent : Nat) : Processes :=
  { p.setTable me (t.grant cap m p.drawId parent).2 with nextCapId := p.nextCapId + 1 }

/-- Build the table of `me`: the two authorities every process is born with, then what it is handed. -/
def publish (me : TaskId) (handed : List Moved) : Processes :=
  (System.bootstrap ++ handed).foldl
    (fun p (m : Moved) => p.grantIn me ((p.tables me).getD .new) m.cap .persistent m.parentCapId)
    (p.setTable me .new)

/-- The sections of `me` on its own table `t`. -/
def execOn (me : TaskId) (t : CapTable) : CapsSec n → Processes × List (Sec n)
  | .invokeSend h msg parent call =>
    match invokeSend t h with
    | .ok (ep, badge) =>
      (p, [.ipc (if call then .callBegin ep msg parent badge else .sendBegin ep msg parent badge)])
    | .error _ => (p, [])
  | .invokeRecv h =>
    match invokeRecv t h with
    | .ok ep => (p, [.ipc (.receiveBegin ep)])
    | .error _ => (p, [])
  | .replyViaCap h msg transfer recv =>
    match replyViaCap t h transfer with
    | .ok ((caller, call), moved, t') =>
      ({ p.setTable me t' with accepted := p.accepted ++ [(caller, call, msg)] },
        [.ipc (.stashReply caller { msg, moved, call }), .wake caller] ++
          match recv with
          | some ep => [.caps (.invokeRecv ep)]
          | none => [])
    | .error _ => (p, [])
  | .replyHandleFor d =>
    match d.replyTo with
    | some caller => (p.grantIn me t ⟨.reply caller d.call, .none⟩ .once 0, [])
    | none => (p, [])
  | .insertMoved m => (p.grantIn me t m.cap .persistent m.parentCapId, [])
  | .invokeSignal h mask =>
    match invokeSignal t h with
    | .ok id => (p, [.notify (.signal id mask)])
    | .error _ => (p, [])
  | .invokeWait h deadline =>
    match invokeWait t h with
    | .ok id => (p, [.notify (.wait id deadline)])
    | .error _ => (p, [])
  | .invokeKill h =>
    match invokeKill t h with
    | .ok target => (p, [.sched (.killRead h target)])
    | .error _ => (p, [])
  | .consume h => (p.setTable me (t.consume h).2, [])
  | .delegateFromUser hart handles =>
    match delegateFromUser t handles with
    | .ok handed => (p, [.sched (.spawn hart handed)])
    | .error _ => (p, [])
  | .mintProcessCap child => (p.grantIn me t ⟨.process child, .kill⟩ .persistent 0, [])
  | .mintBadged h badge rights =>
    match handleMintBadged t h badge rights p.drawId with
    | .ok (_, t') => ({ p.setTable me t' with nextCapId := p.nextCapId + 1 }, [])
    | .error _ => ({ p with nextCapId := p.nextCapId + 1 }, [])
  | .insertRoot cap => (p.grantIn me t cap .persistent 0, [])
  | .publish _ | .dropProcess _ => (p, [])

/-- A task without a process has no table to work on; a spawned child builds one. -/
def exec (me : TaskId) (s : CapsSec n) : Processes × List (Sec n) :=
  match s with
  | .publish handed => (p.publish me handed, [])
  | .dropProcess child => ({ p with tables := update p.tables child none }, [])
  | s =>
    match p.tables me with
    | some t => p.execOn me t s
    | none => (p, [])

end Processes

/-! ### Steps -/

namespace State

variable (k : State n)

def goOn (me : TaskId) (l : List (Sec n)) : State n := { k with todo := update k.todo me l }

def execSched (h : Fin n) (now : Nat) (rest : List (Sec n)) : SchedSec n → Option (State n)
  | .wake id => some ({ k with sched := k.sched.wake h now id }.goOn (k.sched.current h) rest)
  | .yieldNow =>
    (k.sched.prepareSwitch h now .requeue).map fun s => { k with sched := s }.goOn (k.sched.current h) rest
  | .exitNow =>
    (k.sched.prepareSwitch h now .exit).map fun s => { k with sched := s }.goOn (k.sched.current h) []
  | .reapTask child =>
    some ({ k with sched := k.sched.reapTask child }.goOn (k.sched.current h)
      (.caps (.dropProcess child) :: rest))
  | .spawn hart handed =>
    some (({ k with sched := k.sched.spawn hart now }.goOn k.sched.nextTaskId [.caps (.publish handed)]).goOn
      (k.sched.current h)
      (.reap (.noteSpawn k.sched.nextTaskId) :: .caps (.mintProcessCap k.sched.nextTaskId) :: rest))
  | .killRead handle target =>
    some (k.goOn (k.sched.current h)
      (.sched (.kill handle target (k.sched.current h == target) (k.sched.runningRemote h target)) :: rest))
  | .kill handle target isSelf runningRemote =>
    let r := k.sched.kill target isSelf runningRemote
    some ({ k with sched := r.2 }.goOn (k.sched.current h) (afterKill handle target r.1 ++ rest))

/-- `block_current`. -/
def execPark (h : Fin n) (now : Nat) (rest : List (Sec n)) (r : Resume) : Option (State n) :=
  (k.sched.prepareSwitch h now .block).map fun s =>
    { k with sched := s }.goOn (k.sched.current h) (.resume r :: rest)

def execResume (h : Fin n) (now : Nat) (rest : List (Sec n)) : Resume → State n
  | .sent _ => k.goOn (k.sched.current h) rest
  | .received ep =>
    let r := k.ipc.takeDelivered (k.sched.current h) ep
    { k with ipc := r.1 }.goOn (k.sched.current h) (r.2 ++ rest)
  | .called call =>
    let r := k.ipc.takeReply (k.sched.current h) call
    { k with ipc := r.1 }.goOn (k.sched.current h) (r.2 ++ rest)
  | .notified id deadline =>
    let r := k.notify.recheck now id deadline
    { k with notify := r.1 }.goOn (k.sched.current h) (r.2 ++ rest)
  | .child child =>
    let r := execReap k.reap (k.sched.current h) (.waitFor child)
    { k with reap := r.1 }.goOn (k.sched.current h) (r.2 ++ rest)
  | .anyChild deadline =>
    let r := recheckAny k.reap (k.sched.current h) now deadline
    { k with reap := r.1 }.goOn (k.sched.current h) (r.2 ++ rest)

/-- Hart `h` executes one section of the handler its current task is in. -/
def exec (h : Fin n) (now : Nat) (rest : List (Sec n)) : Sec n → Option (State n)
  | .sched s => k.execSched h now rest s
  | .ipc s =>
    let r := k.ipc.exec (k.sched.current h) s
    some ({ k with ipc := r.1 }.goOn (k.sched.current h) (r.2 ++ rest))
  | .notify s =>
    let r := k.notify.exec (k.sched.current h) s
    some ({ k with notify := r.1 }.goOn (k.sched.current h) (r.2 ++ rest))
  | .reap s =>
    let r := execReap k.reap (k.sched.current h) s
    some ({ k with reap := r.1 }.goOn (k.sched.current h) (r.2 ++ rest))
  | .timeout s =>
    some ({ k with
      timeouts := update k.timeouts h (execTimeout (k.timeouts h) (k.sched.current h) s) }.goOn
        (k.sched.current h) rest)
  | .caps s =>
    let r := k.procs.exec (k.sched.current h) s
    some ({ k with procs := r.1 }.goOn (k.sched.current h) (r.2 ++ rest))
  | .park r => k.execPark h now rest r
  | .resume r => some (k.execResume h now rest r)

end State

/-- The syscalls, with the arguments their handlers read. `Spawn` is `spawn none`, `SpawnOn` names a
hart; the program id and image are not modelled. -/
inductive Syscall (n : Nat)
  | send (h : Handle) (msg : Message) (parent : SpanId)
  | call (h : Handle) (msg : Message) (parent : SpanId)
  | receive (h : Handle)
  | reply (h : Handle) (msg : Message) (transfer : Option Handle)
  | replyRecv (ep : Handle) (prevReply : UInt32) (msg : Message)
  | endpointCreate
  | notifyCreate
  | signal (h : Handle) (mask : UInt64)
  | waitNotify (h : Handle) (deadline : Nat)
  | mintBadged (h : Handle) (badge : UInt64) (rights : Rights)
  | spawn (hart : Option (Fin n)) (handles : List Handle)
  | exit (status : Int)
  | kill (h : Handle)
  | wait (child : TaskId)
  | waitAny (deadline : Nat)
  | yield
deriving DecidableEq

def Syscall.entry (h : Fin n) (me : TaskId) : Syscall n → List (Sec n)
  | .send c msg parent => [.caps (.invokeSend c msg parent false)]
  | .call c msg parent => [.caps (.invokeSend c msg parent true)]
  | .receive c => [.caps (.invokeRecv c)]
  | .reply c msg transfer => [.caps (.replyViaCap c msg transfer none)]
  | .replyRecv ep prevReply msg =>
    if prevReply ≠ 0 then [.caps (.replyViaCap (.fromRaw prevReply) msg none (some ep))]
    else [.caps (.invokeRecv ep)]
  | .endpointCreate => [.ipc .createEndpoint]
  | .notifyCreate => [.notify .create]
  | .signal c mask => [.caps (.invokeSignal c mask)]
  | .waitNotify c deadline => [.caps (.invokeWait c deadline)]
  | .mintBadged c badge rights => [.caps (.mintBadged c badge rights)]
  | .spawn hart handles => [.caps (.delegateFromUser (hart.getD h) handles)]
  | .exit status => [.reap (.noteExit me status), .sched .exitNow]
  | .kill c => [.caps (.invokeKill c)]
  | .wait child => [.reap (.waitFor child)]
  | .waitAny deadline => [.reap (.waitForAny deadline)]
  | .yield => [.sched .yieldNow]

/-- `run` takes the next section of a handler. The others enter the kernel: a syscall, a kernel
task's turn to yield, the timer (which may preempt a process), a user fault, and the checkpoint at
which a task flagged by a kill from another hart ends itself. -/
inductive Label (n : Nat)
  | run (h : Fin n) (now : Nat)
  | syscall (h : Fin n) (sys : Syscall n)
  | yield (h : Fin n)
  | timer (h : Fin n) (now : Nat) (preempt : Bool)
  | fault (h : Fin n)
  | killCheck (h : Fin n)
deriving DecidableEq

namespace State

variable (k : State n)

/-- The current task of `h` is in user mode (or in its kernel task's own loop). -/
def idle (h : Fin n) : Bool := k.todo (k.sched.current h) == []

def isProcess (h : Fin n) : Bool := (k.procs.tables (k.sched.current h)).isSome

def flagged (h : Fin n) : Bool :=
  match k.sched.tasks (k.sched.current h) with
  | some task => task.killRequested
  | none => false

def step : Label n → Option (State n)
  | .run h now =>
    match k.todo (k.sched.current h) with
    | [] => none
    | s :: rest => k.exec h now rest s
  | .syscall h sys =>
    if k.idle h && k.isProcess h then
      some (k.goOn (k.sched.current h) (sys.entry h (k.sched.current h)))
    else none
  | .yield h => if k.idle h then some (k.goOn (k.sched.current h) [.sched .yieldNow]) else none
  | .timer h now preempt =>
    if k.idle h then
      let r := (k.timeouts h).drainExpired now
      some ({ k with timeouts := update k.timeouts h r.2 }.goOn (k.sched.current h)
        (r.1.map Sec.wake ++ if preempt && k.isProcess h then [Sec.sched .yieldNow] else []))
    else none
  | .fault h =>
    if k.idle h && k.isProcess h then
      some (k.goOn (k.sched.current h)
        [.reap (.noteExit (k.sched.current h) faultedStatus), .sched .exitNow])
    else none
  | .killCheck h =>
    if k.idle h && k.isProcess h && k.flagged h then
      some (k.goOn (k.sched.current h)
        [.reap (.noteExit (k.sched.current h) killedStatus), .sched .exitNow])
    else none

end State

end SnitchOs.Kernel
