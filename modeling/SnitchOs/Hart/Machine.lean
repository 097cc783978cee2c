import SnitchOs.Kernel.Exec
import SnitchOs.Proc.Elf

/-!
# The harts

The scheduler as the harts run it: what a context switch does after the scheduler's lock is dropped, with the kernel
stacks and saved contexts, the address spaces and the floating-point unit. `prepareSwitch` publishes the outgoing task
and makes the next one current; the hart then loads the next task's address space, saves the floating-point registers,
stores the outgoing context and loads the next one. Between any two of these another hart may step.

A task's `todo` is what is left of the kernel code it is in, one entry per locked section or register access; with
nothing left it is in user mode or in its kernel loop. What makes a task block or wake is left open: it may block in
any call, and be woken at any time.

Reaping gives a task's root and stack slot back at once. Ghost state: `outs` and `saved` number the times a task was
switched out, `created` and `activated` when a root was made and last loaded, `cleared` the tasks that gave up their
process in `Exit`, and `log` what floating-point instructions did.
-/

namespace SnitchOs.Hart

open Kernel Sched Proc Function

/-! ### Stacks and contexts -/

abbrev Slot := Nat

structure KStacks where
  slot : TaskId → Slot
  inUse : List Slot
  /-- How often the task was switched out to be resumed later. -/
  outs : TaskId → Nat := fun _ => 0
  /-- The switch-out whose registers its context holds; `0` is the initial context. -/
  saved : TaskId → Nat := fun _ => 0

/-- Task `out` is being switched out. -/
def KStacks.switchOut (k : KStacks) (out : TaskId) (d : CurrentDisposition) : KStacks :=
  match d with
  | .exit => k
  | .requeue | .block => { k with outs := update k.outs out (k.outs out + 1) }

/-! ### Address spaces -/

abbrev Root := Nat

/-- `address_space_switch`: the root to load, if any. -/
def addressSpaceSwitch (activeRoot : Root) : Option Root → Option Root
  | some root => if root ≠ activeRoot then some root else none
  | none => none

/-- A pointer to a process is the id of the task whose stack holds it. -/
structure Spaces (n : Nat) where
  bootRoot : Root
  root : TaskId → Option Root := fun _ => none
  inUse : List Root
  satp : Fin n → Root
  currentProcess : Fin n → Option TaskId := fun _ => none
  /-- The task has entered user mode. -/
  user : TaskId → Bool := fun _ => false
  cleared : TaskId → Bool := fun _ => false
  created : TaskId → Nat := fun _ => 0
  activated : Fin n → Nat := fun _ => 0
  clock : Nat := 0

namespace Spaces

variable {n : Nat} (s : Spaces n)

def activate (h : Fin n) (root : Root) : Spaces n :=
  { s with
    satp := update s.satp h root
    activated := update s.activated h s.clock
    clock := s.clock + 1 }

def setProcess (h : Fin n) (p : Option TaskId) : Spaces n :=
  { s with currentProcess := update s.currentProcess h p }

/-- `switch_address_space`. -/
def switchTo (h : Fin n) (nextRoot : Option Root) (next : TaskId) : Spaces n :=
  match addressSpaceSwitch (s.satp h) nextRoot with
  | some root => (s.activate h root).setProcess h (some next)
  | none => s

end Spaces

/-! ### The floating-point unit -/

inductive FpState
  | off
  | initial
  | clean
  | dirty
deriving DecidableEq

/-- `f0` to `f31`, and `fcsr` as number `32`. -/
abbrev FpRegs := Fin 33 → UInt64

inductive FpEnableDecision
  | enable
  | refuseUnauthorised
  | notFpRelated
deriving DecidableEq

def enableDecision (authorised fsOff : Bool) : FpEnableDecision :=
  if !fsOff then .notFpRelated
  else if !authorised then .refuseUnauthorised
  else .enable

structure SwitchAction where
  saveOutgoing : Bool
  restoreIncoming : Bool
  incomingFs : FpState
deriving DecidableEq

def switchAction (outgoingFs : FpState) (incomingOwnsFp : Bool) : SwitchAction where
  saveOutgoing := outgoingFs == .dirty
  restoreIncoming := incomingOwnsFp
  incomingFs := if incomingOwnsFp then .clean else .off

inductive FpEvent
  | wrote (t : TaskId) (r : Fin 33) (v : UInt64)
  | read (t : TaskId) (r : Fin 33) (v : UInt64)
deriving DecidableEq

/-- `fs` is the live `sstatus.FS`, `frameFs` the copy in a task's trap frame, `area` the registers
saved in its context. -/
structure FpUnit (n : Nat) where
  regs : Fin n → FpRegs
  fs : Fin n → FpState := fun _ => .off
  frameFs : TaskId → FpState := fun _ => .off
  area : TaskId → FpRegs := fun _ _ => 0
  abi : TaskId → FloatAbi := fun _ => .soft
  authorised : TaskId → Bool := fun _ => false
  enabled : TaskId → Bool := fun _ => false
  log : List FpEvent := []

namespace FpUnit

variable {n : Nat} (f : FpUnit n)

def setFs (h : Fin n) (s : FpState) : FpUnit n := { f with fs := update f.fs h s }

def saveBeforeSwitch (h : Fin n) (out : TaskId) : FpUnit n :=
  let action := switchAction (f.fs h) false
  { f with
    area := if action.saveOutgoing then update f.area out (f.regs h) else f.area
    fs := update f.fs h .off }

def releaseBeforeExit (h : Fin n) : FpUnit n := f.setFs h .off

/-- `restore_after_switch`, where `owns` is `current_owns_fp`. -/
def restoreAfterSwitch (h : Fin n) (me : TaskId) (owns : Bool) : FpUnit n :=
  let action := switchAction .off owns
  { f with
    regs := if action.restoreIncoming then update f.regs h (f.area me) else f.regs
    fs := update f.fs h action.incomingFs }

/-- `current_owns_fp`, with the hart's `CURRENT_PROCESS`. -/
def ownsFp (process : Option TaskId) : Bool := process.any f.enabled

end FpUnit

/-! ### Kernel code -/

inductive SpawnKind
  | kernel
  | user (abi : FloatAbi)
deriving DecidableEq

inductive Op (n : Nat)
  | wake (id : TaskId)
  | yieldNow
  | block
  | exitNow
  | flagOwnerless
  | clearProcess
  | noteExit (child : TaskId) (status : Int)
  | waitFor (child : TaskId)
  | waitForAny (turns : Nat)
  | cancelWaitAny
  | reapTask (child : TaskId)
  | collectOwnerless
  | sweep (id : TaskId)
  | spawn (hart : Fin n) (kind : SpawnKind)
  | noteSpawn (child : TaskId)
  | killRead (target : TaskId)
  | kill (target : TaskId) (isSelf runningRemote : Bool)
  | newUserRoot
  | publish
  | setAddressSpace (root : Root)
  | enterUser (root : Root)
  | tryEnable (armed : Bool)
  | checkpoint (armed : Bool)
  | sret
  | restoreFp
deriving DecidableEq

/-- Where a hart is in a switch: after the lock was dropped, before each of these. -/
inductive Stage
  | space
  | fp
  | store
  | load
deriving DecidableEq

/-- A switch under way; `root` was read under the lock. A switch away from an exiting task is one-way. -/
structure Switch where
  out : TaskId
  next : TaskId
  twoWay : Bool
  root : Option Root
  stage : Stage
deriving DecidableEq

def Switch.start (out next : TaskId) (d : CurrentDisposition) (root : Option Root) : Switch where
  out := out
  next := next
  twoWay := d != .exit
  root := root
  stage := .space

/-- How a task switched out goes on when it is switched to again. -/
def resumeWith {n : Nat} (d : CurrentDisposition) (rest : List (Op n)) : List (Op n) :=
  match d with
  | .exit => []
  | .requeue | .block => .restoreFp :: rest

def Switch.following (sw : Switch) : Option Switch :=
  match sw.stage with
  | .space => some { sw with stage := .fp }
  | .fp => some { sw with stage := if sw.twoWay then .store else .load }
  | .store => some { sw with stage := .load }
  | .load => none

structure Machine (n : Nat) where
  sched : Scheduler n
  ownerless : TaskId → Bool := fun _ => false
  reap : ReapTable := {}
  todo : TaskId → List (Op n) := fun _ => []
  switching : Fin n → Option Switch := fun _ => none
  kstacks : KStacks
  spaces : Spaces n
  fp : FpUnit n

namespace Machine

variable {n : Nat} (m : Machine n)

/-- The task on whose kernel stack hart `h` executes: until the next context is loaded, the outgoing
one. -/
def executing (h : Fin n) : TaskId :=
  match m.switching h with
  | some sw => sw.out
  | none => m.sched.current h

def goOn (me : TaskId) (l : List (Op n)) : Machine n := { m with todo := update m.todo me l }

/-- Pick the next task and start to switch to it; with nothing ready the current task goes on. -/
def switchOut (h : Fin n) (now : Nat) (d : CurrentDisposition) (rest : List (Op n)) :
    Option (Machine n) :=
  let me := m.sched.current h
  (m.sched.prepareSwitch h now d).map fun s =>
    if m.sched.runqueues h = [] then m.goOn me rest
    else
      { m with
        sched := s
        switching := update m.switching h
          (some (Switch.start me (s.current h) d (m.spaces.root (s.current h))))
        kstacks := m.kstacks.switchOut me d }.goOn me (resumeWith d rest)

def advance (h : Fin n) (sw : Switch) : Machine n :=
  let m' := { m with switching := update m.switching h sw.following }
  match sw.stage with
  | .space => { m' with spaces := m.spaces.switchTo h sw.root sw.next }
  | .fp =>
    { m' with fp := if sw.twoWay then m.fp.saveBeforeSwitch h sw.out else m.fp.releaseBeforeExit h }
  | .store =>
    { m' with kstacks := { m.kstacks with
      saved := update m.kstacks.saved sw.out (m.kstacks.outs sw.out) } }
  | .load => m'

/-- `task` leaves the table; its root and stack slot are free again. -/
def remove (task : TaskId) : Machine n :=
  { m with
    sched := m.sched.reapTask task
    kstacks := { m.kstacks with inUse := m.kstacks.inUse.erase (m.kstacks.slot task) }
    spaces := { m.spaces with
      inUse := match m.spaces.root task with
        | some root => m.spaces.inUse.erase root
        | none => m.spaces.inUse } }

/-- The exited tasks nobody will wait for. -/
def ownerlessExited : List TaskId :=
  (List.range m.sched.nextTaskId).filter fun id =>
    m.ownerless id && (m.sched.tasks id).any (·.state == .exited)

/-- A new task on `hart`, with stack slot `slot`. -/
def spawn (hart : Fin n) (now : Nat) (kind : SpawnKind) (slot : Slot) : Machine n :=
  let id := m.sched.nextTaskId
  { m with
    sched := m.sched.spawn hart now
    kstacks := { m.kstacks with
      slot := update m.kstacks.slot id slot
      inUse := slot :: m.kstacks.inUse }
    fp := match kind with
      | .kernel => m.fp
      | .user abi => { m.fp with abi := update m.fp.abi id abi } }.goOn id
    (match kind with
    | .kernel => []
    | .user _ => [.newUserRoot])

def flagged (me : TaskId) : Bool := (m.sched.tasks me).any (·.killRequested)

def faultProgram (me : TaskId) (status : Int) : List (Op n) :=
  [.clearProcess, .noteExit me status, .exitNow]

def tryEnable (h : Fin n) (armed : Bool) : Machine n :=
  let me := m.sched.current h
  match m.spaces.currentProcess h with
  | none => m.goOn me (faultProgram me faultedStatus)
  | some p =>
    match enableDecision (m.fp.authorised p) (m.fp.frameFs me == .off) with
    | .enable =>
      { m with fp := { m.fp with
        frameFs := update m.fp.frameFs me .initial
        enabled := update m.fp.enabled p true } }.goOn me [.checkpoint armed, .sret]
    | .refuseUnauthorised | .notFpRelated => m.goOn me (faultProgram me faultedStatus)

/-- Hart `h` executes one entry; `frame` is the slot or root an allocation is handed. -/
def exec (h : Fin n) (now frame : Nat) (rest : List (Op n)) : Op n → Option (Machine n)
  | .wake id => some ({ m with sched := m.sched.wake h now id }.goOn (m.sched.current h) rest)
  | .yieldNow => m.switchOut h now .requeue rest
  | .block => m.switchOut h now .block rest
  | .exitNow => m.switchOut h now .exit rest
  | .flagOwnerless =>
    some ({ m with ownerless := update m.ownerless (m.sched.current h) true }.goOn
      (m.sched.current h) rest)
  | .clearProcess =>
    some ({ m with spaces := { m.spaces.setProcess h none with
      cleared := update m.spaces.cleared (m.sched.current h) true } }.goOn
      (m.sched.current h) rest)
  | .noteExit child status =>
    match m.reap.onExit child status with
    | (some parent, r) => some ({ m with reap := r }.goOn (m.sched.current h) (.wake parent :: rest))
    | (none, r) => some ({ m with reap := r }.goOn (m.sched.current h) rest)
  | .waitFor child =>
    match m.reap.onWait (m.sched.current h) child with
    | (.ready _, r) => some ({ m with reap := r }.goOn (m.sched.current h) (.reapTask child :: rest))
    | (.block, r) => some ({ m with reap := r }.goOn (m.sched.current h) (.block :: .waitFor child :: rest))
  | .waitForAny turns =>
    match m.reap.onWaitAny (m.sched.current h), turns with
    | (.ready child _, r), _ =>
      some ({ m with reap := r }.goOn (m.sched.current h) (.reapTask child :: rest))
    | (.block, r), 0 => some ({ m with reap := r }.goOn (m.sched.current h) (.cancelWaitAny :: rest))
    | (.block, r), turns + 1 =>
      some ({ m with reap := r }.goOn (m.sched.current h) (.block :: .waitForAny turns :: rest))
  | .cancelWaitAny =>
    some ({ m with reap := m.reap.cancelWaitAny (m.sched.current h) }.goOn (m.sched.current h) rest)
  | .reapTask child | .sweep child =>
    if (m.sched.tasks child).isSome then some ((m.remove child).goOn (m.sched.current h) rest)
    else some (m.goOn (m.sched.current h) rest)
  | .collectOwnerless => some (m.goOn (m.sched.current h) (m.ownerlessExited.map .sweep ++ rest))
  | .spawn hart kind =>
    if frame ∈ m.kstacks.inUse then none
    else some ((m.spawn hart now kind frame).goOn (m.sched.current h)
      (if m.spaces.user (m.sched.current h) then .noteSpawn m.sched.nextTaskId :: rest else rest))
  | .noteSpawn child =>
    some ({ m with reap := m.reap.onSpawn (m.sched.current h) child }.goOn (m.sched.current h) rest)
  | .killRead target =>
    some (m.goOn (m.sched.current h)
      (.kill target (m.sched.current h == target) (m.sched.runningRemote h target) :: rest))
  | .kill target isSelf remote =>
    let r := m.sched.kill target isSelf remote
    some ({ m with sched := r.2 }.goOn (m.sched.current h)
      (if r.1 = KillOutcome.killed then .noteExit target killedStatus :: rest else rest))
  | .newUserRoot =>
    if frame ∈ m.spaces.inUse then none
    else some ({ m with spaces := { m.spaces with
        inUse := frame :: m.spaces.inUse
        created := update m.spaces.created (m.sched.current h) m.spaces.clock
        clock := m.spaces.clock + 1 } }.goOn (m.sched.current h)
      (.publish :: .setAddressSpace frame :: .enterUser frame :: rest))
  | .publish =>
    some ({ m with spaces := m.spaces.setProcess h (some (m.sched.current h)) }.goOn
      (m.sched.current h) rest)
  | .setAddressSpace root =>
    some ({ m with spaces := { m.spaces with
      root := update m.spaces.root (m.sched.current h) (some root) } }.goOn
      (m.sched.current h) rest)
  | .enterUser root =>
    some ({ m with
      spaces := { m.spaces.activate h root with
        user := update m.spaces.user (m.sched.current h) true }
      fp := { m.fp.setFs h .off with
        authorised := update m.fp.authorised (m.sched.current h)
          (m.fp.abi (m.sched.current h)).usesHardwareFp } }.goOn (m.sched.current h) rest)
  | .tryEnable armed => some (m.tryEnable h armed)
  | .checkpoint armed =>
    if armed && m.flagged (m.sched.current h) then
      some (m.goOn (m.sched.current h) [.noteExit (m.sched.current h) killedStatus, .exitNow])
    else some (m.goOn (m.sched.current h) rest)
  | .sret =>
    some ({ m with fp := m.fp.setFs h (m.fp.frameFs (m.sched.current h)) }.goOn (m.sched.current h) rest)
  | .restoreFp =>
    let owns := m.fp.ownsFp (m.spaces.currentProcess h)
    some ({ m with fp := m.fp.restoreAfterSwitch h (m.sched.current h) owns }.goOn
      (m.sched.current h) rest)

end Machine

/-! ### Steps -/

/-- What user code asks for; `exit` is `Exit` or a fault, `yield` also a preemption, and `block` and
`wake` stand for the calls that do. -/
inductive UserCall (n : Nat)
  | yield
  | block
  | wake (id : TaskId)
  | exit (status : Int)
  | wait (child : TaskId)
  | waitAny (turns : Nat)
  | kill (target : TaskId)
  | spawn (hart : Fin n) (abi : FloatAbi)
deriving DecidableEq

/-- What a kernel task does; `exit` is `exit_now` and `sweep` is `reap_ownerless_exited`. -/
inductive KernelCall (n : Nat)
  | yield
  | block
  | wake (id : TaskId)
  | exit
  | sweep
  | spawn (hart : Fin n) (kind : SpawnKind)
deriving DecidableEq

def UserCall.program {n : Nat} (me : TaskId) (armed : Bool) : UserCall n → List (Op n)
  | .yield => [.yieldNow, .checkpoint armed, .sret]
  | .block => [.block, .checkpoint armed, .sret]
  | .wake id => [.wake id, .checkpoint armed, .sret]
  | .exit status => Machine.faultProgram me status
  | .wait child => [.waitFor child, .checkpoint armed, .sret]
  | .waitAny turns => [.waitForAny turns, .checkpoint armed, .sret]
  | .kill target => [.killRead target, .checkpoint armed, .sret]
  | .spawn hart abi => [.spawn hart (.user abi), .checkpoint armed, .sret]

def KernelCall.program {n : Nat} : KernelCall n → List (Op n)
  | .yield => [.yieldNow]
  | .block => [.block]
  | .wake id => [.wake id]
  | .exit => [.flagOwnerless, .exitNow]
  | .sweep => [.collectOwnerless]
  | .spawn hart kind => [.spawn hart kind]

/-- `run` executes the next entry of the current task, `stage` the next step of a switch. An interrupt
may wake a task on any hart at any time. -/
inductive Label (n : Nat)
  | run (h : Fin n) (now frame : Nat)
  | stage (h : Fin n)
  | interrupt (h : Fin n) (now : Nat) (id : TaskId)
  | kernel (h : Fin n) (call : KernelCall n)
  | trap (h : Fin n) (call : UserCall n) (armed : Bool)
  | fpTrap (h : Fin n) (armed : Bool)
  | fpWrite (h : Fin n) (r : Fin 33) (v : UInt64)
  | fpRead (h : Fin n) (r : Fin 33)
deriving DecidableEq

namespace Machine

variable {n : Nat} (m : Machine n)

def settled (h : Fin n) : Bool := m.switching h == none && m.todo (m.sched.current h) == []

def inUser (h : Fin n) : Bool := m.settled h && m.spaces.user (m.sched.current h)

/-- A trap keeps the live floating-point state in the frame. -/
def enter (h : Fin n) (l : List (Op n)) : Machine n :=
  { m with fp := { m.fp with
    frameFs := update m.fp.frameFs (m.sched.current h) (m.fp.fs h) } }.goOn
    (m.sched.current h) l

def step : Label n → Option (Machine n)
  | .run h now frame =>
    match m.switching h, m.todo (m.sched.current h) with
    | none, op :: rest => m.exec h now frame rest op
    | _, _ => none
  | .stage h =>
    match m.switching h with
    | some sw => some (m.advance h sw)
    | none => none
  | .interrupt h now id => some { m with sched := m.sched.wake h now id }
  | .kernel h call =>
    if m.settled h && !m.spaces.user (m.sched.current h) then
      some (m.goOn (m.sched.current h) call.program)
    else none
  | .trap h call armed =>
    if m.inUser h then some (m.enter h (call.program (m.sched.current h) armed)) else none
  | .fpTrap h armed =>
    if m.inUser h && m.fp.fs h == .off then some (m.enter h [.tryEnable armed]) else none
  | .fpWrite h r v =>
    if m.inUser h && m.fp.fs h != .off then
      some { m with fp := { m.fp with
        regs := update m.fp.regs h (update (m.fp.regs h) r v)
        fs := update m.fp.fs h .dirty
        log := m.fp.log ++ [.wrote (m.sched.current h) r v] } }
    else none
  | .fpRead h r =>
    if m.inUser h && m.fp.fs h != .off then
      some { m with fp := { m.fp with
        log := m.fp.log ++ [.read (m.sched.current h) r (m.fp.regs h r)] } }
    else none

end Machine

/-- Hart `h` starts in its own kernel task, number `h`, on its boot stack, with the floating-point unit
off and its registers as the firmware left them. -/
def boot {n : Nat} (bootRoot : Root) (regs : Fin n → FpRegs) : Machine n where
  sched := {
    tasks := fun id => if id < n then some { state := .running } else none
    nextTaskId := n
    runqueues := fun _ => []
    current := fun h => h.val }
  kstacks := { slot := id, inUse := List.range n }
  spaces := { bootRoot, inUse := [bootRoot], satp := fun _ => bootRoot }
  fp := { regs }

end SnitchOs.Hart
