import SnitchOs.Kernel.Exec

/-!
# What a section goes on with

`Emits s new`: a handler that executed the section `s` may have `new` to do before the rest. This is
all that the shape of the handlers, as opposed to the data they work on, depends on.
-/

namespace SnitchOs.Kernel

open Cap Ipc Notify Sched Function List

variable {n : Nat}

inductive Emits : Sec n → List (Sec n) → Prop
  | wake (id : TaskId) : Emits (.wake id) []
  | yieldNow : Emits (.sched .yieldNow) []
  | reapTask (child : TaskId) : Emits (.sched (.reapTask child)) [.caps (.dropProcess child)]
  | spawn (hart : Fin n) (handed : List Moved) (child : TaskId) :
      Emits (.sched (.spawn hart handed)) [.reap (.noteSpawn child), .caps (.mintProcessCap child)]
  | killRead (handle : Handle) (target : TaskId) (isSelf remote : Bool) :
      Emits (.sched (.killRead handle target)) [.sched (.kill handle target isSelf remote)]
  | kill (handle : Handle) (target : TaskId) (isSelf remote : Bool) (o : KillOutcome) :
      Emits (.sched (.kill handle target isSelf remote)) (afterKill handle target o)
  | sendDeliver {ep : EndpointId} {msg : Message} {parent : SpanId} {badge : UInt64} (peer : TaskId) :
      Emits (.ipc (.sendBegin ep msg parent badge)) [.wake peer]
  | sendBlock {ep : EndpointId} {msg : Message} {parent : SpanId} {badge : UInt64} :
      Emits (.ipc (.sendBegin ep msg parent badge)) [.park (.sent ep)]
  | callDeliver {ep : EndpointId} {msg : Message} {parent : SpanId} {badge : UInt64} (peer : TaskId)
      (call : CallNo) : Emits (.ipc (.callBegin ep msg parent badge)) [.wake peer, .park (.called call)]
  | callBlock {ep : EndpointId} {msg : Message} {parent : SpanId} {badge : UInt64} (call : CallNo) :
      Emits (.ipc (.callBegin ep msg parent badge)) [.park (.called call)]
  | receiveSent (ep : EndpointId) (d : Delivered) (peer : TaskId) :
      Emits (.ipc (.receiveBegin ep)) [.wake peer, .caps (.replyHandleFor d)]
  | receiveCalled (ep : EndpointId) (d : Delivered) :
      Emits (.ipc (.receiveBegin ep)) [.caps (.replyHandleFor d)]
  | receiveBlock (ep : EndpointId) : Emits (.ipc (.receiveBegin ep)) [.park (.received ep)]
  | stashReply (caller : TaskId) (reply : StashedReply) : Emits (.ipc (.stashReply caller reply)) []
  | cancelEndpoints (target : TaskId) : Emits (.ipc (.cancelEndpoints target)) []
  | cancelReplies (target : TaskId) : Emits (.ipc (.cancelReplies target)) []
  | createEndpoint (cap : Capability) : Emits (.ipc .createEndpoint) [.caps (.insertRoot cap)]
  | signalWoke {id : NotificationId} {mask : UInt64} (waiter : TaskId) :
      Emits (.notify (.signal id mask)) [.wake waiter]
  | notifyBlock (id : NotificationId) (deadline : Nat) :
      Emits (.notify (.wait id deadline)) [.timeout (.register deadline), .park (.notified id deadline)]
  | notifyCreate (cap : Capability) : Emits (.notify .create) [.caps (.insertRoot cap)]
  | notifyDone (s : NotifySec) : Emits (.notify s) []
  | waitForReady (child : TaskId) : Emits (.reap (.waitFor child)) [.sched (.reapTask child)]
  | waitForBlock (child : TaskId) : Emits (.reap (.waitFor child)) [.park (.child child)]
  | waitAnyReady (deadline : Nat) (child : TaskId) :
      Emits (.reap (.waitForAny deadline)) [.sched (.reapTask child)]
  | waitAnyBlock (deadline : Nat) :
      Emits (.reap (.waitForAny deadline)) [.timeout (.register deadline), .park (.anyChild deadline)]
  | noteExitWake {child : TaskId} {status : Int} (parent : TaskId) :
      Emits (.reap (.noteExit child status)) [.wake parent]
  | reapDone (s : ReapSec) : Emits (.reap s) []
  | timeout (s : TimeoutSec) : Emits (.timeout s) []
  | invokeSend {h : Handle} {msg : Message} {parent : SpanId} (ep : EndpointId) (badge : UInt64) :
      Emits (.caps (.invokeSend h msg parent false)) [.ipc (.sendBegin ep msg parent badge)]
  | invokeCall {h : Handle} {msg : Message} {parent : SpanId} (ep : EndpointId) (badge : UInt64) :
      Emits (.caps (.invokeSend h msg parent true)) [.ipc (.callBegin ep msg parent badge)]
  | invokeRecv {h : Handle} (ep : EndpointId) : Emits (.caps (.invokeRecv h)) [.ipc (.receiveBegin ep)]
  | reply {h : Handle} {msg : Message} {transfer : Option Handle} (caller : TaskId) (reply : StashedReply) :
      Emits (.caps (.replyViaCap h msg transfer none)) [.ipc (.stashReply caller reply), .wake caller]
  | replyRecv {h : Handle} {msg : Message} {transfer : Option Handle} (ep : Handle) (caller : TaskId)
      (reply : StashedReply) : Emits (.caps (.replyViaCap h msg transfer (some ep)))
        [.ipc (.stashReply caller reply), .wake caller, .caps (.invokeRecv ep)]
  | invokeSignal {h : Handle} {mask : UInt64} (id : NotificationId) :
      Emits (.caps (.invokeSignal h mask)) [.notify (.signal id mask)]
  | invokeWait {h : Handle} {deadline : Nat} (id : NotificationId) :
      Emits (.caps (.invokeWait h deadline)) [.notify (.wait id deadline)]
  | invokeKill {h : Handle} (target : TaskId) : Emits (.caps (.invokeKill h)) [.sched (.killRead h target)]
  | delegate {hart : Fin n} {handles : List Handle} (handed : List Moved) :
      Emits (.caps (.delegateFromUser hart handles)) [.sched (.spawn hart handed)]
  | capsDone (s : CapsSec n) : Emits (.caps s) []
  | park (r : Resume) : Emits (.park r) [.resume r]
  | sent (ep : EndpointId) : Emits (.resume (.sent ep)) []
  | received (ep : EndpointId) (d : Delivered) : Emits (.resume (.received ep)) [.caps (.replyHandleFor d)]
  | called (call : CallNo) : Emits (.resume (.called call)) []
  | calledWith (call : CallNo) (m : Moved) : Emits (.resume (.called call)) [.caps (.insertMoved m)]
  | notified (id : NotificationId) (deadline : Nat) :
      Emits (.resume (.notified id deadline)) [.timeout .cancel]
  | notifiedLate (id : NotificationId) (deadline : Nat) :
      Emits (.resume (.notified id deadline)) [.notify (.cancelWait id), .timeout .cancel]
  | notifiedAgain (id : NotificationId) (deadline : Nat) :
      Emits (.resume (.notified id deadline)) [.park (.notified id deadline)]
  | child (child : TaskId) : Emits (.resume (.child child)) [.sched (.reapTask child)]
  | childAgain (child : TaskId) : Emits (.resume (.child child)) [.park (.child child)]
  | anyChild (deadline : Nat) (child : TaskId) :
      Emits (.resume (.anyChild deadline)) [.timeout .cancel, .sched (.reapTask child)]
  | anyChildLate (deadline : Nat) :
      Emits (.resume (.anyChild deadline)) [.reap .cancelWaitAny, .timeout .cancel]
  | anyChildAgain (deadline : Nat) : Emits (.resume (.anyChild deadline)) [.park (.anyChild deadline)]

/-! ### Each subsystem -/

theorem IpcState.exec_emits (i : IpcState) (me : TaskId) (s : IpcSec) : Emits (n := n) (.ipc s) (i.exec me s).2 := by
  cases s with
  | sendBegin ep msg parent badge =>
    simp only [exec, sendBegin]
    split
    · exact .sendDeliver _
    · exact .sendBlock
  | callBegin ep msg parent badge =>
    simp only [exec, callBegin]
    split
    · exact .callDeliver _ _
    · exact .callBlock _
  | receiveBegin ep =>
    simp only [exec, receiveBegin]
    split
    · next d peer e _ =>
      cases d.replyTo with
      | none => exact .receiveSent ep d peer
      | some c => exact .receiveCalled ep d
    · exact .receiveBlock ep
  | stashReply caller reply => exact .stashReply caller reply
  | cancelEndpoints target => exact .cancelEndpoints target
  | cancelReplies target => exact .cancelReplies target
  | createEndpoint => exact .createEndpoint _

theorem NotifyTable.exec_emits (t : NotifyTable) (me : TaskId) (s : NotifySec) : Emits (n := n) (.notify s) (t.exec me s).2 := by
  cases s with
  | signal id mask =>
    simp only [exec]
    split
    · exact .notifyDone _
    split
    · exact .signalWoke _
    · exact .notifyDone _
  | wait id deadline =>
    simp only [exec]
    split
    · exact .notifyDone _
    split
    · exact .notifyDone _
    · exact .notifyBlock id deadline
    · exact .notifyDone _
  | cancelWait id =>
    simp only [exec]
    split <;> exact .notifyDone _
  | create => exact .notifyCreate _

theorem NotifyTable.recheck_emits (t : NotifyTable) (now : Nat) (id : NotificationId) (deadline : Nat) :
    Emits (n := n) (.resume (.notified id deadline)) (t.recheck now id deadline).2 := by
  simp only [recheck]
  split
  · exact .notified id deadline
  split
  · exact .notifiedLate id deadline
  · exact .notifiedAgain id deadline

theorem execReap_emits (r : ReapTable) (me : TaskId) (s : ReapSec) : Emits (n := n) (.reap s) (execReap r me s).2 := by
  cases s with
  | waitFor child =>
    simp only [execReap]
    split
    · exact .waitForReady child
    · exact .waitForBlock child
  | waitForAny deadline =>
    simp only [execReap]
    split
    · exact .waitAnyReady deadline _
    · exact .waitAnyBlock deadline
  | noteExit child status =>
    simp only [execReap]
    split
    · exact .noteExitWake _
    · exact .reapDone _
  | cancelWaitAny | noteSpawn child => exact .reapDone _

theorem execReap_child_emits (r : ReapTable) (me child : TaskId) :
    Emits (n := n) (.resume (.child child)) (execReap r me (.waitFor child)).2 := by
  simp only [execReap]
  split
  · exact .child child
  · exact .childAgain child

theorem recheckAny_emits (r : ReapTable) (me : TaskId) (now deadline : Nat) :
    Emits (n := n) (.resume (.anyChild deadline)) (recheckAny r me now deadline).2 := by
  simp only [recheckAny]
  split
  · exact .anyChild deadline _
  split
  · exact .anyChildLate deadline
  · exact .anyChildAgain deadline

theorem Processes.execOn_emits (p : Processes) (me : TaskId) (t : CapTable) (s : CapsSec n) :
    Emits (.caps s) (p.execOn me t s).2 := by
  cases s with
  | invokeSend h msg parent call =>
    simp only [execOn]
    split
    · cases call with
      | true => exact .invokeCall _ _
      | false => exact .invokeSend _ _
    · exact .capsDone _
  | invokeRecv h =>
    simp only [execOn]
    split
    · exact .invokeRecv _
    · exact .capsDone _
  | replyViaCap h msg transfer recv =>
    simp only [execOn]
    split
    · cases recv with
      | none => exact .reply _ _
      | some ep => exact .replyRecv ep _ _
    · exact .capsDone _
  | invokeSignal h mask =>
    simp only [execOn]
    split
    · exact .invokeSignal _
    · exact .capsDone _
  | invokeWait h deadline =>
    simp only [execOn]
    split
    · exact .invokeWait _
    · exact .capsDone _
  | invokeKill h =>
    simp only [execOn]
    split
    · exact .invokeKill _
    · exact .capsDone _
  | delegateFromUser hart handles =>
    simp only [execOn]
    split
    · exact .delegate _
    · exact .capsDone _
  | replyHandleFor d | mintBadged h badge rights =>
    simp only [execOn]
    split <;> exact .capsDone _
  | _ => exact .capsDone _

theorem Processes.exec_emits (p : Processes) (me : TaskId) (s : CapsSec n) : Emits (.caps s) (p.exec me s).2 := by
  unfold exec
  split
  · exact .capsDone _
  · exact .capsDone _
  split
  · exact p.execOn_emits me _ s
  · exact .capsDone _

/-! ### The whole kernel -/

/-- The section may switch, or change a task's state. -/
def Sec.schedules : Sec n → Bool
  | .sched (.killRead ..) => false
  | .sched _ | .park _ => true
  | _ => false

/-- What is left of the handler after the section. -/
def Sec.leaves (rest : List (Sec n)) : Sec n → List (Sec n)
  | .sched .exitNow => []
  | _ => rest

variable {s x : Sec n} {t : TaskId}

theorem Emits.leaves (he : Emits s new) (rest : List (Sec n)) : s.leaves rest = rest := by
  cases he <;> rfl

theorem Sec.mem_leaves (hx : x ∈ s.leaves rest) : x ∈ rest := by
  unfold leaves at hx
  split at hx
  · cases hx
  · exact hx

namespace State

variable {k k' : State n} {h : Fin n} {now : Nat} {rest : List (Sec n)} {s : Sec n}

/-- The handlers other than the one that steps are left alone, but for the child a spawn creates. -/
def others (k : State n) : Sec n → TaskId → List (Sec n)
  | .sched (.spawn _ handed) => update k.todo k.sched.nextTaskId [.caps (.publish handed)]
  | _ => k.todo

/-- What the handler of hart `h`'s current task does after `s`, before the rest. -/
def emitted (k : State n) (h : Fin n) (now : Nat) : Sec n → List (Sec n)
  | .sched (.wake _) | .sched .yieldNow | .sched .exitNow | .timeout _ | .resume (.sent _) => []
  | .sched (.reapTask child) => [.caps (.dropProcess child)]
  | .sched (.spawn _ _) =>
    [.reap (.noteSpawn k.sched.nextTaskId), .caps (.mintProcessCap k.sched.nextTaskId)]
  | .sched (.killRead handle target) =>
    [.sched (.kill handle target (k.sched.current h == target) (k.sched.runningRemote h target))]
  | .sched (.kill handle target isSelf remote) => afterKill handle target (k.sched.kill target isSelf remote).1
  | .ipc s => (k.ipc.exec (k.sched.current h) s).2
  | .notify s => (k.notify.exec (k.sched.current h) s).2
  | .reap s => (execReap k.reap (k.sched.current h) s).2
  | .caps s => (k.procs.exec (k.sched.current h) s).2
  | .park r => [.resume r]
  | .resume (.received ep) => (k.ipc.takeDelivered (k.sched.current h) ep).2
  | .resume (.called call) => (k.ipc.takeReply (k.sched.current h) call).2
  | .resume (.notified id deadline) => (k.notify.recheck now id deadline).2
  | .resume (.child child) => (execReap k.reap (k.sched.current h) (.waitFor child)).2
  | .resume (.anyChild deadline) => (recheckAny k.reap (k.sched.current h) now deadline).2

theorem emits_emitted (k : State n) (h : Fin n) (now : Nat) (s : Sec n) : s = .sched .exitNow ∨ Emits s (k.emitted h now s) := by
  by_cases hs : s = .sched .exitNow
  · exact .inl hs
  right
  cases s with
  | sched s =>
    cases s with
    | wake id => exact .wake id
    | yieldNow => exact .yieldNow
    | exitNow => exact absurd rfl hs
    | reapTask child => exact .reapTask child
    | spawn hart handed => exact .spawn hart handed _
    | killRead handle target => exact .killRead handle target _ _
    | kill handle target isSelf remote => exact .kill handle target isSelf remote _
  | ipc s => exact k.ipc.exec_emits _ s
  | notify s => exact k.notify.exec_emits _ s
  | reap s => exact execReap_emits k.reap _ s
  | timeout s => exact .timeout s
  | caps s => exact k.procs.exec_emits _ s
  | park r => exact .park r
  | resume r =>
    cases r with
    | sent ep => exact .sent ep
    | received ep => exact .received ep _
    | called call =>
      simp only [emitted, IpcState.takeReply]
      split
      · exact .calledWith call _
      · exact .called call
    | notified id deadline => exact k.notify.recheck_emits now id deadline
    | child child => exact execReap_child_emits k.reap _ child
    | anyChild deadline => exact recheckAny_emits k.reap _ now deadline

/-! ### What a section changes -/

def ipcAfter (k : State n) (h : Fin n) : Sec n → IpcState
  | .ipc s => (k.ipc.exec (n := n) (k.sched.current h) s).1
  | .resume (.received ep) => (k.ipc.takeDelivered (n := n) (k.sched.current h) ep).1
  | .resume (.called call) => (k.ipc.takeReply (n := n) (k.sched.current h) call).1
  | _ => k.ipc

def reapAfter (k : State n) (h : Fin n) (now : Nat) : Sec n → ReapTable
  | .reap s => (execReap (n := n) k.reap (k.sched.current h) s).1
  | .resume (.child child) => (execReap (n := n) k.reap (k.sched.current h) (.waitFor child)).1
  | .resume (.anyChild deadline) => (recheckAny (n := n) k.reap (k.sched.current h) now deadline).1
  | _ => k.reap

def procsAfter (k : State n) (h : Fin n) : Sec n → Processes
  | .caps s => (k.procs.exec (k.sched.current h) s).1
  | _ => k.procs

def timeoutsAfter (k : State n) (h : Fin n) : Sec n → Fin n → TimeoutQueue
  | .timeout s => update k.timeouts h (execTimeout (k.timeouts h) (k.sched.current h) s)
  | _ => k.timeouts

/-- All that hart `h` changes with the section `s`, but for the scheduler's part. -/
structure Executed (k k' : State n) (h : Fin n) (now : Nat) (s : Sec n) (rest : List (Sec n)) : Prop where
  todo : k'.todo = update (k.others s) (k.sched.current h) (k.emitted h now s ++ s.leaves rest)
  sched : s.schedules = false → k'.sched = k.sched
  ipc : k'.ipc = k.ipcAfter h s
  reap : k'.reap = k.reapAfter h now s
  procs : k'.procs = k.procsAfter h s
  timeouts : k'.timeouts = k.timeoutsAfter h s

theorem executed (hs : k.exec h now rest s = some k') : Executed k k' h now s rest := by
  cases s with
  | sched s =>
    cases s with
    | yieldNow | exitNow =>
      obtain ⟨s', -, rfl⟩ := Option.map_eq_some_iff.mp hs
      exact ⟨rfl, nofun, rfl, rfl, rfl, rfl⟩
    | killRead handle target =>
      cases hs
      exact ⟨rfl, fun _ => rfl, rfl, rfl, rfl, rfl⟩
    | _ =>
      cases hs
      exact ⟨rfl, nofun, rfl, rfl, rfl, rfl⟩
  | park r =>
    obtain ⟨s', -, rfl⟩ := Option.map_eq_some_iff.mp hs
    exact ⟨rfl, nofun, rfl, rfl, rfl, rfl⟩
  | resume r =>
    cases hs
    cases r <;> exact ⟨rfl, fun _ => rfl, rfl, rfl, rfl, rfl⟩
  | _ =>
    cases hs
    exact ⟨rfl, fun _ => rfl, rfl, rfl, rfl, rfl⟩

theorem others_of_lt (k : State n) (s : Sec n) (hlt : t < k.sched.nextTaskId) : k.others s t = k.todo t := by
  unfold others
  split
  · exact update_of_ne hlt.ne ..
  · rfl

theorem Executed.todo_of_ne (hx : Executed k k' h now s rest) (hne : t ≠ k.sched.current h)
    (hlt : t < k.sched.nextTaskId) : k'.todo t = k.todo t := by
  rw [hx.todo, update_of_ne hne, others_of_lt k s hlt]

/-- The sections of the entry a label makes; `run` makes none. -/
def entry (k : State n) : Label n → List (Sec n)
  | .run _ _ => []
  | .syscall h sys => sys.entry h (k.sched.current h)
  | .yield _ => [.sched .yieldNow]
  | .timer h now preempt =>
    ((k.timeouts h).drainExpired now).1.map Sec.wake ++
      if preempt && k.isProcess h then [Sec.sched .yieldNow] else []
  | .fault h => [.reap (.noteExit (k.sched.current h) faultedStatus), .sched .exitNow]
  | .killCheck h => [.reap (.noteExit (k.sched.current h) killedStatus), .sched .exitNow]

theorem mem_entry_timer (hs : s ∈ k.entry (.timer h now preempt)) : (∃ t, s = .wake t) ∨ s = .sched .yieldNow := by
  simp only [entry, mem_append, mem_map] at hs
  rcases hs with ⟨t, -, rfl⟩ | hs
  · exact .inl ⟨t, rfl⟩
  split at hs
  · exact .inr (mem_singleton.mp hs)
  · cases hs

end State

def Label.hart : Label n → Fin n
  | .run h _ | .syscall h _ | .yield h | .timer h _ _ | .fault h | .killCheck h => h

namespace State

variable {k k' : State n}

/-- What the timer drains. -/
def drained (k : State n) : Label n → Fin n → TimeoutQueue
  | .timer h now _ => update k.timeouts h ((k.timeouts h).drainExpired now).2
  | _ => k.timeouts

variable {l : Label n}

/-- A step is a section of a handler, or an entry into the kernel by a task that is in none. -/
theorem step_cases (hs : k.step l = some k') : (∃ h now s rest, l = .run h now ∧ k.todo (k.sched.current h) = s :: rest ∧
      k.exec h now rest s = some k') ∨ ((∀ h now, l ≠ .run h now) ∧ k.todo (k.sched.current l.hart) = [] ∧
      k' = { k with timeouts := k.drained l }.goOn (k.sched.current l.hart) (k.entry l)) := by
  have entered : ∀ {c : Bool} {h : Fin n} {k₁ : State n}, (if c then some k₁ else none) = some k' →
      (c = true → k.idle h = true) → k.todo (k.sched.current h) = [] ∧ k' = k₁ := by
    intro c h k₁ hif hc
    split at hif
    · next hcond => exact ⟨by simpa [idle] using hc hcond, (Option.some.inj hif).symm⟩
    · cases hif
  cases l with
  | run h now =>
    left
    simp only [step] at hs
    split at hs
    · cases hs
    · next s rest htodo => exact ⟨h, now, s, rest, rfl, htodo, hs⟩
  | syscall h sys | fault h => exact .inr ⟨by simp, entered hs fun hc => (Bool.and_eq_true_iff.mp hc).1⟩
  | yield h | timer h now preempt => exact .inr ⟨by simp, entered hs id⟩
  | killCheck h =>
    refine .inr ⟨by simp, entered hs fun hc => ?_⟩
    exact (Bool.and_eq_true_iff.mp (Bool.and_eq_true_iff.mp hc).1).1

/-- Where a section `x` that task `t` has to do after the step `l` comes from. -/
inductive Origin (k : State n) (l : Label n) (t : TaskId) (x : Sec n) : Prop
  | other (hne : t ≠ k.sched.current l.hart) (hx : x ∈ k.todo t)
  | rest {h : Fin n} {now : Nat} {s : Sec n} {rest : List (Sec n)} (hl : l = .run h now)
      (ht : k.todo (k.sched.current h) = s :: rest) (hme : t = k.sched.current h) (hx : x ∈ rest)
  | emitted {h : Fin n} {now : Nat} {s : Sec n} {rest : List (Sec n)} (hl : l = .run h now)
      (ht : k.todo (k.sched.current h) = s :: rest) (hme : t = k.sched.current h)
      (he : Emits s (k.emitted h now s)) (hx : x ∈ k.emitted h now s)
  | entered (hme : t = k.sched.current l.hart) (hx : x ∈ k.entry l)
  | born {h hart : Fin n} {now : Nat} {handed : List Moved} {rest : List (Sec n)} (hl : l = .run h now)
      (ht : k.todo (k.sched.current h) = .sched (.spawn hart handed) :: rest) (hchild : t = k.sched.nextTaskId)
      (hx : x = .caps (.publish handed))

theorem origin (hs : k.step l = some k') (hm : x ∈ k'.todo t) : k.Origin l t x := by
  rcases step_cases hs with ⟨h, now, s, rest, rfl, ht, hexec⟩ | ⟨-, -, rfl⟩
  · rw [(executed hexec).todo] at hm
    by_cases hme : t = k.sched.current h
    · rw [hme, update_self] at hm
      rcases mem_append.mp hm with hm | hm
      · rcases k.emits_emitted h now s with rfl | he
        · cases hm
        · exact .emitted rfl ht hme he hm
      · exact .rest rfl ht hme (Sec.mem_leaves hm)
    · rw [update_of_ne hme] at hm
      unfold others at hm
      split at hm
      · next hart handed =>
        by_cases hchild : t = k.sched.nextTaskId
        · rw [hchild, update_self] at hm
          exact .born rfl ht hchild (mem_singleton.mp hm)
        · rw [update_of_ne hchild] at hm
          exact .other hme hm
      · exact .other hme hm
  · by_cases hme : t = k.sched.current l.hart
    · exact .entered hme (by simpa [goOn, hme] using hm)
    · exact .other hme (by simpa [goOn, hme] using hm)

end State

end SnitchOs.Kernel
