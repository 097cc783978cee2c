import SnitchOs.Mem.Translate
import SnitchOs.Trace.Span

/-!
# Copies between address spaces

`CopyFromCaller` and `CopyToCaller`, over the whole kernel. The handler resolves a reply capability under the lock of
the server's table, looks up the caller's address space under the scheduler's lock, and then copies chunk by chunk
without a lock. In between the other harts may step, and the page tables may change.

`root t` is the root page table of task `t`. The call a reply capability was minted for is ghost, as in the kernel's
model.
-/

namespace SnitchOs.Copy

open Cap Kernel Mem PtePerms

variable {n : Nat}

/-! ### One chunk -/

inductive CopyError
  | badRange
  | unmapped
  | perms
deriving DecidableEq

/-- What `copy_across` hands to its callback: so many bytes from one physical address to another. -/
structure Chunk where
  srcPa : Pa
  dstPa : Pa
  len : Nat
deriving DecidableEq

structure Across where
  srcRoot : Pa
  srcVa : Nat
  dstRoot : Pa
  dstVa : Nat
  len : Nat
deriving DecidableEq

namespace Across

variable (a : Across)

def rangesOk : Bool := userRangeOk a.srcVa a.len && userRangeOk a.dstVa a.len

/-- The longest run from `done` on that stays within a page on both sides. -/
def chunkLen (done : Nat) : Nat :=
  min (min (pageSize - (a.srcVa + done) % pageSize) (pageSize - (a.dstVa + done) % pageSize)) (a.len - done)

/-- The loop's body, with `done` bytes copied. -/
def chunk (m : PhysMem) (done : Nat) : Except CopyError Chunk :=
  match m.translate a.srcRoot (a.srcVa + done), m.translate a.dstRoot (a.dstVa + done) with
  | some src, some dst =>
    if src.perms &&& (r ||| u) = r ||| u ∧
        dst.perms &&& (w ||| u) = w ||| u then
      .ok ⟨src.pa + BitVec.ofNat 64 ((a.srcVa + done) % pageSize),
        dst.pa + BitVec.ofNat 64 ((a.dstVa + done) % pageSize), a.chunkLen done⟩
    else .error .perms
  | _, _ => .error .unmapped

theorem chunkLen_le (done : Nat) : a.chunkLen done ≤ a.len - done := Nat.min_le_right ..

theorem chunk_len (h : a.chunk m done = .ok c) : c.len = a.chunkLen done := by
  unfold chunk at h
  split at h
  · split at h
    · cases h
      rfl
    · cases h
  · cases h

/-! ### The whole loop -/

/-- The loop with `done` bytes copied: where in the destination's address space it writes, and how it ends.
`mem done` is the memory while the chunk at `done` is copied. -/
def loop (mem : Nat → PhysMem) : Nat → Nat → List (Nat × Nat) × Except CopyError Unit
  | 0, _ => ([], .ok ())
  | fuel + 1, done =>
    if done < a.len then
      match a.chunk (mem done) done with
      | .ok c => ((a.dstVa + done, c.len) :: (loop mem fuel (done + c.len)).1, (loop mem fuel (done + c.len)).2)
      | .error e => ([], .error e)
    else ([], .ok ())

/-- `copy_across`. No chunk is empty, so `len` rounds are enough. -/
def copyAcross (mem : Nat → PhysMem) : List (Nat × Nat) × Except CopyError Unit :=
  if a.rangesOk then a.loop mem a.len 0 else ([], .error .badRange)

theorem loop_writes (mem : Nat → PhysMem) (fuel : Nat) :
    ∀ done, ∀ w ∈ (a.loop mem fuel done).1, a.dstVa ≤ w.1 ∧ w.1 + w.2 ≤ a.dstVa + a.len := by
  induction fuel with
  | zero => intro done w hw; simp [loop] at hw
  | succ fuel ih =>
    intro done w hw
    unfold loop at hw
    split at hw
    · next hlt =>
      split at hw
      · next c hc =>
        rcases List.mem_cons.mp hw with rfl | hw
        · have hle := a.chunkLen_le done
          rw [← a.chunk_len hc] at hle
          dsimp only
          omega
        · exact ih _ w hw
      · simp at hw
    · simp at hw

theorem copyAcross_writes (mem : Nat → PhysMem) : ∀ w ∈ (a.copyAcross mem).1, a.dstVa ≤ w.1 ∧ w.1 + w.2 ≤ a.dstVa + a.len := by
  unfold copyAcross
  split
  · exact a.loop_writes mem a.len 0
  intro w hw
  simp at hw

theorem copyAcross_of_long (mem : Nat → PhysMem) (h : maxUserStrLen < a.len) : a.copyAcross mem = ([], .error .badRange) := by
  have hno : a.rangesOk = false := by
    simp [rangesOk, userRangeOk, decide_eq_false (show ¬ a.len ≤ maxUserStrLen by omega), Bool.and_false, Bool.false_and]
  rw [copyAcross, hno]
  rfl

end Across

/-! ### The handlers -/

inductive Direction
  | fromCaller
  | toCaller
deriving DecidableEq

/-- How far the handler is: before the server's table is locked, before the scheduler is, or in the
loop of `copy_across`. -/
inductive Stage
  | resolve
  | lookup (caller : TaskId) (call : CallNo)
  | across (caller : TaskId) (call : CallNo) (callerRoot : Pa) (done : Nat)
deriving DecidableEq

/-- A copy syscall with its arguments `a0` to `a3`. -/
structure Job where
  dir : Direction
  handle : Handle
  srcVa : Nat
  len : Nat
  dstVa : Nat
  stage : Stage := .resolve
deriving DecidableEq

/-- The server pulls from the caller or pushes into it. -/
def Job.copy (j : Job) (callerRoot serverRoot : Pa) : Across :=
  match j.dir with
  | .fromCaller => ⟨callerRoot, j.srcVa, serverRoot, j.dstVa, j.len⟩
  | .toCaller => ⟨serverRoot, j.srcVa, callerRoot, j.dstVa, j.len⟩

/-- The kernel with the copies its tasks are in. -/
structure Copying (n : Nat) where
  kernel : State n
  /-- The root page table of each task's address space; `0` for none. -/
  root : TaskId → Pa
  memory : PhysMem
  jobs : TaskId → Option Job := fun _ => none
  /-- What the syscalls returned. -/
  results : List (TaskId × Except Trace.RefusalReason Nat) := []

namespace Copying

variable (m : Copying n)

def current (h : Fin n) : TaskId := m.kernel.sched.current h

/-- `address_space_of`: a task that is in the table and has a process. -/
def addressSpaceOf (t : TaskId) : Option Pa :=
  if (m.kernel.sched.tasks t).isSome && (m.kernel.procs.tables t).isSome && m.root t != 0 then
    some (m.root t)
  else none

def goOn (me : TaskId) (j : Job) : Copying n := { m with jobs := Function.update m.jobs me (some j) }

def finish (me : TaskId) (r : Except Trace.RefusalReason Nat) : Copying n :=
  { m with jobs := Function.update m.jobs me none, results := m.results ++ [(me, r)] }

def resolved (t : CapTable) (h : Handle) : Option (TaskId × CallNo) :=
  match t.resolve h with
  | .ok ⟨.reply caller call, _⟩ => some (caller, call)
  | _ => none

/-- The next section of the handler that `me` is in. -/
def advance (me : TaskId) (j : Job) : Copying n :=
  match j.stage with
  | .resolve =>
    match (m.kernel.procs.tables me).bind (resolved · j.handle) with
    | some (caller, call) => m.goOn me { j with stage := .lookup caller call }
    | none => m.finish me (.error .capWrongObject)
  | .lookup caller call =>
    match m.addressSpaceOf caller with
    | some callerRoot =>
      if (j.copy callerRoot (m.root me)).rangesOk then
        m.goOn me { j with stage := .across caller call callerRoot 0 }
      else m.finish me (.error .badUserRange)
    | none => m.finish me (.error .capWrongObject)
  | .across caller call callerRoot done =>
    if done < j.len then
      match (j.copy callerRoot (m.root me)).chunk m.memory done with
      | .ok c => m.goOn me { j with stage := .across caller call callerRoot (done + c.len) }
      | .error _ => m.finish me (.error .badUserRange)
    else m.finish me (.ok j.len)

end Copying

inductive Label (n : Nat)
  | kernel (l : Kernel.Label n)
  | syscall (h : Fin n) (dir : Direction) (handle : Handle) (srcVa len dstVa : Nat)
  | advance (h : Fin n)
  | memory (memory : PhysMem)

namespace Copying

variable (m : Copying n)

/-- A hart whose task is in a copy does nothing else: traps are off in a syscall. The page tables may
change at any time, as processes map their memory and are reclaimed. -/
def step : Label n → Option (Copying n)
  | .kernel l =>
    if (m.jobs (m.current l.hart)).isNone then (m.kernel.step l).map fun k => { m with kernel := k }
    else none
  | .syscall h dir handle srcVa len dstVa =>
    if m.kernel.idle h && m.kernel.isProcess h && (m.jobs (m.current h)).isNone then
      some (m.goOn (m.current h) { dir, handle, srcVa, len, dstVa })
    else none
  | .advance h => (m.jobs (m.current h)).map (m.advance (m.current h))
  | .memory memory => some { m with memory }

/-- Bytes moved between the memory of a server and that of a caller, on the strength of the reply
capability of a call. -/
structure Move where
  server : TaskId
  caller : TaskId
  call : CallNo
  callerRoot : Pa
  chunk : Chunk
deriving DecidableEq

def moves : Label n → Option Move
  | .advance h =>
    match m.jobs (m.current h) with
    | some j =>
      match j.stage with
      | .across caller call callerRoot done =>
        if done < j.len then
          match (j.copy callerRoot (m.root (m.current h))).chunk m.memory done with
          | .ok chunk => some { server := m.current h, caller, call, callerRoot, chunk }
          | .error _ => none
        else none
      | _ => none
    | none => none
  | _ => none

end Copying

def boot (b : Boot n) (root : TaskId → Pa) (memory : PhysMem) : Copying n := { kernel := b.state, root, memory }

end SnitchOs.Copy
