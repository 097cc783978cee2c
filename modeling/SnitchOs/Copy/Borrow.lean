import SnitchOs.Copy.Transfer
import SnitchOs.Kernel.Calls

/-!
# A copy only touches a caller parked in the call that authorises it

The handler borrows the reply capability: it looks at the server's table once, and while the copy lasts the capability
is still there, or nowhere, since the server does nothing else. As long as it is nowhere else, nobody can answer the
call, and the caller stays parked. In runs with a stray wake it does not: the call returns, and the server reads and
writes the memory of a process that runs.
-/

namespace SnitchOs.Copy

open Cap Ipc Kernel Mem Function Option State Copying
open Budget

variable {n : Nat} {t s c : TaskId} {k k' : State n} {l : Kernel.Label n} {j : CallNo} {job : Job}

/-! ### Tables of other tasks -/

theorem tables_exec_of_ne {p : Processes} {s : CapsSec n} (hne : t ≠ me)
    (hdrop : s ≠ .dropProcess t) : (p.exec me s).1.tables t = p.tables t := by
  unfold Processes.exec
  split
  · next handed =>
    obtain ⟨table, ht, -⟩ := p.publish_tables me handed
    rw [ht, update_of_ne hne]
  · next child =>
    have hc : t ≠ child := fun he => hdrop (by rw [he])
    simp [hc]
  · split
    · unfold Processes.execOn
      repeat' split
      all_goals simp [Processes.setTable, Processes.grantIn, hne]
    · rfl

theorem tables_step_of_ne (hs : k.step l = some k') (hne : t ≠ k.sched.current l.hart) :
    k'.procs.tables t = k.procs.tables t ∨ ∀ p, k'.authority p ≤ k.authority p := by
  rcases step_cases hs with ⟨h, now, s, rest, rfl, ht, hexec⟩ | ⟨-, -, rfl⟩
  · obtain ⟨ht', -, hi, -, hp, -⟩ := executed hexec
    by_cases hdrop : s = .caps (.dropProcess t)
    · subst hdrop
      refine .inr fun p => ?_
      cases p with
      | table u => by_cases hut : u = t <;> simp [authority, hp, procsAfter, Processes.exec, hut]
      | handler u =>
        by_cases hum : u = k.sched.current h
        · simp [authority, ht', emitted, Sec.leaves, Processes.exec, hum, ht]
        · simp [authority, ht', others, hum]
      | _ => simp [authority, hi, ipcAfter, hp, procsAfter, Processes.exec]
    · left
      rw [hp]
      unfold procsAfter
      split
      · exact tables_exec_of_ne hne fun he => hdrop (congrArg Sec.caps he)
      · rfl
  · exact .inl rfl

/-! ### Borrowed tokens -/

/-- The server `s` borrows the token: the caller is parked, and nobody else can answer the call. -/
structure Borrowed (k : State n) (s c : TaskId) (j : CallNo) : Prop where
  parked : k.Parked c j
  only : ∀ p, (c, j) ∈ k.authority p → p = .table s

theorem Borrowed.of_mem (hk : Calls k) (hm : (c, j) ∈ k.authority (.table s)) : Borrowed k s c j :=
  ⟨hk.held (.table s) rfl c j hm, fun _ hp => hk.affine.place_eq hp hm⟩

theorem Borrowed.step (hb : Borrowed k s c j) (hk : Calls k) (hok : k.Orderly l)
    (hs : k.step l = some k') (hne : s ≠ k.sched.current l.hart) : Borrowed k' s c j := by
  have hno : (c, j) ∉ k.authority .accepted := fun hacc => by cases hb.only .accepted hacc
  refine ⟨?_, fun p hp => ?_⟩
  · exact hb.parked.step hk.placement (hk.replies_none (.parked hb.parked) hno) hok.2.1 hok.2.2.1 hs
  rcases flow_step hk.placement hok.1 hs with ⟨hmv, -⟩ | ⟨p₀, hoff, hp₀, -⟩
  · rcases tables_step_of_ne hs hne with hsame | hle
    · -- nothing leaves the server's table, so the token would come from elsewhere
      by_contra hpt
      have hmask := hmv.mask (fun q => decide (q = .table s)) fun q hq => by
        rw [of_decide_eq_true hq]
        simp [authority, hsame]
      obtain ⟨q, hq⟩ := hmask.mem (l := p) (k := (c, j)) (by simpa [hpt] using hp)
      by_cases hqt : q = .table s
      · simp [hqt] at hq
      · exact hqt (hb.only q (by simpa [hqt] using hq))
    · exact hb.only p (Multiset.mem_of_le (hle p) hp)
  · by_cases hpp : p = p₀
    · subst hpp
      rcases Multiset.mem_cons.mp (Multiset.mem_of_le hp₀ hp) with heq | hold
      · -- the task that makes a call is running
        cases heq
        exact absurd rfl (ne_current_of_isBlocked hk.placement hb.parked.2 _)
      · exact hb.only p hold
    · exact hb.only p (Multiset.mem_of_le (hoff p hpp) hp)

/-! ### The invariant -/

/-- The call a handler works on the strength of. -/
def Stage.token : Stage → Option (TaskId × CallNo)
  | .resolve => none
  | .lookup caller call | .across caller call _ _ => some (caller, call)

structure Borrowing (m : Copying n) : Prop where
  calls : Calls m.kernel
  borrowed : ∀ s job c j, m.jobs s = some job → job.stage.token = some (c, j) → Borrowed m.kernel s c j
  root : ∀ s job c j r done, m.jobs s = some job → job.stage = .across c j r done → r = m.root c

theorem mem_tableAuthority_of_resolved {t : CapTable} (hr : resolved t h = some (c, j)) : (c, j) ∈ tableAuthority t := by
  unfold resolved CapTable.resolve at hr
  cases hl : t.lookup h with
  | error e => simp [hl, Except.map] at hr
  | ok out =>
    obtain ⟨s, cap⟩ := out
    obtain ⟨object, rights⟩ := cap
    rw [tableAuthority_freeAt hl]
    cases object with
    | reply caller call =>
      simp only [hl, Except.map, some.injEq, Prod.mk.injEq] at hr
      simp [capAuthority, hr]
    | _ => simp [hl, Except.map] at hr

namespace Borrowing

theorem goOn (hm : Borrowing m) (hb : ∀ c j, job.stage.token = some (c, j) → Borrowed m.kernel s c j)
    (hr : ∀ c j r done, job.stage = .across c j r done → r = m.root c) : Borrowing (m.goOn s job) := by
  refine ⟨hm.calls, fun u job' c j hu hstage => ?_, fun u job' c j r done hu hstage => ?_⟩
  · by_cases hus : u = s
    · subst hus
      simp only [Copying.goOn, update_self, some.injEq] at hu
      subst hu
      exact hb c j hstage
    · simp only [Copying.goOn, update_of_ne hus] at hu
      exact hm.borrowed u job' c j hu hstage
  · by_cases hus : u = s
    · subst hus
      simp only [Copying.goOn, update_self, some.injEq] at hu
      subst hu
      exact hr c j r done hstage
    · simp only [Copying.goOn, update_of_ne hus] at hu
      exact hm.root u job' c j r done hu hstage

theorem finish (hm : Borrowing m) (s : TaskId) (r : Except Trace.RefusalReason Nat) : Borrowing (m.finish s r) := by
  have old : ∀ {u : TaskId} {job' : Job}, (m.finish s r).jobs u = some job' → m.jobs u = some job' := by
    intro u job' hu
    by_cases hus : u = s
    · simp [Copying.finish, hus] at hu
    · simpa [Copying.finish, hus] using hu
  exact ⟨hm.calls, fun u job' c j hu => hm.borrowed u job' c j (old hu),
    fun u job' c j r' done hu => hm.root u job' c j r' done (old hu)⟩

theorem advance (hm : Borrowing m) (hj : m.jobs s = some job) : Borrowing (m.advance s job) := by
  unfold Copying.advance
  split
  · split
    · next c j hres =>
      obtain ⟨t, ht, hr⟩ := bind_eq_some_iff.mp hres
      refine hm.goOn (fun c' j' htok => ?_) (fun _ _ _ _ he => by cases he)
      cases htok
      refine .of_mem hm.calls ?_
      simpa [authority, ht] using mem_tableAuthority_of_resolved hr
    · exact hm.finish s _
  · next c j hstage =>
    split
    · next r hr =>
      have hroot : r = m.root c := by
        unfold addressSpaceOf at hr
        split at hr
        · exact (some.inj hr).symm
        · cases hr
      split
      · refine hm.goOn (fun c' j' htok => ?_) fun c' j' r' done he => ?_
        · cases htok
          exact hm.borrowed s job c j hj (by rw [hstage]; rfl)
        · cases he
          exact hroot
      · exact hm.finish s _
    · exact hm.finish s _
  · next c j r done hstage =>
    split
    · split
      · refine hm.goOn (fun c' j' htok => ?_) fun c' j' r' done' he => ?_
        · cases htok
          exact hm.borrowed s job c j hj (by rw [hstage]; rfl)
        · cases he
          exact hm.root s job c j r done hj hstage
      · exact hm.finish s _
    · exact hm.finish s _

end Borrowing

/-- The condition of a step: the kernel's steps are orderly. -/
def Copying.Orderly (m : Copying n) : Label n → Prop
  | .kernel l => m.kernel.Orderly l
  | _ => True

instance (m : Copying n) : (l : Label n) → Decidable (m.Orderly l)
  | .kernel l => inferInstanceAs (Decidable (m.kernel.Orderly l))
  | .syscall .. | .advance _ | .memory _ => instDecidableTrue

theorem Borrowing.step {l : Label n} (hm : Borrowing m) (hok : m.Orderly l) (hs : m.step l = some m') : Borrowing m' := by
  cases l with
  | kernel l =>
    simp only [Copying.step] at hs
    split at hs
    · next hnone =>
      obtain ⟨k', hk', rfl⟩ := map_eq_some_iff.mp hs
      refine ⟨hm.calls.step hok hk', fun s job c j hj hstage => ?_, hm.root⟩
      refine (hm.borrowed s job c j hj hstage).step hm.calls hok hk' ?_
      rintro rfl
      rw [show m.jobs (m.current l.hart) = some job from hj] at hnone
      cases hnone
    · cases hs
  | syscall h dir handle srcVa len dstVa =>
    simp only [Copying.step] at hs
    split at hs
    · cases hs
      exact hm.goOn (fun _ _ he => by cases he) (fun _ _ _ _ he => by cases he)
    · cases hs
  | advance h =>
    obtain ⟨job, hj, rfl⟩ := map_eq_some_iff.mp hs
    exact hm.advance hj
  | memory memory =>
    cases hs
    exact ⟨hm.calls, hm.borrowed, hm.root⟩

theorem boot_borrowing (b : Boot n) (root : TaskId → Pa) (memory : PhysMem) : Borrowing (boot b root memory) where
  calls := b.calls
  borrowed := fun _ _ _ _ hj => by cases hj
  root := fun _ _ _ _ _ _ hj => by cases hj

/-! ### Every run -/

/-- In every orderly run, whenever a step moves bytes between a server and a caller: the caller is
blocked in the call whose reply capability the server used, runs on no hart, and the address space is
its own. -/
theorem copy_touches_parked_caller {b : Boot n} {root : TaskId → Pa} {memory : PhysMem} {m : Copying n}
    (hrun : Runs.Reaches Copying.step Orderly (boot b root memory) m) {l : Label n}
    {mv : Move} (hmv : m.moves l = some mv) :
    m.kernel.Parked mv.caller mv.call ∧ (∀ h, m.kernel.sched.current h ≠ mv.caller) ∧
      mv.callerRoot = m.root mv.caller := by
  have hm : Borrowing m := hrun.invariant (boot_borrowing b root memory) fun _ _ _ hm hok hs => hm.step hok hs
  cases l with
  | advance h =>
    simp only [moves] at hmv
    split at hmv
    · next job hj =>
      split at hmv
      · next c j r done hstage =>
        split at hmv
        · split at hmv
          · cases hmv
            have hb := hm.borrowed _ job c j hj (by rw [hstage]; rfl)
            exact ⟨hb.parked, fun h' he => ne_current_of_isBlocked hm.calls.placement hb.parked.2 h' he.symm,
              hm.root _ job c j r done hj hstage⟩
          · cases hmv
        · cases hmv
      · cases hmv
    · cases hmv
  | _ => cases hmv

/-! ### A server and a caller -/

/-- Two harts. Process `2`, on hart `0`, may wait on notification `0` and call endpoint `0`; process `3`,
on hart `1`, may signal and serves the endpoint. -/
def copyBoot : Boot 2 where
  procs := [
    (0, { slots := [⟨0, .persistent, some ⟨.notification 0, .wait⟩, 1, 0⟩,
      ⟨0, .persistent, some ⟨.endpoint 0 0, .send⟩, 2, 0⟩] }),
    (1, { slots := [⟨0, .persistent, some ⟨.notification 0, .signal⟩, 3, 0⟩,
      ⟨0, .persistent, some ⟨.endpoint 0 0, .recv⟩, 4, 0⟩] })]
  noReply := by simp
  endpoints := 1
  notifications := 1
  nextCapId := 5

def copyRoot (t : TaskId) : Pa := BitVec.ofNat 64 (t * 0x10000)

/-- Under the root at `r`, every address is mapped to the page at `r + 0x3000`. -/
def copyMemory : PhysMem where
  word p _ :=
    if p &&& 0xf000#64 = 0 ∨ p &&& 0xf000#64 = 0x1000 then Pte.branch (p + 0x1000)
    else Pte.leaf (p + 0x1000) (PtePerms.r ||| PtePerms.w ||| PtePerms.u)
  free := []

/-- Process `2` waits on hart `0` with deadline `10` and is signalled from hart `1`, where it goes on and
calls. Process `3` receives the call. -/
def receiveCall : List (Label 2) :=
  ([.yield 0, .run 0 1, .syscall 0 (.waitNotify (.new 0 0) 10), .run 0 2, .run 0 2, .run 0 2, .run 0 2,
    .yield 1, .run 1 3, .syscall 1 (.signal (.new 0 0) 1), .run 1 4, .run 1 4, .run 1 4,
    .syscall 1 .yield, .run 1 5, .yield 1, .run 1 6, .run 1 6, .run 1 6,
    .syscall 1 (.call (.new 1 0) (.replicate 4 7) 0), .run 1 7, .run 1 7, .run 1 7,
    .syscall 1 (.receive (.new 1 0)), .run 1 8, .run 1 8, .run 1 8] : List (Kernel.Label 2)).map .kernel

/-- Process `3` starts to copy sixteen bytes into the caller's memory. -/
def copyToCaller : List (Label 2) :=
  [.syscall 1 .toCaller (.new 2 0) 0x1000 16 0x1000, .advance 1, .advance 1]

def copiedBytes : Move where
  server := 3
  caller := 2
  call := 0
  callerRoot := 0x20000
  chunk := ⟨0x33000, 0x23000, 16⟩

theorem copy_touches_parked_caller_served :
    ∃ m : Copying 2, Runs.Reaches Copying.step Orderly (boot copyBoot copyRoot copyMemory) m ∧
      m.moves (.advance 1) = some copiedBytes ∧ m.kernel.Parked 2 0 ∧
      (∀ h, m.kernel.sched.current h ≠ 2) ∧ copiedBytes.callerRoot = m.root 2 := by
  obtain ⟨m, hrun, hmv⟩ : ∃ m, Runs.Reaches Copying.step Orderly (boot copyBoot copyRoot copyMemory) m ∧
      m.moves (.advance 1) = some copiedBytes :=
    Runs.exists_reaches (receiveCall ++ copyToCaller) (by decide)
  exact ⟨m, hrun, hmv, copy_touches_parked_caller hrun hmv⟩

/-- The timer of hart `0` finds the deadline left there and wakes process `2` out of its call. -/
def strayWake : List (Label 2) :=
  ([.timer 0 10 false, .run 0 11, .yield 0, .run 0 12, .run 0 12] : List (Kernel.Label 2)).map .kernel

/-- Process `2` is back in user mode on hart `0` when the server writes to its memory. -/
theorem copy_touches_running_caller :
    ∃ m : Copying 2, Runs.Reaches Copying.step (fun _ _ => True) (boot copyBoot copyRoot copyMemory) m ∧
      m.moves (.advance 1) = some copiedBytes ∧ m.kernel.sched.current 0 = copiedBytes.caller ∧
      m.kernel.todo copiedBytes.caller = [] ∧ ¬ m.kernel.Parked copiedBytes.caller copiedBytes.call := by
  obtain ⟨m, hrun, hmv, hcur, htodo⟩ : ∃ m, Runs.Reaches Copying.step (fun _ _ => True)
      (boot copyBoot copyRoot copyMemory) m ∧ m.moves (.advance 1) = some copiedBytes ∧
      m.kernel.sched.current 0 = 2 ∧ m.kernel.todo 2 = [] :=
    Runs.exists_reaches (receiveCall ++ strayWake ++ copyToCaller) (by decide)
  refine ⟨m, hrun, hmv, hcur, htodo, fun hp => ?_⟩
  have := htodo.symm.trans hp.1
  cases this

end SnitchOs.Copy
