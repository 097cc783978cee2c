import SnitchOs.Lib.Runs
import SnitchOs.Sched.Reap

/-!
# Exits and waits over whole histories

First the table alone, under any sequence of its operations: what became of every exit status. Then the tasks around
it, each in its turn of `handle_wait` or `handle_wait_any`: who is woken when a task exits. A parked task may be
resumed at any time, by the exit it waits for, a timeout drain or an early wake.
-/

namespace SnitchOs.Sched

open Function List ReapTable Prod

/-! ### The table -/

variable {child c task : TaskId} {status : Int}

namespace ReapTable

theorem insertExited_perm {exited : List (TaskId × Int)} (hnew : child ∉ exited.map fst) (status : Int) :
    (insertExited exited child status).Perm ((child, status) :: exited) := by
  have hsplit : (exited.filter (·.1 < child) ++ exited.filter (child < ·.1)).Perm exited := by
    have hneg : exited.filter (child < ·.1) = exited.filter fun z => ! decide (z.1 < child) := by
      refine filter_congr fun z hz => ?_
      have hne : z.1 ≠ child := fun he => hnew (he ▸ mem_map_of_mem hz)
      rcases Nat.lt_trichotomy z.1 child with hlt | heq | hgt
      · simp [hlt, Nat.le_of_lt hlt]
      · exact absurd heq hne
      · simp [hgt, Nat.le_of_lt hgt]
    rw [hneg]
    exact filter_append_perm _ exited
  exact perm_middle.trans (hsplit.cons _)

theorem exited_reap_perm {r : ReapTable} (hnd : (r.exited.map fst).Nodup)
    (hm : (child, status) ∈ r.exited) : r.exited.Perm ((child, status) :: (r.reap child).exited) := by
  obtain ⟨pre, post, hsplit⟩ := append_of_mem hm
  have hne : ∀ z ∈ pre ++ post, z.1 ≠ child := by
    intro z hz he
    rw [hsplit, map_append, map_cons] at hnd
    have hnot : child ∉ pre.map fst ++ post.map fst := (nodup_middle.mp hnd).notMem
    rw [← map_append] at hnot
    apply hnot
    rw [← he]
    exact mem_map_of_mem hz
  have hkeep : (r.reap child).exited = pre ++ post := by
    rw [reap, hsplit]
    simp only [filter_append, filter_cons, ne_eq, not_true_eq_false, decide_false, Bool.false_eq_true, if_false]
    rw [filter_eq_self.mpr fun z hz => by simpa using hne z (mem_append_left _ hz),
      filter_eq_self.mpr fun z hz => by simpa using hne z (mem_append_right _ hz)]
  rw [hkeep, hsplit]
  exact perm_middle

theorem onWait_cases (r : ReapTable) (parent child : TaskId) :
    (∃ status, (child, status) ∈ r.exited ∧ r.onWait parent child = (.ready status, r.reap child)) ∨
      r.onWait parent child = (.block, { r with waiters := update r.waiters child (some parent) }) := by
  unfold onWait
  cases hl : r.exited.lookup child with
  | some status =>
    obtain ⟨pre, post, hsplit, -⟩ := lookup_eq_some_iff.mp hl
    exact .inl ⟨status, by simp [hsplit], rfl⟩
  | none => exact .inr rfl

theorem onWaitAny_cases (r : ReapTable) (parent : TaskId) :
    (∃ child status, (child, status) ∈ r.exited ∧ r.parents child = some parent ∧
      r.onWaitAny parent = (.ready child status, r.reap child)) ∨
    ((∀ z ∈ r.exited, r.parents z.1 ≠ some parent) ∧ r.onWaitAny parent =
      (.block, { r with anyWaiters := update r.anyWaiters parent true })) := by
  unfold onWaitAny
  cases hf : r.exited.find? fun z => r.parents z.1 == some parent with
  | some z =>
    obtain ⟨child, status⟩ := z
    have hp := find?_some hf
    exact .inl ⟨child, status, mem_of_find?_eq_some hf, by simpa using hp, rfl⟩
  | none => exact .inr ⟨fun z hz => by simpa using find?_eq_none.mp hf z hz, rfl⟩

end ReapTable

/-! ### What becomes of an exit status -/

/-- The operations on the table, by any tasks. -/
inductive ReapOp
  | spawn (parent child : TaskId)
  | exit (child : TaskId) (status : Int)
  | wait (parent child : TaskId)
  | waitAny (parent : TaskId)
  | cancelWaitAny (parent : TaskId)
deriving DecidableEq

/-- The table, with the children and statuses `Ready` steps have returned. -/
structure Reaped where
  table : ReapTable := {}
  returned : List (TaskId × Int) := []

namespace Reaped

def step (h : Reaped) : ReapOp → Reaped
  | .spawn parent child => { h with table := h.table.onSpawn parent child }
  | .exit child status => { h with table := (h.table.onExit child status).2 }
  | .wait parent child =>
    match h.table.onWait parent child with
    | (.ready status, table) => { table, returned := h.returned ++ [(child, status)] }
    | (.block, table) => { h with table }
  | .waitAny parent =>
    match h.table.onWaitAny parent with
    | (.ready child status, table) => { table, returned := h.returned ++ [(child, status)] }
    | (.block, table) => { h with table }
  | .cancelWaitAny parent => { h with table := h.table.cancelWaitAny parent }

def run (ops : List ReapOp) : Reaped := ops.foldl step {}

end Reaped

def exits : List ReapOp → List (TaskId × Int) :=
  List.filterMap fun
    | .exit child status => some (child, status)
    | _ => none

/-- The parent the last spawn of `child` recorded. -/
def spawnedBy (ops : List ReapOp) (child : TaskId) : Option TaskId :=
  ops.foldl (fun p op =>
    match op with
    | .spawn parent c => if c = child then some parent else p
    | _ => p) none

theorem exits_append (ops ops' : List ReapOp) : exits (ops ++ ops') = exits ops ++ exits ops' := by
  simp [exits]

theorem spawnedBy_append_spawn (ops : List ReapOp) (parent child c : TaskId) :
    spawnedBy (ops ++ [ReapOp.spawn parent child]) c = if child = c then some parent else spawnedBy ops c := by
  simp [spawnedBy]

variable {p : TaskId} {table : ReapTable}

theorem spawnedBy_append_of_ne (h : ∀ parent child, op ≠ ReapOp.spawn parent child) (ops : List ReapOp)
    (c : TaskId) : spawnedBy (ops ++ [op]) c = spawnedBy ops c := by
  cases op with
  | spawn parent child => exact absurd rfl (h parent child)
  | _ => simp [spawnedBy]

theorem mem_of_spawnedBy (h : spawnedBy ops c = some p) : .spawn p c ∈ ops := by
  induction ops using List.reverseRecOn with
  | nil => cases h
  | append_singleton ops op ih =>
    by_cases hop : ∃ parent child, op = .spawn parent child
    · obtain ⟨parent, child, rfl⟩ := hop
      rw [spawnedBy_append_spawn] at h
      split at h
      · next hc =>
        cases h
        simp [hc]
      · exact mem_append_left _ (ih h)
    · rw [spawnedBy_append_of_ne fun parent child e => hop ⟨parent, child, e⟩] at h
      exact mem_append_left _ (ih h)

/-- What the table holds after a history. -/
structure Accounts (ops : List ReapOp) (h : Reaped) : Prop where
  statuses : (h.returned ++ h.table.exited).Perm (exits ops)
  /-- The parentage of a child whose status was not collected is that of its last spawn. -/
  parents : ∀ c, c ∉ h.returned.map fst → h.table.parents c = spawnedBy ops c

namespace Accounts

variable {ops : List ReapOp} {h : Reaped}

variable (ha : Accounts ops h)
include ha

variable (hex : ((exits ops).map fst).Nodup)
include hex

theorem nodup : (h.returned.map fst ++ h.table.exited.map fst).Nodup := by
  rw [← map_append]
  exact ((ha.statuses.map fst).nodup_iff).mpr hex

theorem zombies_nodup : (h.table.exited.map fst).Nodup :=
  (nodup_append.mp (ha.nodup hex)).2.1

theorem zombie_parent (hz : (c, status) ∈ h.table.exited) : h.table.parents c = spawnedBy ops c := by
  refine ha.parents c fun hret => ?_
  exact (nodup_append.mp (ha.nodup hex)).2.2 c hret c (mem_map_of_mem (f := fst) hz) rfl

theorem collect (hop : exits [op] = []) (hspawn : ∀ parent child, op ≠ .spawn parent child) (hz : (c, status) ∈ h.table.exited) :
    Accounts (ops ++ [op]) { table := h.table.reap c, returned := h.returned ++ [(c, status)] } where
  statuses := by
    rw [exits_append, hop, append_nil]
    have hperm := (exited_reap_perm (ha.zombies_nodup hex) hz).append_left h.returned
    rw [append_assoc]
    exact hperm.symm.trans ha.statuses
  parents := by
    intro d hd
    simp only [map_append, map_cons, map_nil, mem_append, mem_singleton, not_or] at hd
    rw [spawnedBy_append_of_ne hspawn, ← ha.parents d hd.1]
    simp [reap, hd.2]

omit hex

theorem keep (hop : exits [op] = []) (hspawn : ∀ parent child, op ≠ .spawn parent child)
    (hz : table.exited = h.table.exited) (hp : table.parents = h.table.parents) : Accounts (ops ++ [op]) { h with table } where
  statuses := by
    rw [exits_append, hop, append_nil, hz]
    exact ha.statuses
  parents := by
    intro d hd
    rw [spawnedBy_append_of_ne hspawn, hp]
    exact ha.parents d hd

theorem step (hex : ((exits (ops ++ [op])).map fst).Nodup) : Accounts (ops ++ [op]) (h.step op) := by
  rw [exits_append, map_append] at hex
  have hex₀ := (nodup_append.mp hex).1
  cases op with
  | spawn parent child =>
    refine ⟨?_, fun c hc => ?_⟩
    · rw [exits_append, show exits [.spawn parent child] = [] from rfl, append_nil]
      exact ha.statuses
    rw [spawnedBy_append_spawn]
    by_cases hcc : child = c
    · simp [Reaped.step, onSpawn, hcc]
    rw [if_neg hcc, ← ha.parents c hc]
    simp [Reaped.step, onSpawn, Ne.symm hcc]
  | exit child status =>
    have hnew : child ∉ h.table.exited.map fst := by
      intro hin
      have hold : child ∈ (exits ops).map fst :=
        (ha.statuses.map fst).mem_iff.mp (by rw [map_append]; exact mem_append_right _ hin)
      exact (nodup_append.mp hex).2.2 child hold child (by simp [exits]) rfl
    have hz : (h.table.onExit child status).2.exited = insertExited h.table.exited child status := by
      rcases h.table.onExit_cases child status with ⟨p, -, he⟩ | ⟨p, -, -, -, he⟩ | ⟨-, -, he⟩ <;> rw [he]
    refine ⟨?_, fun c hc => ?_⟩
    · rw [exits_append]
      have hmove := (insertExited_perm hnew status).append_left h.returned
      simp only [Reaped.step, hz]
      refine hmove.trans (perm_middle.trans ?_)
      exact (ha.statuses.cons _).trans (perm_append_singleton _ _).symm
    · rw [spawnedBy_append_of_ne (by simp), ← ha.parents c hc]
      simp [Reaped.step, h.table.parents_onExit]
  | wait parent child =>
    simp only [Reaped.step]
    rcases h.table.onWait_cases parent child with ⟨status, hz, he⟩ | he
    · rw [he]
      exact ha.collect hex₀ rfl (by simp) hz
    · rw [he]
      exact ha.keep rfl (by simp) rfl rfl
  | waitAny parent =>
    simp only [Reaped.step]
    rcases h.table.onWaitAny_cases parent with ⟨child, status, hz, -, he⟩ | ⟨-, he⟩
    · rw [he]
      exact ha.collect hex₀ rfl (by simp) hz
    · rw [he]
      exact ha.keep rfl (by simp) rfl rfl
  | cancelWaitAny parent => exact ha.keep rfl (by simp) rfl rfl

omit ha

theorem run (ops : List ReapOp) (hex : ((exits ops).map fst).Nodup) : Accounts ops (Reaped.run ops) := by
  induction ops using List.reverseRecOn with
  | nil => exact ⟨.refl _, fun _ _ => rfl⟩
  | append_singleton ops op ih =>
    have hex₀ : ((exits ops).map fst).Nodup := by
      rw [exits_append, map_append] at hex
      exact (nodup_append.mp hex).1
    rw [Reaped.run, foldl_append]
    exact (ih hex₀).step hex

end Accounts

/-- For every history in which each child exits once at most. Each exit is, with its status, in one of
two places: returned by a `Ready` step, or held as a zombie. And what the next `WaitAny` of `p` returns
is a child `p` spawned, a zombie with its status; it returns one whenever there is a zombie whose last
spawn was by `p`. -/
theorem exit_statuses_conserved {ops : List ReapOp} (hex : ((exits ops).map fst).Nodup) :
    ((Reaped.run ops).returned ++ (Reaped.run ops).table.exited).Perm (exits ops) ∧
    (∀ p c status, ((Reaped.run ops).table.onWaitAny p).1 = .ready c status →
      .spawn p c ∈ ops ∧ (c, status) ∈ (Reaped.run ops).table.exited) ∧
    ∀ p c status, (c, status) ∈ (Reaped.run ops).table.exited → spawnedBy ops c = some p →
      ((Reaped.run ops).table.onWaitAny p).1 ≠ .block := by
  have ha := Accounts.run ops hex
  refine ⟨ha.statuses, fun p c status hready => ?_, fun p c status hz hp hblock => ?_⟩
  · rcases (Reaped.run ops).table.onWaitAny_cases p with ⟨child, st, hz, hpar, he⟩ | ⟨-, he⟩
    · rw [he] at hready
      cases hready
      rw [ha.zombie_parent hex hz] at hpar
      exact ⟨mem_of_spawnedBy hpar, hz⟩
    · rw [he] at hready
      cases hready
  · rcases (Reaped.run ops).table.onWaitAny_cases p with ⟨child, st, -, -, he⟩ | ⟨hno, -⟩
    · rw [he] at hblock
      cases hblock
    · exact hno _ hz (by rw [ha.zombie_parent hex hz, hp])

def twoChildren : List ReapOp := [.spawn 1 2, .spawn 1 3, .exit 3 42, .exit 2 7, .wait 9 3]

theorem exit_statuses_conserved_twoChildren :
    ((Reaped.run twoChildren).returned ++ [(2, 7)]).Perm (exits twoChildren) ∧
      ((Reaped.run twoChildren).table.onWaitAny 1).1 ≠ .block :=
  have hex : ((exits twoChildren).map fst).Nodup := by decide
  have h := exit_statuses_conserved hex
  ⟨h.1, h.2.2 1 2 7 (by decide) (by decide)⟩

/-- The child's id is spawned once more, by another task, before it exits. -/
def spawnedTwice : List ReapOp := [.spawn 1 2, .spawn 9 2, .exit 2 7]

/-- Task `1` spawned the zombie `2` too, but the later record replaced its own. -/
theorem spawnedTwice_zombie_not_returned :
    ((exits spawnedTwice).map fst).Nodup ∧ .spawn 1 2 ∈ spawnedTwice ∧
      (2, 7) ∈ (Reaped.run spawnedTwice).table.exited ∧
      ((Reaped.run spawnedTwice).table.onWaitAny 1).1 = .block := by
  decide

/-! ### Who is woken -/

/-- Where a task stands in `handle_wait` and `handle_wait_any`. -/
inductive WaitPhase
  | unborn
  /-- Outside the two calls. -/
  | running
  /-- Told to block, and not named to be woken since. -/
  | waiting (child : TaskId)
  | waitingAny
  /-- Woken, before it looks at the table again. -/
  | woken (child : TaskId)
  | wokenAny
  | exited
deriving DecidableEq

structure Waits where
  table : ReapTable := {}
  phase : TaskId → WaitPhase

/-- `wakeUp` is any wake that no exit sent; `look` the turn of the loop after a wake, which may find
the deadline of a `WaitAny` passed. -/
inductive WaitLabel
  | wait (task child : TaskId)
  | waitAny (task : TaskId)
  | wakeUp (task : TaskId)
  | look (task : TaskId) (timedOut : Bool)
  | spawn (task child : TaskId)
  | exit (task : TaskId) (status : Int)
  | kill (task target : TaskId)
deriving DecidableEq

namespace Waits

variable (s : Waits)

def setPhase (task : TaskId) (p : WaitPhase) : Waits := { s with phase := update s.phase task p }

/-- `sched::wake`: only a blocked task is moved. -/
def wake (task : TaskId) : Waits :=
  match s.phase task with
  | .waiting child => s.setPhase task (.woken child)
  | .waitingAny => s.setPhase task .wokenAny
  | _ => s

/-- `wait_for`, with where the answer leaves the task. -/
def waitFor (task child : TaskId) : Waits :=
  match s.table.onWait task child with
  | (.ready _, table) => { s with table }.setPhase task .running
  | (.block, table) => { s with table }.setPhase task (.waiting child)

def waitForAny (task : TaskId) (timedOut : Bool) : Waits :=
  match s.table.onWaitAny task with
  | (.ready _ _, table) => { s with table }.setPhase task .running
  | (.block, table) =>
    if timedOut then { s with table := table.cancelWaitAny task }.setPhase task .running
    else { s with table }.setPhase task .waitingAny

/-- `note_exit`, and the wake of the task it names. -/
def noteExit (task : TaskId) (status : Int) : Waits :=
  match s.table.onExit task status with
  | (some parent, table) => ({ s with table }.setPhase task .exited).wake parent
  | (none, table) => { s with table }.setPhase task .exited

/-- One operation. A label whose task does not stand where it is run changes nothing. -/
def step : WaitLabel → Waits
  | .wait task child => if s.phase task = .running then s.waitFor task child else s
  | .waitAny task => if s.phase task = .running then s.waitForAny task false else s
  | .wakeUp task => s.wake task
  | .look task timedOut =>
    match s.phase task with
    | .woken child => s.waitFor task child
    | .wokenAny => s.waitForAny task timedOut
    | _ => s
  | .spawn task child =>
    if s.phase task = .running ∧ s.phase child = .unborn then
      { s with table := s.table.onSpawn task child }.setPhase child .running
    else s
  | .exit task status => if s.phase task = .running then s.noteExit task status else s
  | .kill task target =>
    if s.phase task = .running ∧ target ≠ task ∧ s.phase target ≠ .unborn ∧ s.phase target ≠ .exited then
      s.noteExit target (-9)
    else s

def start (born : TaskId → Bool) : Waits where
  phase := fun t => if born t then .running else .unborn

def run (born : TaskId → Bool) (ls : List WaitLabel) : Waits := ls.foldl step (start born)

/-- Whoever waits is remembered: the exit of the child a task waits for names that task, and a task
that waits for any child is named by the exit of a child of its own or stays recorded for a further
one. -/
structure Remembers : Prop where
  wait : ∀ p c status, s.phase p = .waiting c → s.phase c ≠ .exited → (s.table.onExit c status).1 = some p
  waitAny : ∀ p c status, s.phase p = .waitingAny → s.table.parents c = some p →
    (s.table.onExit c status).1 = some p ∨ (s.table.onExit c status).2.anyWaiters p = true

/-- The wait of `task` on `child` is answered `Block` while another task waits for the same child. -/
def shares (task child : TaskId) : Prop :=
  s.phase child ≠ .exited ∧ (s.table.onWait task child).1 = .block ∧
    ∃ other, other ≠ task ∧ s.phase other = .waiting child

def Unshared : WaitLabel → Prop
  | .wait task child => s.phase task = .running → ¬ s.shares task child
  | .look task _ => ∀ child, s.phase task = .woken child → ¬ s.shares task child
  | _ => True

/-! ### Registered waiters -/

/-- The table holds every waiting task. -/
structure Registered : Prop where
  wait : ∀ p c, s.phase p = .waiting c → s.phase c ≠ .exited → s.table.waiters c = some p
  waitAny : ∀ p, s.phase p = .waitingAny → s.table.anyWaiters p = true

variable {s} {l : WaitLabel}

theorem phase_setPhase (task t : TaskId) (p : WaitPhase) : (s.setPhase task p).phase t = if t = task then p else s.phase t := by
  simp [setPhase, update_apply]

theorem table_wake (task : TaskId) : (s.wake task).table = s.table := by
  unfold wake
  split <;> rfl

theorem phase_wake (task t : TaskId) : (s.wake task).phase t = s.phase t ∨
    (t = task ∧ ((∃ c, s.phase t = .waiting c ∧ (s.wake task).phase t = .woken c) ∨
      s.phase t = .waitingAny ∧ (s.wake task).phase t = .wokenAny)) := by
  unfold wake
  split
  · next c hc =>
    by_cases ht : t = task
    · exact .inr ⟨ht, .inl ⟨c, by rw [ht, hc], by rw [phase_setPhase, if_pos ht]⟩⟩
    · exact .inl (by rw [phase_setPhase, if_neg ht])
  · next hc =>
    by_cases ht : t = task
    · exact .inr ⟨ht, .inr ⟨by rw [ht, hc], by rw [phase_setPhase, if_pos ht]⟩⟩
    · exact .inl (by rw [phase_setPhase, if_neg ht])
  · exact .inl rfl

theorem wake_waiting (h : (s.wake task).phase p = .waiting c) : s.phase p = .waiting c := by
  rcases s.phase_wake task p with he | ⟨-, ⟨c', -, hw⟩ | ⟨-, hw⟩⟩
  · rwa [he] at h
  · rw [hw] at h
    cases h
  · rw [hw] at h
    cases h

theorem wake_waitingAny (h : (s.wake task).phase p = .waitingAny) : s.phase p = .waitingAny ∧ p ≠ task := by
  have hp : s.phase p = .waitingAny := by
    rcases s.phase_wake task p with he | ⟨-, ⟨c', -, hw⟩ | ⟨-, hw⟩⟩
    · rwa [he] at h
    · rw [hw] at h
      cases h
    · rw [hw] at h
      cases h
  refine ⟨hp, ?_⟩
  rintro rfl
  simp [wake, hp, setPhase] at h

theorem wake_exited (h : s.phase c = .exited) : (s.wake task).phase c = .exited := by
  rcases s.phase_wake task c with he | ⟨-, ⟨c', hc, -⟩ | ⟨hc, -⟩⟩
  · rw [he, h]
  · rw [h] at hc
    cases hc
  · rw [h] at hc
    cases hc

namespace Registered

variable {s' : Waits}

variable (hr : s.Registered)
include hr

theorem mono (hw : ∀ p c, s'.phase p = .waiting c → s'.phase c ≠ .exited →
      s.phase p = .waiting c ∧ s.phase c ≠ .exited ∧ s'.table.waiters c = s.table.waiters c) (ha : ∀ p, s'.phase p = .waitingAny →
      s.phase p = .waitingAny ∧ s'.table.anyWaiters p = s.table.anyWaiters p) : s'.Registered where
  wait := fun p c hp hc => by
    obtain ⟨hp, hc, he⟩ := hw p c hp hc
    rw [he, hr.wait p c hp hc]
  waitAny := fun p hp => by
    obtain ⟨hp, he⟩ := ha p hp
    rw [he, hr.waitAny p hp]

theorem wake (task : TaskId) : (s.wake task).Registered := by
  refine hr.mono (fun p c hp hc => ⟨wake_waiting hp, fun he => hc (wake_exited he), ?_⟩) fun p hp => ⟨(wake_waitingAny hp).1, ?_⟩
  · rw [table_wake]
  · rw [table_wake]

variable (ht : s.phase task ≠ .exited)
include ht

theorem leave {p : WaitPhase} (hp : p = .running ∨ p = .exited) (hw : table.waiters = s.table.waiters)
    (ha : ∀ q, q ≠ task → table.anyWaiters q = s.table.anyWaiters q) : ({ s with table }.setPhase task p).Registered := by
  have hpne : (∀ c, p ≠ .waiting c) ∧ p ≠ .waitingAny := by rcases hp with rfl | rfl <;> simp
  refine hr.mono (fun q c hq hc => ?_) fun q hq => ?_
  · rw [phase_setPhase] at hq hc
    split at hq
    · exact absurd hq (hpne.1 c)
    refine ⟨hq, ?_, congrFun hw c⟩
    split at hc
    · next hct => rwa [hct]
    · exact hc
  · rw [phase_setPhase] at hq
    split at hq
    · exact absurd hq hpne.2
    · next hqt => exact ⟨hq, ha q hqt⟩

theorem waitFor (hns : ¬ s.shares task child) : (s.waitFor task child).Registered := by
  unfold Waits.waitFor
  rcases s.table.onWait_cases task child with ⟨status, -, he⟩ | he
  · rw [he]
    exact hr.leave ht (.inl rfl) rfl fun _ _ => rfl
  rw [he]
  refine ⟨fun p c hp hc => ?_, fun p hp => ?_⟩
  · rw [phase_setPhase] at hp hc
    split at hp
    · next hpt =>
      cases hp
      simp [setPhase, hpt]
    next hpt =>
    have hc' : s.phase c ≠ .exited := by
      split at hc
      · next hct => rwa [hct]
      · exact hc
    have hne : c ≠ child := by
      rintro rfl
      exact hns ⟨hc', by rw [he], p, hpt, hp⟩
    simpa [setPhase, hne] using hr.wait p c hp hc'
  · rw [phase_setPhase] at hp
    split at hp
    · cases hp
    · exact hr.waitAny p hp

theorem waitForAny (timedOut : Bool) : (s.waitForAny task timedOut).Registered := by
  unfold Waits.waitForAny
  rcases s.table.onWaitAny_cases task with ⟨child, status, -, -, he⟩ | ⟨-, he⟩
  · rw [he]
    exact hr.leave ht (.inl rfl) rfl fun _ _ => rfl
  rw [he]
  cases timedOut with
  | true =>
    refine hr.leave ht (.inl rfl) rfl fun q hq => ?_
    simp [cancelWaitAny, hq]
  | false =>
    refine ⟨fun p c hp hc => ?_, fun p hp => ?_⟩
    · simp only [Bool.false_eq_true, if_false, phase_setPhase] at hp hc
      split at hp
      · cases hp
      refine hr.wait p c hp ?_
      split at hc
      · next hct => rwa [hct]
      · exact hc
    · simp only [Bool.false_eq_true, if_false, phase_setPhase] at hp
      by_cases hpt : p = task
      · simp [setPhase, hpt]
      rw [if_neg hpt] at hp
      simpa [setPhase, hpt] using hr.waitAny p hp

omit ht

/-- The waiter on a dead task is named for its wake, and nobody else loses its record. -/
theorem noteExit (status : Int) : (s.noteExit task status).Registered := by
  have hparent : ∀ (table : ReapTable) (q : Option TaskId), s.table.onExit task status = (q, table) →
      (∀ c, c ≠ task → table.waiters c = s.table.waiters c) ∧ ∀ p, q ≠ some p → table.anyWaiters p = s.table.anyWaiters p := by
    intro table q he
    refine ⟨fun c hc => ?_, fun p hp => ?_⟩
    · rw [← s.table.waiters_onExit_of_ne task status hc, he]
    rcases s.table.onExit_cases task status with ⟨x, -, h⟩ | ⟨x, -, -, -, h⟩ | ⟨-, -, h⟩
    · rw [h] at he
      cases he
      rfl
    · rw [h] at he
      cases he
      have hpx : p ≠ x := fun e => hp (by rw [e])
      simp [hpx]
    · rw [h] at he
      cases he
      rfl
  have dead : ∀ (table : ReapTable) (p c : TaskId), ({ s with table }.setPhase task .exited).phase p = .waiting c →
      ({ s with table }.setPhase task .exited).phase c ≠ .exited →
      c ≠ task ∧ s.phase p = .waiting c ∧ s.phase c ≠ .exited := by
    intro table p c hp hc
    rw [phase_setPhase] at hp hc
    have hct : c ≠ task := fun e => hc (if_pos e)
    rw [if_neg hct] at hc
    split at hp
    · cases hp
    · exact ⟨hct, hp, hc⟩
  unfold Waits.noteExit
  split
  · next parent table he =>
    obtain ⟨hw, ha⟩ := hparent table _ he
    refine hr.mono (fun p c hp hc => ?_) fun p hp => ?_
    · obtain ⟨hct, hp', hc'⟩ := dead table p c (wake_waiting hp) fun e => hc (wake_exited e)
      rw [table_wake]
      exact ⟨hp', hc', hw c hct⟩
    obtain ⟨hp', hne⟩ := wake_waitingAny hp
    rw [phase_setPhase] at hp'
    split at hp'
    · cases hp'
    rw [table_wake]
    exact ⟨hp', ha p fun e => hne (Option.some.inj e).symm⟩
  · next table he =>
    obtain ⟨hw, ha⟩ := hparent table _ he
    refine hr.mono (fun p c hp hc => ?_) fun p hp => ?_
    · obtain ⟨hct, hp', hc'⟩ := dead table p c hp hc
      exact ⟨hp', hc', hw c hct⟩
    rw [phase_setPhase] at hp
    split at hp
    · cases hp
    · exact ⟨hp, ha p (by simp)⟩

theorem step (hl : s.Unshared l) : (s.step l).Registered := by
  cases l with
  | wait task child =>
    simp only [Waits.step]
    split
    · next hp => exact hr.waitFor (by simp [hp]) (hl hp)
    · exact hr
  | waitAny task =>
    simp only [Waits.step]
    split
    · next hp => exact hr.waitForAny (by simp [hp]) false
    · exact hr
  | wakeUp task => exact hr.wake task
  | look task timedOut =>
    simp only [Waits.step]
    split
    · next child hp => exact hr.waitFor (by simp [hp]) (hl child hp)
    · next hp => exact hr.waitForAny (by simp [hp]) timedOut
    · exact hr
  | spawn task child =>
    simp only [Waits.step]
    split
    · next hp => exact hr.leave (by simp [hp.2]) (.inl rfl) rfl fun _ _ => rfl
    · exact hr
  | exit task status =>
    simp only [Waits.step]
    split
    · exact hr.noteExit status
    · exact hr
  | kill task target =>
    simp only [Waits.step]
    split
    · exact hr.noteExit (-9)
    · exact hr

theorem remembers : s.Remembers where
  wait := by
    intro p c status hp hc
    have hreg := hr.wait p c hp hc
    rcases s.table.onExit_cases c status with ⟨q, hq, h⟩ | ⟨q, hnone, -⟩ | ⟨hnone, -⟩
    · rw [h, ← hq, hreg]
    · rw [hreg] at hnone
      cases hnone
    · rw [hreg] at hnone
      cases hnone
  waitAny := by
    intro p c status hp hpar
    have hreg := hr.waitAny p hp
    rcases s.table.onExit_cases c status with ⟨q, -, h⟩ | ⟨q, -, hq, -, h⟩ | ⟨-, hno, -⟩
    · right
      rw [h]
      exact hreg
    · left
      rw [h, ← hq, hpar]
    · rw [hno p hpar] at hreg
      cases hreg

end Registered

/-- A shared wait leaves one of the two tasks forgotten. -/
theorem not_remembers_of_shares (hs : s.shares task child) : ¬ (s.waitFor task child).Remembers := by
  obtain ⟨hc, hblock, other, hne, hother⟩ := hs
  rcases s.table.onWait_cases task child with ⟨status, -, he⟩ | he
  · rw [he] at hblock
    cases hblock
  intro hrem
  have hafter : s.waitFor task child =
      ({ s with table := { s.table with waiters := update s.table.waiters child (some task) } }.setPhase
        task (.waiting child)) := by
    rw [waitFor, he]
  have hphase : (s.waitFor task child).phase child ≠ .exited := by
    rw [hafter, phase_setPhase]
    split
    · simp
    · exact hc
  have hnamed := hrem.wait other child 0 (by rw [hafter, phase_setPhase, if_neg hne]; exact hother) hphase
  rw [hafter] at hnamed
  have hself : (({ s.table with waiters := update s.table.waiters child (some task) } :
      ReapTable).onExit child 0).1 = some task := by
    simp [onExit]
  exact hne (Option.some.inj (hnamed.symm.trans hself))

theorem unshared_of_remembers_step (h : (s.step l).Remembers) : s.Unshared l := by
  cases l with
  | wait task child =>
    intro hp hs
    simp only [step, hp, if_true] at h
    exact not_remembers_of_shares hs h
  | look task timedOut =>
    intro child hp hs
    simp only [step, hp] at h
    exact not_remembers_of_shares hs h
  | _ => trivial

/-- In every run, every waiting task is remembered in every state exactly when no wait is answered
`Block` while another task waits for the same child. -/
theorem waits_remembered_iff (born : TaskId → Bool) (ls : List WaitLabel) :
    (∀ k, (run born (ls.take k)).Remembers) ↔ ∀ k l, ls[k]? = some l → (run born (ls.take k)).Unshared l := by
  constructor
  · intro hrem
    exact Runs.ok_of_forall_take (I := fun _ => True) (C := Unshared) trivial (fun _ _ _ _ => trivial)
      (fun s l _ hs => unshared_of_remembers_step hs) hrem
  intro hok k
  have h0 : (start born).Registered := by
    refine ⟨fun p c hp => ?_, fun p hp => ?_⟩
    all_goals
      simp only [start] at hp
      split at hp <;> cases hp
  have hinv : (run born (ls.take k)).Registered :=
    Runs.invariant_take (I := Registered) (C := Unshared) h0 (fun s l hs hl => hs.step hl) hok k
  exact hinv.remembers

def twoWaiters : List WaitLabel := [.wait 1 3, .wait 2 3]

/-- Its exit names task `2` alone; task `1` waits on with no record of it left. -/
theorem twoWaiters_one_forgotten :
    ¬ (run (· < 4) twoWaiters).Remembers ∧
      (run (· < 4) (twoWaiters ++ [.exit 3 0])).phase 1 = .waiting 3 ∧
      (run (· < 4) (twoWaiters ++ [.exit 3 0])).phase 2 = .woken 3 ∧
      (run (· < 4) (twoWaiters ++ [.exit 3 0])).table.waiters 3 = none := by
  refine ⟨fun h => ?_, by decide⟩
  have hnamed := h.wait 1 3 0 (by decide) (by decide)
  revert hnamed
  decide

end Waits

end SnitchOs.Sched
