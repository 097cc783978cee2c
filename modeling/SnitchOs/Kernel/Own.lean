import SnitchOs.Kernel.Authority

/-!
# The harts' own tasks

Tasks `0` to `n - 1` are the harts' own. They have no process, make no syscall and do nothing but wake
tasks whose time has come and yield.
-/

namespace SnitchOs.Kernel

open Cap Ipc Notify Sched Function List Option State Runqueue

variable {n : Nat}

def Sec.own : Sec n → Bool
  | .sched (.wake _) | .sched .yieldNow => true
  | _ => false

theorem Emits.own (he : Emits s new) (hs : s.own = true) : new = [] := by
  cases he with
  | wake | yieldNow => rfl
  | _ => cases hs

theorem Processes.tables_exec_of_none {p : Processes} {s : CapsSec n}
    (hpub : ∀ handed, s = .publish handed → t ≠ me) (hn : p.tables t = none) : (p.exec me s).1.tables t = none := by
  have hother : ∀ {table : CapTable}, p.tables me = some table → t ≠ me := by
    rintro table hme rfl
    rw [hn] at hme
    cases hme
  unfold exec
  split
  · next handed =>
    obtain ⟨table, ht, -⟩ := p.publish_tables me handed
    rw [ht, update_of_ne (hpub handed rfl), hn]
  · next child =>
    by_cases hc : t = child
    · simp [hc]
    · simp [hc, hn]
  · split
    · next table hme =>
      have htm := hother hme
      unfold execOn
      repeat' split
      all_goals simp [setTable, grantIn, htm, hn]
    · exact hn

/-! ### A hart always has something to switch to -/

/-- A hart's own task runs on it or is queued there. -/
def Home (s : Scheduler n) : Prop := ∀ h : Fin n, s.current h = h ∨ h.val ∈ ids (s.runqueues h)

namespace Home

variable {s s' : Scheduler n} {h : Fin n}

theorem wake (hh : Home s) (id : TaskId) : Home (s.wake h now id) := by
  rcases Placement.wake_cases s h now id with ⟨task, hw⟩ | ⟨-, he⟩
  · intro h'
    rw [hw.current, hw.runqueues]
    refine (hh h').imp_right fun hm => ?_
    by_cases hhh : h' = h
    · subst hhh
      rw [update_self, ids_append]
      exact mem_append_left _ hm
    · rwa [update_of_ne hhh]
  · rwa [he]

theorem switch (hh : Home s) (hs : s.prepareSwitch h now d = some s') (hd : s.current h = h → d.requeues = true) : Home s' := by
  rcases Placement.prepareSwitch_cases hs with ⟨-, rfl⟩ | ⟨next, outgoing, hsw⟩
  · exact hh
  intro h'
  rw [hsw.current, hsw.runqueues]
  by_cases hhh : h' = h
  · subst hhh
    rw [update_self, update_self]
    by_cases hn : next = h'
    · exact .inl hn
    right
    rw [ids_append]
    rcases hh h' with hc | hq
    · -- the hart's own task is switched out, back onto the queue
      rw [hd hc, if_pos rfl, hc]
      simp
    · rw [ids_remove]
      exact mem_append_left _ ((mem_erase_of_ne (Ne.symm hn)).mpr hq)
  · rw [update_of_ne hhh, update_of_ne hhh]
    exact hh h'

theorem kill (hh : Home s) (hok : isSelf = false → remote = false → n ≤ target) : Home (s.kill target isSelf remote).2 := by
  rcases Placement.kill_cases s target isSelf remote with
    ⟨task, -, hself, hremote, -, hk⟩ | ⟨task, -, hk⟩ | ⟨o, -, hk⟩
  · rw [hk]
    refine fun h => (hh h).imp_right fun hm => ?_
    rw [ids_remove]
    exact (mem_erase_of_ne (Nat.ne_of_lt (Nat.lt_of_lt_of_le h.isLt (hok hself hremote)))).mpr hm
  · rwa [hk]
  · rwa [hk]

end Home

/-! ### What they do -/

/-- A hart's own task has no process, and only sections of its own left. -/
structure OwnTasks (k : State n) : Prop where
  bound : n ≤ k.sched.nextTaskId
  todo : ∀ h : Fin n, ∀ s ∈ k.todo h, s.own = true
  table : ∀ h : Fin n, k.procs.tables h = none

namespace OwnTasks

variable {k k' : State n} {h : Fin n} {s : Sec n}

theorem le_of_isProcess (ho : OwnTasks k) (hp : k.isProcess h = true) : n ≤ k.sched.current h := by
  by_contra hlt
  have hnone := ho.table ⟨k.sched.current h, Nat.lt_of_not_le hlt⟩
  simp [isProcess, hnone] at hp

theorem table_exec (ho : OwnTasks k) (ht : k.todo (k.sched.current h) = s :: rest)
    (hexec : k.exec h now rest s = some k') (h' : Fin n) : k'.procs.tables h' = none := by
  rw [(executed hexec).procs]
  unfold procsAfter
  split
  · next s =>
    refine Processes.tables_exec_of_none (fun handed hs he => ?_) (ho.table h')
    -- the handler of an own task publishes nothing
    subst hs
    cases ho.todo h' (.caps (.publish handed)) (by rw [he, ht]; exact mem_cons_self)
  · exact ho.table h'

theorem entry_own (hs : k.step l = some k') (hp : k.isProcess l.hart = false) : ∀ s ∈ k.entry l, s.own = true := by
  cases l with
  | run h now => simp [State.entry]
  | syscall h sys | fault h | killCheck h => simp [State.step, show k.isProcess h = false from hp] at hs
  | yield h => simp [State.entry, Sec.own]
  | timer h now preempt =>
    intro s hs
    rcases mem_entry_timer hs with ⟨t, rfl⟩ | rfl <;> rfl

variable (ho : OwnTasks k)
include ho

theorem todo_step (hs : k.step l = some k') (h' : Fin n) : ∀ s ∈ k'.todo h', s.own = true := by
  intro s hm
  cases origin hs hm with
  | other _ hm => exact ho.todo h' s hm
  | rest _ ht hme hm => exact ho.todo h' s (by rw [hme, ht]; exact mem_cons_of_mem _ hm)
  | @emitted _ _ s' _ _ ht hme he hm =>
    rw [he.own (ho.todo h' s' (by rw [hme, ht]; exact mem_cons_self))] at hm
    cases hm
  | entered hme hm => exact entry_own hs (by simp [isProcess, ← hme, ho.table h']) s hm
  | born _ _ hchild => exact absurd hchild (Nat.ne_of_lt (Nat.lt_of_lt_of_le h'.isLt ho.bound))

theorem step (hs : k.step l = some k') : OwnTasks k' := by
  refine ⟨ho.bound.trans (step_sched hs).nextTaskId_le, ho.todo_step hs, ?_⟩
  rcases step_cases hs with ⟨h, now, s, rest, rfl, ht, hexec⟩ | ⟨-, -, rfl⟩
  · exact ho.table_exec ht hexec
  · exact ho.table

theorem ne_own (ht : k.todo (k.sched.current h) = s :: rest) (hs : s.own = false) : k.sched.current h ≠ h := by
  intro he
  have hown := ho.todo h s (by rw [← he, ht]; exact mem_cons_self)
  rw [hs] at hown
  cases hown

theorem home_exec (hh : Home k.sched) (ht : k.todo (k.sched.current h) = s :: rest)
    (hkill : ∀ handle target, s = .sched (.kill handle target false false) → n ≤ target)
    (hexec : k.exec h now rest s = some k') : Home k'.sched := by
  cases s with
  | sched s =>
    cases s with
    | wake id =>
      cases hexec
      exact hh.wake id
    | yieldNow =>
      obtain ⟨s', hsw, rfl⟩ := map_eq_some_iff.mp hexec
      exact hh.switch hsw fun _ => rfl
    | exitNow =>
      obtain ⟨s', hsw, rfl⟩ := map_eq_some_iff.mp hexec
      exact hh.switch hsw fun hc => absurd hc (ho.ne_own ht rfl)
    | reapTask child | killRead handle target =>
      cases hexec
      exact hh
    | spawn hart handed =>
      cases hexec
      refine fun h' => (hh h').imp_right fun hm => ?_
      by_cases hhh : h' = hart
      · subst hhh
        simp [goOn, Scheduler.spawn, ids_append, hm]
      · simpa [goOn, Scheduler.spawn, hhh] using hm
    | kill handle target isSelf remote =>
      cases hexec
      exact hh.kill fun hself hremote => hkill handle target (by rw [hself, hremote])
  | park r =>
    obtain ⟨s', hsw, rfl⟩ := map_eq_some_iff.mp hexec
    exact hh.switch hsw fun hc => absurd hc (ho.ne_own ht rfl)
  | _ => rwa [(executed hexec).sched rfl]

theorem isBlocked_park (hh : Home k.sched) (ht : k.todo (k.sched.current h) = .park r :: rest)
    (hexec : k.exec h now rest (.park r) = some k') : k'.sched.isBlocked (k.sched.current h) = true := by
  obtain ⟨s', hsw, rfl⟩ := map_eq_some_iff.mp hexec
  rcases Placement.prepareSwitch_cases hsw with ⟨hnil, -⟩ | ⟨next, outgoing, hsw⟩
  · have := (hh h).resolve_left (ho.ne_own ht rfl)
    simp [hnil] at this
  · exact (Placement.isBlocked_update hsw.tasks _).trans (if_pos rfl)

end OwnTasks

theorem Boot.ownTasks (b : Boot n) : OwnTasks b.state where
  bound := Nat.le_add_right ..
  todo := fun _ _ hs => by cases hs
  table := fun h => by simp [Boot.state, Boot.entry]

end SnitchOs.Kernel
