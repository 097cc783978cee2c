import SnitchOs.Hart.Machine
import SnitchOs.Kernel.Placement

/-!
# What a step of the harts does

Every step is one of a few: a quiet one, which only changes what tasks have left to do and the reaping
table; one locked section of the scheduler; one step of a switch; or one access to the address spaces
or the floating-point unit.
-/

namespace SnitchOs.Hart

open Kernel Sched Proc Function Option Machine

variable {n : Nat}

namespace Machine

variable (m : Machine n) (me : TaskId) (l : List (Op n))

@[simp] theorem goOn_sched : (m.goOn me l).sched = m.sched := rfl

@[simp] theorem goOn_switching : (m.goOn me l).switching = m.switching := rfl

@[simp] theorem goOn_kstacks : (m.goOn me l).kstacks = m.kstacks := rfl

@[simp] theorem goOn_spaces : (m.goOn me l).spaces = m.spaces := rfl

@[simp] theorem goOn_fp : (m.goOn me l).fp = m.fp := rfl

@[simp] theorem goOn_todo_self : (m.goOn me l).todo me = l := update_self ..

@[simp] theorem goOn_todo_of_ne (ht : t ≠ me) : (m.goOn me l).todo t = m.todo t :=
  update_of_ne ht ..

@[simp] theorem advance_sched (h : Fin n) (w : Switch) : (m.advance h w).sched = m.sched := by
  unfold advance
  cases w.stage <;> rfl

@[simp] theorem advance_todo (h : Fin n) (w : Switch) : (m.advance h w).todo = m.todo := by
  unfold advance
  cases w.stage <;> rfl

@[simp] theorem advance_user (h : Fin n) (w : Switch) : (m.advance h w).spaces.user = m.spaces.user := by
  unfold advance
  cases w.stage with
  | space =>
    simp only [Spaces.switchTo]
    split <;> rfl
  | _ => rfl

@[simp] theorem advance_switching (h : Fin n) (w : Switch) :
    (m.advance h w).switching = update m.switching h w.following := by
  unfold advance
  cases w.stage <;> rfl

end Machine

/-- Entries that neither end a program nor touch the hart's registers. -/
def Op.plain : Op n → Bool
  | .wake _ | .yieldNow | .block | .flagOwnerless | .noteExit .. | .waitFor _ | .waitForAny _
  | .cancelWaitAny | .reapTask _ | .collectOwnerless | .sweep _ | .spawn .. | .noteSpawn _
  | .killRead _ | .kill .. => true
  | _ => false

/-- Entries of a task that ends, once it has given up its process. -/
def Op.final : Op n → Bool
  | .wake _ | .noteExit .. | .exitNow => true
  | _ => false

/-- The effect of an entry executed by the current task of hart `h`, which has `rest` left. -/
inductive Does (m : Machine n) (h : Fin n) : Op n → List (Op n) → Machine n → Prop
  | quiet {op : Op n} {rest : List (Op n)} (new : List (Op n)) (ownerless : TaskId → Bool)
      (reap : ReapTable) (hop : op.plain = true) (hnew : ∀ o ∈ new, o.plain = true)
      (hfinal : op.final = true → ∀ o ∈ new, o.final = true)
      (hsweep : ∀ v, .sweep v ∈ new → v ∈ m.ownerlessExited) :
      Does m h op rest ({ m with ownerless, reap }.goOn (m.sched.current h) (new ++ rest))
  | wake {id : TaskId} {rest : List (Op n)} (now : Nat) :
      Does m h (.wake id) rest
        ({ m with sched := m.sched.wake h now id }.goOn (m.sched.current h) rest)
  | kill {target : TaskId} {isSelf remote : Bool} {rest : List (Op n)} (new : List (Op n))
      (hnew : ∀ o ∈ new, ∃ c s, o = .noteExit c s) :
      Does m h (.kill target isSelf remote) rest
        ({ m with sched := (m.sched.kill target isSelf remote).2 }.goOn (m.sched.current h) (new ++ rest))
  | remove {op : Op n} {child : TaskId} {rest : List (Op n)}
      (hop : op = .reapTask child ∨ op = .sweep child) (hknown : m.sched.tasks child ≠ none) :
      Does m h op rest ((m.remove child).goOn (m.sched.current h) rest)
  | spawn {hart : Fin n} {kind : SpawnKind} {rest : List (Op n)} (new : List (Op n)) (now : Nat)
      {slot : Slot} (hslot : slot ∉ m.kstacks.inUse) (hnew : ∀ o ∈ new, ∃ c, o = .noteSpawn c) :
      Does m h (.spawn hart kind) rest
        ((m.spawn hart now kind slot).goOn (m.sched.current h) (new ++ rest))
  | keep {op : Op n} {rest : List (Op n)} (hop : op = .yieldNow ∨ op = .block) :
      Does m h op rest (m.goOn (m.sched.current h) rest)
  | switch {op : Op n} {rest : List (Op n)} {now : Nat} {d : CurrentDisposition} {s : Scheduler n}
      (hop : op = .yieldNow ∧ d = .requeue ∨ op = .block ∧ d = .block ∨ op = .exitNow ∧ d = .exit)
      (hs : m.sched.prepareSwitch h now d = some s) (hne : m.sched.runqueues h ≠ []) :
      Does m h op rest ({ m with
        sched := s
        switching := update m.switching h
          (some (Switch.start (m.sched.current h) (s.current h) d (m.spaces.root (s.current h))))
        kstacks := m.kstacks.switchOut (m.sched.current h) d }.goOn (m.sched.current h)
          (resumeWith d rest))
  | clear {rest : List (Op n)} :
      Does m h .clearProcess rest ({ m with spaces := { m.spaces.setProcess h none with
        cleared := update m.spaces.cleared (m.sched.current h) true } }.goOn
          (m.sched.current h) rest)
  | root {rest : List (Op n)} {root : Root} (hroot : root ∉ m.spaces.inUse) :
      Does m h .newUserRoot rest ({ m with spaces := { m.spaces with
        inUse := root :: m.spaces.inUse
        created := update m.spaces.created (m.sched.current h) m.spaces.clock
        clock := m.spaces.clock + 1 } }.goOn (m.sched.current h)
          (.publish :: .setAddressSpace root :: .enterUser root :: rest))
  | publish {rest : List (Op n)} :
      Does m h .publish rest ({ m with
        spaces := m.spaces.setProcess h (some (m.sched.current h)) }.goOn (m.sched.current h) rest)
  | setSpace {rest : List (Op n)} {root : Root} :
      Does m h (.setAddressSpace root) rest ({ m with spaces := { m.spaces with
        root := update m.spaces.root (m.sched.current h) (some root) } }.goOn
          (m.sched.current h) rest)
  | enter {rest : List (Op n)} {root : Root} :
      Does m h (.enterUser root) rest ({ m with
        spaces := { m.spaces.activate h root with
          user := update m.spaces.user (m.sched.current h) true }
        fp := { m.fp.setFs h .off with
          authorised := update m.fp.authorised (m.sched.current h)
            (m.fp.abi (m.sched.current h)).usesHardwareFp } }.goOn (m.sched.current h) rest)
  | refuse {armed : Bool} {rest : List (Op n)} :
      Does m h (.tryEnable armed) rest (m.goOn (m.sched.current h)
        (faultProgram (m.sched.current h) faultedStatus))
  | enable {armed : Bool} {rest : List (Op n)} {p : TaskId}
      (hp : m.spaces.currentProcess h = some p) (hauth : m.fp.authorised p = true)
      (hoff : m.fp.frameFs (m.sched.current h) = .off) :
      Does m h (.tryEnable armed) rest ({ m with fp := { m.fp with
        frameFs := update m.fp.frameFs (m.sched.current h) .initial
        enabled := update m.fp.enabled p true } }.goOn (m.sched.current h)
          [.checkpoint armed, .sret])
  | die {armed : Bool} {rest : List (Op n)} :
      Does m h (.checkpoint armed) rest (m.goOn (m.sched.current h)
        [.noteExit (m.sched.current h) killedStatus, .exitNow])
  | pass {armed : Bool} {rest : List (Op n)} :
      Does m h (.checkpoint armed) rest (m.goOn (m.sched.current h) rest)
  | sret {rest : List (Op n)} :
      Does m h .sret rest ({ m with
        fp := m.fp.setFs h (m.fp.frameFs (m.sched.current h)) }.goOn (m.sched.current h) rest)
  | restore {rest : List (Op n)} :
      Does m h .restoreFp rest ({ m with
        fp := m.fp.restoreAfterSwitch h (m.sched.current h)
          (m.fp.ownsFp (m.spaces.currentProcess h)) }.goOn (m.sched.current h) rest)

variable {m : Machine n} {h : Fin n} {rest : List (Op n)} {now frame : Nat} {d : CurrentDisposition}
  {op : Op n}

theorem switchOut_does (hop : op = .yieldNow ∧ d = .requeue ∨ op = .block ∧ d = .block ∨ op = .exitNow ∧ d = .exit)
    (hs : m.switchOut h now d rest = some m') : Does m h op rest m' := by
  obtain ⟨s, hprep, hm⟩ := map_eq_some_iff.mp hs
  by_cases hnil : m.sched.runqueues h = []
  · rw [if_pos hnil] at hm
    rcases hop with ⟨rfl, rfl⟩ | ⟨rfl, rfl⟩ | ⟨rfl, rfl⟩
    · exact hm ▸ .keep (.inl rfl)
    · exact hm ▸ .keep (.inr rfl)
    -- an exit with nothing to switch to is a panic
    simp [Scheduler.prepareSwitch, hnil, pickNext] at hprep
  · rw [if_neg hnil] at hm
    exact hm ▸ .switch hop hprep hnil

theorem tryEnable_does (m : Machine n) (h : Fin n) (armed : Bool) (rest : List (Op n)) :
    Does m h (.tryEnable armed) rest (m.tryEnable h armed) := by
  unfold tryEnable
  cases hp : m.spaces.currentProcess h with
  | none => exact .refuse
  | some p =>
    simp only
    cases hd : enableDecision (m.fp.authorised p) (m.fp.frameFs (m.sched.current h) == .off) with
    | enable =>
      have hboth : m.fp.frameFs (m.sched.current h) = .off ∧ m.fp.authorised p = true := by
        unfold enableDecision at hd
        split at hd
        · cases hd
        split at hd
        · cases hd
        · next hoff hauth => exact ⟨by simpa using hoff, by simpa using hauth⟩
      exact .enable hp hboth.2 hboth.1
    | refuseUnauthorised | notFpRelated => exact .refuse

theorem Does.quiet' (new : List (Op n)) (reap : ReapTable) (hop : op.plain = true)
    (hnew : ∀ o ∈ new, o.plain = true) (hfinal : op.final = true → ∀ o ∈ new, o.final = true)
    (hsweep : ∀ v, .sweep v ∉ new) : Does m h op rest ({ m with reap }.goOn (m.sched.current h) (new ++ rest)) :=
  .quiet new m.ownerless reap hop hnew hfinal fun v hv => absurd hv (hsweep v)

theorem exec_does (hs : m.exec h now frame rest op = some m') : Does m h op rest m' := by
  cases op with
  | wake id => cases hs; exact .wake now
  | yieldNow => exact switchOut_does (.inl ⟨rfl, rfl⟩) hs
  | block => exact switchOut_does (.inr (.inl ⟨rfl, rfl⟩)) hs
  | exitNow => exact switchOut_does (.inr (.inr ⟨rfl, rfl⟩)) hs
  | flagOwnerless => cases hs; exact .quiet [] _ m.reap rfl (by simp) (by simp) (by simp)
  | clearProcess => cases hs; exact .clear
  | noteExit child status =>
    simp only [exec] at hs
    split at hs
    · next parent r _ =>
      cases hs
      exact .quiet' [.wake parent] _ rfl (by simp [Op.plain]) (by simp [Op.final]) (by simp)
    · cases hs; exact .quiet' [] _ rfl (by simp) (by simp) (by simp)
  | waitFor child =>
    simp only [exec] at hs
    split at hs
    · cases hs; exact .quiet' [.reapTask child] _ rfl (by simp [Op.plain]) (by simp [Op.final]) (by simp)
    · cases hs; exact .quiet' [.block, .waitFor child] _ rfl (by simp [Op.plain]) (by simp [Op.final]) (by simp)
  | waitForAny turns =>
    simp only [exec] at hs
    split at hs
    · next child _ _ _ =>
      cases hs
      exact .quiet' [.reapTask child] _ rfl (by simp [Op.plain]) (by simp [Op.final]) (by simp)
    · cases hs; exact .quiet' [.cancelWaitAny] _ rfl (by simp [Op.plain]) (by simp [Op.final]) (by simp)
    next turns _ =>
    cases hs
    exact .quiet' [.block, .waitForAny turns] _ rfl (by simp [Op.plain]) (by simp [Op.final]) (by simp)
  | cancelWaitAny | noteSpawn child => cases hs; exact .quiet' [] _ rfl (by simp) (by simp) (by simp)
  | reapTask child =>
    simp only [exec] at hs
    split at hs
    · next hk => cases hs; exact .remove (.inl rfl) (isSome_iff_ne_none.mp hk)
    · cases hs; exact .quiet' [] m.reap rfl (by simp) (by simp) (by simp)
  | collectOwnerless =>
    cases hs
    refine .quiet _ m.ownerless m.reap rfl (fun o ho => ?_) (by simp [Op.final]) fun v hv => ?_
    · obtain ⟨v, -, rfl⟩ := List.mem_map.mp ho
      rfl
    · obtain ⟨w, hw, he⟩ := List.mem_map.mp hv
      cases he
      exact hw
  | sweep id =>
    simp only [exec] at hs
    split at hs
    · next hk => cases hs; exact .remove (.inr rfl) (isSome_iff_ne_none.mp hk)
    · cases hs; exact .quiet' [] m.reap rfl (by simp) (by simp) (by simp)
  | spawn hart kind =>
    simp only [exec] at hs
    split at hs
    · cases hs
    next hslot =>
    cases hs
    split
    · exact .spawn [.noteSpawn m.sched.nextTaskId] now hslot (by simp)
    · exact .spawn [] now hslot (by simp)
  | killRead target => cases hs; exact .quiet' [_] m.reap rfl (by simp [Op.plain]) (by simp [Op.final]) (by simp)
  | kill target isSelf remote =>
    cases hs
    split
    · exact .kill [.noteExit target killedStatus] (by simp)
    · exact .kill [] (by simp)
  | newUserRoot =>
    simp only [exec] at hs
    split at hs
    · cases hs
    · next hroot => cases hs; exact .root hroot
  | publish => cases hs; exact .publish
  | setAddressSpace root => cases hs; exact .setSpace
  | enterUser root => cases hs; exact .enter
  | tryEnable armed => cases hs; exact tryEnable_does m h armed rest
  | checkpoint armed =>
    simp only [exec] at hs
    split at hs
    · cases hs; exact .die
    · cases hs; exact .pass
  | sret => cases hs; exact .sret
  | restoreFp => cases hs; exact .restore

/-! ### What the rest of the machine sees of them -/

/-- The current task `me` of hart `h` goes on with `l`; the scheduler and the switches stay. -/
structure GoesOn (m m' : Machine n) (h : Fin n) (me : TaskId) (l : List (Op n)) : Prop where
  current : m.sched.current h = me
  settled : m.switching h = none
  sched : m'.sched = m.sched
  switching : m'.switching = m.switching
  todo : m'.todo = update m.todo me l

/-- Hart `h` starts to switch away from its current task, which has `rest` left. -/
structure SwitchesOut (m m' : Machine n) (h : Fin n) (d : CurrentDisposition) (rest : List (Op n)) : Prop where
  settled : m.switching h = none
  prepared : ∃ now, m.sched.prepareSwitch h now d = some m'.sched
  picked : m.sched.runqueues h ≠ []
  switching : m'.switching = update m.switching h
    (some (.start (m.sched.current h) (m'.sched.current h) d (m.spaces.root (m'.sched.current h))))
  todo : m'.todo = update m.todo (m.sched.current h) (resumeWith d rest)
  kstacks : m'.kstacks = m.kstacks.switchOut (m.sched.current h) d
  spaces : m'.spaces = m.spaces
  fp : m'.fp = m.fp

section Seen

variable {m m' : Machine n} {h h' : Fin n}

theorem Machine.ne_of_switching (hsw : m.switching h = none) (hw : m.switching h' = some w) : h' ≠ h := by
  rintro rfl
  exact absurd (hsw.symm.trans hw) (some_ne_none _).symm

namespace GoesOn

variable {me : TaskId} {l : List (Op n)} (hg : GoesOn m m' h me l)

include hg

theorem todo_self : m'.todo me = l := by rw [hg.todo, update_self]

theorem todo_of_ne (ht : t ≠ me) : m'.todo t = m.todo t := by rw [hg.todo, update_of_ne ht]

theorem current_ne (hp : Placement m.sched) (hh : h' ≠ h) : m.sched.current h' ≠ me := fun he =>
  hh (hp.current_injective (he.trans hg.current.symm))

end GoesOn

namespace SwitchesOut

variable (hs : SwitchesOut m m' h d rest)

include hs

theorem sched : ∃ now next outgoing, Placement.Switched m.sched m'.sched h now d next outgoing := by
  obtain ⟨now, hprep⟩ := hs.prepared
  rcases Placement.prepareSwitch_cases hprep with ⟨hnil, -⟩ | hs'
  · exact absurd hnil hs.picked
  · exact ⟨now, hs'⟩

theorem placement (hp : Placement m.sched) : Placement m'.sched := by
  obtain ⟨now, hprep⟩ := hs.prepared
  exact hp.switch hprep

theorem todo_self : m'.todo (m.sched.current h) = resumeWith d rest := by rw [hs.todo, update_self]

theorem todo_of_ne (ht : t ≠ m.sched.current h) : m'.todo t = m.todo t := by
  rw [hs.todo, update_of_ne ht]

theorem switching_self : m'.switching h =
    some (.start (m.sched.current h) (m'.sched.current h) d (m.spaces.root (m'.sched.current h))) := by
  rw [hs.switching, update_self]

theorem switching_of_ne (hh : h' ≠ h) : m'.switching h' = m.switching h' := by
  rw [hs.switching, update_of_ne hh]

theorem current_of_ne (hh : h' ≠ h) : m'.sched.current h' = m.sched.current h' := by
  obtain ⟨_, _, _, hs'⟩ := hs.sched
  rw [hs'.current, update_of_ne hh]

theorem current_queued : m'.sched.current h ∈ Runqueue.ids (m.sched.runqueues h) := by
  obtain ⟨_, _, _, hs'⟩ := hs.sched
  rw [hs'.current, update_self]
  exact hs'.queued

theorem current_ne (hp : Placement m.sched) (h' : Fin n) : m'.sched.current h' ≠ m.sched.current h := by
  by_cases hh : h' = h
  · rw [hh]
    exact fun he => hp.current_not_queued h h (he ▸ hs.current_queued)
  · rw [hs.current_of_ne hh]
    exact fun he => hh (hp.current_injective he)

theorem isBlocked_of_ne (ht : t ≠ m.sched.current h) : m'.sched.isBlocked t = m.sched.isBlocked t := by
  obtain ⟨_, _, _, hs'⟩ := hs.sched
  rw [Placement.isBlocked_update hs'.tasks, if_neg ht]

theorem mem_runqueues (hm : t ∈ Runqueue.ids (m'.sched.runqueues h')) :
    t ∈ Runqueue.ids (m.sched.runqueues h') ∨ h' = h ∧ t = m.sched.current h ∧ d = .requeue := by
  obtain ⟨_, _, _, hs'⟩ := hs.sched
  exact hs'.mem_runqueues hm

theorem current_known (hk : ∀ h, m.sched.tasks (m.sched.current h) ≠ none) (h' : Fin n) :
    m.sched.tasks (m'.sched.current h') ≠ none := by
  obtain ⟨_, _, _, hs'⟩ := hs.sched
  rw [hs'.current]
  by_cases hh : h' = h
  · rw [hh, update_self]
    exact hs'.known
  · rw [update_of_ne hh]
    exact hk h'

end SwitchesOut

end Seen

theorem switchesOut (hsw : m.switching h = none)
    (hs : m.sched.prepareSwitch h now d = some s) (hne : m.sched.runqueues h ≠ []) : SwitchesOut m ({ m with
      sched := s
      switching := update m.switching h
        (some (Switch.start (m.sched.current h) (s.current h) d (m.spaces.root (s.current h))))
      kstacks := m.kstacks.switchOut (m.sched.current h) d }.goOn (m.sched.current h) (resumeWith d rest)) h d rest :=
  ⟨hsw, ⟨now, hs⟩, hne, rfl, rfl, rfl, rfl, rfl⟩

/-! ### Steps -/

/-- The entry a step executes. -/
def Machine.entry (m : Machine n) : Label n → Option (Op n)
  | .run h _ _ => if m.switching h = none then (m.todo (m.sched.current h)).head? else none
  | _ => none

theorem Machine.entry_run (hsw : m.switching h = none)
    (htodo : m.todo (m.sched.current h) = op :: rest) : m.entry (.run h now frame) = some op := by
  simp [entry, hsw, htodo]

/-- A step, by what it is and does. -/
inductive Stepped (m : Machine n) : Label n → Machine n → Prop
  | run {h : Fin n} {now frame : Nat} {op : Op n} {rest : List (Op n)} {m' : Machine n}
      (hsw : m.switching h = none) (htodo : m.todo (m.sched.current h) = op :: rest)
      (hd : Does m h op rest m') : Stepped m (.run h now frame) m'
  | stage {h : Fin n} {sw : Switch} (hsw : m.switching h = some sw) : Stepped m (.stage h) (m.advance h sw)
  | interrupt (h : Fin n) (now : Nat) (id : TaskId) :
      Stepped m (.interrupt h now id) { m with sched := m.sched.wake h now id }
  | kernel {h : Fin n} (call : KernelCall n) (hsw : m.switching h = none)
      (htodo : m.todo (m.sched.current h) = []) (huser : m.spaces.user (m.sched.current h) = false) :
      Stepped m (.kernel h call) (m.goOn (m.sched.current h) call.program)
  | trap {h : Fin n} {call : UserCall n} {armed : Bool} (hsw : m.switching h = none)
      (htodo : m.todo (m.sched.current h) = []) (huser : m.spaces.user (m.sched.current h) = true) :
      Stepped m (.trap h call armed) (m.enter h (call.program (m.sched.current h) armed))
  | fpTrap {h : Fin n} {armed : Bool} (hsw : m.switching h = none)
      (htodo : m.todo (m.sched.current h) = []) (huser : m.spaces.user (m.sched.current h) = true)
      (hoff : m.fp.fs h = .off) : Stepped m (.fpTrap h armed) (m.enter h [.tryEnable armed])
  | fpWrite {h : Fin n} {r : Fin 33} {v : UInt64} (hsw : m.switching h = none)
      (htodo : m.todo (m.sched.current h) = []) (huser : m.spaces.user (m.sched.current h) = true)
      (hon : m.fp.fs h ≠ .off) :
      Stepped m (.fpWrite h r v) { m with fp := { m.fp with
        regs := update m.fp.regs h (update (m.fp.regs h) r v)
        fs := update m.fp.fs h .dirty
        log := m.fp.log ++ [.wrote (m.sched.current h) r v] } }
  | fpRead {h : Fin n} {r : Fin 33} (hsw : m.switching h = none)
      (htodo : m.todo (m.sched.current h) = []) (huser : m.spaces.user (m.sched.current h) = true)
      (hon : m.fp.fs h ≠ .off) :
      Stepped m (.fpRead h r) { m with fp := { m.fp with
        log := m.fp.log ++ [.read (m.sched.current h) r (m.fp.regs h r)] } }

theorem settled_iff : m.settled h = true ↔ m.switching h = none ∧ m.todo (m.sched.current h) = [] := by
  simp [settled]

theorem inUser_iff : m.inUser h = true ↔ m.switching h = none ∧ m.todo (m.sched.current h) = [] ∧
      m.spaces.user (m.sched.current h) = true := by
  simp [inUser, settled_iff, and_assoc]

theorem step_stepped (hs : m.step l = some m') : Stepped m l m' := by
  cases l with
  | run h now frame =>
    simp only [step] at hs
    split at hs
    · next hsw htodo => exact .run hsw htodo (exec_does hs)
    · cases hs
  | stage h =>
    simp only [step] at hs
    split at hs
    · next hsw => cases hs; exact .stage hsw
    · cases hs
  | interrupt h now id => cases hs; exact .interrupt h now id
  | kernel h call =>
    obtain ⟨hc, he⟩ := ite_none_right_eq_some.mp hs
    cases he
    simp only [Bool.and_eq_true, settled_iff, Bool.not_eq_true'] at hc
    exact .kernel call hc.1.1 hc.1.2 hc.2
  | trap h call armed =>
    obtain ⟨hc, he⟩ := ite_none_right_eq_some.mp hs
    cases he
    obtain ⟨hsw, htodo, huser⟩ := inUser_iff.mp hc
    exact .trap hsw htodo huser
  | fpTrap h armed =>
    obtain ⟨hc, he⟩ := ite_none_right_eq_some.mp hs
    cases he
    simp only [Bool.and_eq_true, inUser_iff, beq_iff_eq] at hc
    exact .fpTrap hc.1.1 hc.1.2.1 hc.1.2.2 hc.2
  | fpWrite h r v =>
    obtain ⟨hc, he⟩ := ite_none_right_eq_some.mp hs
    cases he
    simp only [Bool.and_eq_true, inUser_iff, bne_iff_ne] at hc
    exact .fpWrite hc.1.1 hc.1.2.1 hc.1.2.2 hc.2
  | fpRead h r =>
    obtain ⟨hc, he⟩ := ite_none_right_eq_some.mp hs
    cases he
    simp only [Bool.and_eq_true, inUser_iff, bne_iff_ne] at hc
    exact .fpRead hc.1.1 hc.1.2.1 hc.1.2.2 hc.2

end SnitchOs.Hart
