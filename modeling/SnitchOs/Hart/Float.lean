import SnitchOs.Hart.Space
import SnitchOs.Lib.Log

/-!
# Floating-point registers

Where the registers of a process that uses floating point are: in the hart while it runs there, in its context from
the save on, and nowhere to be read in between. `written` is what the process itself has put there. All this rests on
the hart's `CURRENT_PROCESS` being the running process, and on no other hart resuming a task before its registers are
saved.
-/

namespace SnitchOs.Hart

open Kernel Sched Proc Function List Option Switch Label Machine Bool

variable {n : Nat} {t : TaskId}

/-! ### What a process has written -/

def FpEvent.task : FpEvent → TaskId
  | .wrote t _ _ => t
  | .read t _ _ => t

/-- The registers as the instructions of `t` alone leave them. -/
def written (log : List FpEvent) (t : TaskId) : FpRegs :=
  log.foldl (fun regs e =>
    match e with
    | .wrote t' r v => if t' = t then update regs r v else regs
    | .read .. => regs) fun _ => 0

theorem written_wrote (log : List FpEvent) (t : TaskId) (r : Fin 33) (v : UInt64) :
    written (log ++ [FpEvent.wrote t r v]) t = update (written log t) r v := by
  simp [written]

theorem written_wrote_of_ne (log : List FpEvent) (hu : u ≠ t) (r : Fin 33) (v : UInt64) :
    written (log ++ [FpEvent.wrote t r v]) u = written log u := by
  simp [written, Ne.symm hu]

theorem written_read (log : List FpEvent) (t u : TaskId) (r : Fin 33) (v : UInt64) :
    written (log ++ [FpEvent.read t r v]) u = written log u := by
  simp [written]

/-- Every value read is the last one the reader itself has written. -/
def Faithful (log : List FpEvent) : Prop :=
  Log.EachAfter (fun pre e => ∀ t r v, e = .read t r v → v = written pre t r) log

theorem Faithful.append_wrote (hf : Faithful log) (t : TaskId) (r : Fin 33) (v : UInt64) :
    Faithful (log ++ [FpEvent.wrote t r v]) :=
  hf.concat fun _ _ _ he => by cases he

theorem Faithful.append_read (hf : Faithful log) (hv : v = written log t r) : Faithful (log ++ [FpEvent.read t r v]) :=
  hf.concat fun _ _ _ he => by cases he; exact hv

/-! ### The invariant -/

/-- The outgoing registers are still in the hart. -/
def Switch.early (w : Switch) : Bool := w.stage == .space || w.stage == .fp

variable {w : Switch} {h : Fin n} {l rest : List (Op n)}
  {m : Machine n}

theorem Switch.late_of_following_none (hw : w.following = none) : w.early = false := by
  unfold following at hw
  split at hw
  · cases hw
  · cases hw
  · cases hw
  · next hst => simp [early, hst]

/-- The registers of hart `h` are those of `t`; a save would keep them, or is not needed. -/
def Holds (f : FpUnit n) (h : Fin n) (t : TaskId) : Prop :=
  f.regs h = written f.log t ∧ (f.fs h = .dirty ∨ f.area t = written f.log t)

structure OwnedTask (m : Machine n) (t : TaskId) : Prop where
  tail : .restoreFp ∉ (m.todo t).tail
  resumes : m.spaces.user t = true → Waits m t → (m.todo t).head? = some .restoreFp
  enabled : m.fp.enabled t = true → m.spaces.user t = true ∧ m.fp.authorised t = true
  authorised : m.fp.authorised t = true → m.spaces.user t = true ∧ (m.fp.abi t).usesHardwareFp = true
  off : m.fp.enabled t = false → m.fp.area t = (fun _ => 0) ∧ written m.fp.log t = (fun _ => 0) ∧
    m.fp.frameFs t = .off
  /-- A task that is to restore its registers has them saved, once they are out of the hart it left. -/
  saved : m.fp.enabled t = true → (m.todo t).head? = some .restoreFp →
    (∀ h w, m.switching h = some w → w.out = t → w.early = false) → m.fp.area t = written m.fp.log t

structure OwnedHart (m : Machine n) (h : Fin n) : Prop where
  dirty : m.fp.fs h = .dirty → m.fp.enabled (m.executing h) = true
  userOff : m.switching h = none → m.spaces.user (m.sched.current h) = true →
    m.fp.enabled (m.sched.current h) = false → (m.todo (m.sched.current h)).head? ≠ some .restoreFp →
    m.fp.fs h = .off
  running : m.switching h = none → m.fp.enabled (m.sched.current h) = true →
    (m.todo (m.sched.current h)).head? ≠ some .restoreFp → Holds m.fp h (m.sched.current h) ∧
    (m.todo (m.sched.current h) ≠ [] → m.fp.frameFs (m.sched.current h) = .dirty ∨
      m.fp.area (m.sched.current h) = written m.fp.log (m.sched.current h))
  leaving : ∀ w, m.switching h = some w → w.early = true → w.twoWay = true → m.fp.enabled w.out = true →
    Holds m.fp h w.out
  handed : ∀ w, m.switching h = some w → w.early = false → m.fp.fs h = .off
  oneWay : ∀ w, m.switching h = some w → w.twoWay = false → m.todo w.out = []

structure Owned (m : Machine n) : Prop where
  tasks : ∀ t, OwnedTask m t
  harts : ∀ h, OwnedHart m h
  faithful : Faithful m.fp.log
  logged : ∀ e ∈ m.fp.log, m.fp.enabled e.task = true

/-! ### Harts and tasks a step does not touch -/

structure SameTask (f f' : FpUnit n) (t : TaskId) : Prop where
  frameFs : f'.frameFs t = f.frameFs t
  area : f'.area t = f.area t
  abi : f'.abi t = f.abi t
  authorised : f'.authorised t = f.authorised t
  enabled : f'.enabled t = f.enabled t
  written : written f'.log t = written f.log t

theorem SameTask.refl (f : FpUnit n) (t : TaskId) : SameTask f f t := ⟨rfl, rfl, rfl, rfl, rfl, rfl⟩

section Congr

theorem OwnedTask.congr (ho : OwnedTask m t) (htodo : m'.todo t = m.todo t) (hwaits : Waits m' t → Waits m t)
    (huser : m'.spaces.user t = m.spaces.user t) (hf : SameTask m.fp m'.fp t)
    (hlate : (∀ h w, m'.switching h = some w → w.out = t → w.early = false) →
      ∀ h w, m.switching h = some w → w.out = t → w.early = false) : OwnedTask m' t where
  tail := htodo ▸ ho.tail
  resumes := fun hu hw => htodo ▸ ho.resumes (huser ▸ hu) (hwaits hw)
  enabled := by
    rw [hf.enabled, huser, hf.authorised]
    exact ho.enabled
  authorised := by
    rw [hf.authorised, huser, hf.abi]
    exact ho.authorised
  off := by
    rw [hf.enabled, hf.area, hf.written, hf.frameFs]
    exact ho.off
  saved := by
    rw [hf.enabled, htodo, hf.area, hf.written]
    exact fun he hh hl => ho.saved he hh (hlate hl)

theorem OwnedHart.congr (ho : OwnedHart m h) (hcur : m'.sched.current h = m.sched.current h)
    (hsw : m'.switching h = m.switching h) (hregs : m'.fp.regs h = m.fp.regs h ∧ m'.fp.fs h = m.fp.fs h)
    (htask : ∀ t, t = m.sched.current h ∨ t = m.executing h →
      m'.todo t = m.todo t ∧ m'.spaces.user t = m.spaces.user t ∧ SameTask m.fp m'.fp t) : OwnedHart m' h := by
  obtain ⟨htodo, huser, hf⟩ := htask _ (.inl rfl)
  have hexec : m'.executing h = m.executing h := by rw [executing, executing, hsw, hcur]
  have hout : ∀ w, m'.switching h = some w → m.switching h = some w ∧ m'.todo w.out = m.todo w.out ∧
      SameTask m.fp m'.fp w.out := by
    intro w hw
    rw [hsw] at hw
    obtain ⟨htodo, -, hf⟩ := htask w.out (.inr (m.executing_of_switching hw).symm)
    exact ⟨hw, htodo, hf⟩
  refine ⟨?_, ?_, ?_, fun w hw => ?_, fun w hw => ?_, fun w hw => ?_⟩
  · rw [hregs.2, hexec, (htask _ (.inr rfl)).2.2.enabled]
    exact ho.dirty
  · rw [hsw, hcur, huser, hf.enabled, htodo, hregs.2]
    exact ho.userOff
  · rw [hsw, hcur, hf.enabled, htodo, Holds, hregs.1, hregs.2, hf.written, hf.area, hf.frameFs]
    exact ho.running
  · obtain ⟨hw, -, hf⟩ := hout w hw
    rw [hf.enabled, Holds, hregs.1, hregs.2, hf.written, hf.area]
    exact ho.leaving w hw
  · rw [hregs.2]
    exact ho.handed w (hout w hw).1
  · obtain ⟨hw, htodo, -⟩ := hout w hw
    rw [htodo]
    exact ho.oneWay w hw

end Congr

namespace Owned

variable {m m' : Machine n}

variable (ho : Owned m)
include ho

theorem congr (h₁ : m'.sched = m.sched) (h₂ : m'.switching = m.switching) (h₃ : m'.todo = m.todo)
    (h₄ : m'.spaces.user = m.spaces.user) (h₅ : m'.fp = m.fp) : Owned m' where
  tasks := fun t => (ho.tasks t).congr (by rw [h₃]) (by simp only [Waits, h₁, h₂, imp_self]) (by rw [h₄])
    (h₅ ▸ .refl ..) (h₂ ▸ id)
  harts := fun h => (ho.harts h).congr (by rw [h₁]) (by rw [h₂]) (by rw [h₅]; exact ⟨rfl, rfl⟩) fun t _ =>
    ⟨by rw [h₃], by rw [h₄], h₅ ▸ .refl ..⟩
  faithful := h₅ ▸ ho.faithful
  logged := h₅ ▸ ho.logged

/-! ### The scheduler's sections -/

theorem sched (he : Eases m.sched s) : Owned { m with sched := s } where
  tasks := fun t => (ho.tasks t).congr rfl (.of_eases he) rfl (.refl ..) id
  harts := fun h => (ho.harts h).congr (by rw [he.current]) rfl ⟨rfl, rfl⟩ fun t _ => ⟨rfl, rfl, .refl ..⟩
  faithful := ho.faithful
  logged := ho.logged

theorem spawn (hs : Spaced m) (ha : Apart m.sched m.switching) (hart : Fin n) (now : Nat)
    (kind : SpawnKind) (slot : Slot) : Owned (m.spawn hart now kind slot) := by
  obtain ⟨-, huser, -, -⟩ := hs.fresh m.sched.nextTaskId (Nat.le_refl _)
  obtain ⟨start, abi, htodo, hstart, hfp, habi⟩ : ∃ (start : List (Op n)) (abi : TaskId → FloatAbi),
      (m.spawn hart now kind slot).todo = update m.todo m.sched.nextTaskId start ∧
      .restoreFp ∉ start ∧ (m.spawn hart now kind slot).fp = { m.fp with abi } ∧
      ∀ t, t ≠ m.sched.nextTaskId → abi t = m.fp.abi t := by
    cases kind with
    | kernel => exact ⟨_, _, rfl, by simp, rfl, fun _ _ => rfl⟩
    | user abi => exact ⟨_, _, rfl, by simp, rfl, fun t ht => update_of_ne ht ..⟩
  have hsame : ∀ t, t ≠ m.sched.nextTaskId → (m.spawn hart now kind slot).todo t = m.todo t ∧
      SameTask m.fp (m.spawn hart now kind slot).fp t := by
    intro t ht
    rw [htodo, hfp, update_of_ne ht]
    exact ⟨rfl, { SameTask.refl m.fp t with abi := habi t ht }⟩
  refine ⟨fun t => ?_, fun h => ?_, by rw [hfp]; exact ho.faithful, by rw [hfp]; exact ho.logged⟩
  · by_cases ht : t = m.sched.nextTaskId
    · subst ht
      have hnot : ∀ {P : Prop}, m.spaces.user m.sched.nextTaskId = true → P := fun hu =>
        absurd (huser.symm.trans hu) false_ne_true
      have hold := ho.tasks m.sched.nextTaskId
      refine ⟨?_, hnot, ?_, ?_, ?_, fun _ hh => ?_⟩
      · rw [htodo, update_self]
        exact fun hm => hstart (mem_of_mem_tail hm)
      · rw [hfp]
        exact hold.enabled
      · rw [hfp]
        exact fun hauth => hnot (hold.authorised hauth).1
      · rw [hfp]
        exact hold.off
      · rw [htodo, update_self] at hh
        exact absurd (mem_of_mem_head? hh) hstart
    · exact (ho.tasks t).congr (hsame t ht).1 (.of_spawn ht) rfl (hsame t ht).2 id
  · refine (ho.harts h).congr rfl rfl (by rw [hfp]; exact ⟨rfl, rfl⟩) fun t ht => ?_
    have hne : t ≠ m.sched.nextTaskId := by
      rcases ht with rfl | rfl
      · exact Nat.ne_of_lt (hs.placement.current_lt h)
      · exact Nat.ne_of_lt (ha.executing_lt h)
    exact ⟨(hsame t hne).1, rfl, (hsame t hne).2⟩

/-! ### What the current task does -/

variable (ha : Apart m.sched m.switching)
include ha

/-- The current task of hart `h` changes its own part of the floating-point unit and goes on with `l`. -/
theorem own (hg : GoesOn m m' h me l) (huser : ∀ t, t ≠ me → m'.spaces.user t = m.spaces.user t)
    (hf : ∀ t, t ≠ me → SameTask m.fp m'.fp t)
    (hr : ∀ h', h' ≠ h → m'.fp.regs h' = m.fp.regs h' ∧ m'.fp.fs h' = m.fp.fs h') (hl : .restoreFp ∉ l)
    (henabled : m'.fp.enabled me = true → m'.spaces.user me = true ∧ m'.fp.authorised me = true)
    (hauthorised : m'.fp.authorised me = true → m'.spaces.user me = true ∧ (m'.fp.abi me).usesHardwareFp = true)
    (hoff : m'.fp.enabled me = false → m'.fp.area me = (fun _ => 0) ∧
      written m'.fp.log me = (fun _ => 0) ∧ m'.fp.frameFs me = .off) (hdirty : m'.fp.fs h = .dirty → m'.fp.enabled me = true)
    (huserOff : m'.spaces.user me = true → m'.fp.enabled me = false → m'.fp.fs h = .off)
    (hrunning : m'.fp.enabled me = true → Holds m'.fp h me ∧
      (l ≠ [] → m'.fp.frameFs me = .dirty ∨ m'.fp.area me = written m'.fp.log me)) (hfaithful : Faithful m'.fp.log)
    (hlogged : ∀ e ∈ m'.fp.log, m'.fp.enabled e.task = true) : Owned m' := by
  refine ⟨fun t => ?_, fun h' => ?_, hfaithful, hlogged⟩
  · by_cases ht : t = me
    · subst ht
      refine ⟨?_, fun _ hw => absurd hw (Waits.not_of_goesOn hg ha.placement), henabled, hauthorised, hoff, fun _ hh => ?_⟩
      · rw [hg.todo_self]
        exact fun hm => hl (mem_of_mem_tail hm)
      · rw [hg.todo_self] at hh
        exact absurd (mem_of_mem_head? hh) hl
    · exact (ho.tasks t).congr (hg.todo_of_ne ht) (Waits.goesOn_iff hg).mp (huser t ht) (hf t ht) (hg.switching ▸ id)
  by_cases hh : h' = h
  · subst hh
    have hcur : m'.sched.current h' = me := hg.sched ▸ hg.current
    have hsw : m'.switching h' = none := hg.switching ▸ hg.settled
    have hnot : ∀ w, m'.switching h' ≠ some w := fun w hw => ne_of_switching hsw hw rfl
    refine ⟨?_, ?_, ?_, fun w hw => absurd hw (hnot w), fun w hw => absurd hw (hnot w), fun w hw => absurd hw (hnot w)⟩
    · rw [executing_of_settled hsw, hcur]
      exact hdirty
    · rw [hcur]
      exact fun _ hu he _ => huserOff hu he
    · rw [hcur, hg.todo_self]
      exact fun _ he _ => hrunning he
  · refine (ho.harts h').congr (by rw [hg.sched]) (by rw [hg.switching]) (hr h' hh) fun t ht => ?_
    have hne : t ≠ me := by
      rcases ht with rfl | rfl
      · exact hg.current_ne ha.placement hh
      · exact hg.current ▸ ha.executing_ne_current hh
    exact ⟨hg.todo_of_ne hne, huser t hne, hf t hne⟩

theorem goOn (hg : GoesOn m m' h me l) (huser : m'.spaces.user = m.spaces.user) (hfp : m'.fp = m.fp)
    (hhead : (m.todo me).head? ≠ some .restoreFp) (hne : m.fp.enabled me = true → m.todo me ≠ [])
    (hl : .restoreFp ∉ l) : Owned m' := by
  obtain ⟨rfl, hsw, -, -, -⟩ := id hg
  have hold := ho.tasks (m.sched.current h)
  refine ho.own ha hg (fun t _ => by rw [huser]) (fun t _ => hfp ▸ .refl ..) (fun h' _ => by rw [hfp]; exact ⟨rfl, rfl⟩)
    hl ?_ ?_ ?_ ?_ ?_ ?_ (hfp ▸ ho.faithful) (hfp ▸ ho.logged)
  · rw [huser, hfp]
    exact hold.enabled
  · rw [huser, hfp]
    exact hold.authorised
  · rw [hfp]
    exact hold.off
  · rw [hfp, ← executing_of_settled hsw]
    exact (ho.harts h).dirty
  · rw [huser, hfp]
    exact fun hu he => (ho.harts h).userOff hsw hu he hhead
  rw [hfp]
  intro he
  obtain ⟨hholds, hframe⟩ := (ho.harts h).running hsw he hhead
  exact ⟨hholds, fun _ => hframe (hne he)⟩

/-! ### Switches -/

theorem switch (htodo : m.todo (m.sched.current h) = op :: rest)
    (hop : op ≠ .restoreFp) (hs : SwitchesOut m m' h d rest) : Owned m' := by
  have hsame : ∀ t, SameTask m.fp m'.fp t := fun t => hs.fp ▸ .refl ..
  refine ⟨fun t => ?_, fun h' => ?_, hs.fp ▸ ho.faithful, hs.fp ▸ ho.logged⟩
  · by_cases ht : t = m.sched.current h
    · subst ht
      have hold := ho.tasks (m.sched.current h)
      refine ⟨?_, fun _ hw => ?_, hs.spaces ▸ hs.fp ▸ hold.enabled, hs.spaces ▸ hs.fp ▸ hold.authorised,
        hs.fp ▸ hold.off, fun _ _ hl => ?_⟩
      · have hrest := hold.tail
        rw [htodo] at hrest
        rw [hs.todo_self]
        cases d with
        | exit => simp [resumeWith]
        | requeue | block => exact hrest
      · rw [hs.todo_self]
        cases d with
        | exit => exact absurd hw (Waits.not_of_exit ha.placement hs)
        | requeue | block => rfl
      · cases hl h _ hs.switching_self rfl
    · refine (ho.tasks t).congr (hs.todo_of_ne ht) (.of_switch hs ht) (by rw [hs.spaces]) (hsame t) fun hl h' w hw => ?_
      exact hl h' w (hs.switching_of_ne (m.ne_of_switching hs.settled hw) ▸ hw)
  · by_cases hh : h' = h
    · subst hh
      have hthis : ∀ w, m'.switching h' = some w → w.out = m.sched.current h' ∧ w.twoWay = (d != .exit) ∧
          w.early = true := by
        intro w hw
        rw [hs.switching_self] at hw
        cases hw
        exact ⟨rfl, rfl, rfl⟩
      have hsome : m'.switching h' ≠ none := hs.switching_self ▸ some_ne_none _
      refine ⟨?_, fun hn => absurd hn hsome, fun hn => absurd hn hsome, fun w hw _ _ he => ?_, fun w hw hst => ?_,
        fun w hw htwo => ?_⟩
      · rw [executing_of_switching hs.switching_self, hs.fp]
        exact m.executing_of_settled hs.settled ▸ (ho.harts h').dirty
      · rw [(hthis w hw).1, hs.fp] at he ⊢
        exact ((ho.harts h').running hs.settled he (by simpa [htodo] using hop)).1
      · exact absurd ((hthis w hw).2.2.symm.trans hst) false_ne_true.symm
      rw [(hthis w hw).2.1, bne_eq_false_iff_eq] at htwo
      rw [(hthis w hw).1, hs.todo_self, htwo]
      rfl
    · refine (ho.harts h').congr (hs.current_of_ne hh) (hs.switching_of_ne hh) (by rw [hs.fp]; exact ⟨rfl, rfl⟩) fun t ht => ?_
      have hne : t ≠ m.sched.current h := by
        rcases ht with rfl | rfl
        · exact fun he => hh (ha.placement.current_injective he)
        · exact ha.executing_ne_current hh
      exact ⟨hs.todo_of_ne hne, by rw [hs.spaces], hsame t⟩

theorem advance (hw : m.switching h = some w) (hf : ∀ t, t ≠ w.out → SameTask m.fp (m.advance h w).fp t)
    (hr : ∀ h', h' ≠ h → (m.advance h w).fp.regs h' = m.fp.regs h' ∧ (m.advance h w).fp.fs h' = m.fp.fs h')
    (hout : OwnedTask (m.advance h w) w.out) (hhart : OwnedHart (m.advance h w) h)
    (hlog : (m.advance h w).fp.log = m.fp.log ∧ (m.advance h w).fp.enabled = m.fp.enabled) : Owned (m.advance h w) := by
  have huser := m.advance_user h w
  have hsw : ∀ h', h' ≠ h → (m.advance h w).switching h' = m.switching h' := fun h' hh => by
    rw [m.advance_switching, update_of_ne hh]
  refine ⟨fun t => ?_, fun h' => ?_, hlog.1 ▸ ho.faithful, hlog.1 ▸ hlog.2 ▸ ho.logged⟩
  · by_cases ht : t = w.out
    · exact ht ▸ hout
    refine (ho.tasks t).congr (by rw [m.advance_todo]) (.of_advance hw) (by rw [huser]) (hf t ht)
      fun hl h' v hv hvo => hl h' v ?_ hvo
    rw [hsw h' ?_, hv]
    rintro rfl
    obtain rfl := some.inj (hw.symm.trans hv)
    exact ht hvo.symm
  · by_cases hh : h' = h
    · exact hh ▸ hhart
    refine (ho.harts h').congr (by rw [m.advance_sched]) (hsw h' hh) (hr h' hh) fun t ht => ?_
    have hne : t ≠ w.out := by
      rcases ht with rfl | rfl
      · exact (ha.out_current h w hw h').symm
      · exact ha.executing_ne_out hw hh
    exact ⟨by rw [m.advance_todo], by rw [huser], hf t hne⟩

theorem advance_same (hw : m.switching h = some w) (hst : w.stage ≠ .fp) : Owned (m.advance h w) := by
  have hfp : (m.advance h w).fp = m.fp := by
    unfold Machine.advance
    cases hs : w.stage with
    | fp => exact absurd hs hst
    | _ => rfl
  have huser := m.advance_user h w
  have hsame : ∀ t, SameTask m.fp (m.advance h w).fp t := fun t => hfp ▸ .refl ..
  have hthis : (m.advance h w).switching h = w.following := by rw [m.advance_switching, update_self]
  -- what follows is early if this is
  have hnext : ∀ v, w.following = some v → v.out = w.out ∧ v.twoWay = w.twoWay ∧ v.early = w.early := by
    intro v hv
    obtain ⟨hvo, -, hvt, -⟩ := following_eq hv
    refine ⟨hvo, hvt, ?_⟩
    cases hs : w.stage with
    | fp => exact absurd hs hst
    | load => simp [following, hs] at hv
    | space | store =>
      simp only [following, hs] at hv
      cases hv
      rw [early, early, hs]
      rfl
  refine ho.advance ha hw (fun t _ => hsame t) (fun h' _ => by rw [hfp]; exact ⟨rfl, rfl⟩) ?_ ?_
    (by rw [hfp]; exact ⟨rfl, rfl⟩)
  · refine (ho.tasks w.out).congr (by rw [m.advance_todo]) (.of_advance hw) (by rw [huser]) (hsame _) fun hl h' v hv hvo => ?_
    by_cases hh : h' = h
    · obtain rfl := some.inj (hw.symm.trans (hh ▸ hv))
      cases hfol : w.following with
      | none =>
        cases hs : w.stage with
        | load => simp [early, hs]
        | _ => simp [following, hs] at hfol
      | some v =>
        obtain ⟨hvo, -, hve⟩ := hnext v hfol
        exact hve ▸ hl h v (hthis.trans hfol) hvo
    · exact hl h' v (by rw [m.advance_switching, update_of_ne hh, hv]) hvo
  · have hold := ho.harts h
    refine ⟨?_, fun hn hu he hh => ?_, fun hn he hh => ?_, fun v hv hve htwo he => ?_, fun v hv hve => ?_, fun v hv htwo => ?_⟩
    · rw [hfp]
      intro hd
      have hexec := m.executing_of_switching hw ▸ hold.dirty hd
      cases hfol : w.following with
      | none => exact absurd ((hold.handed w hw (w.late_of_following_none hfol)).symm.trans hd) (by simp)
      | some v =>
        rw [Machine.executing_of_switching (hthis.trans hfol), (hnext v hfol).1]
        exact hexec
    · rw [hthis] at hn
      rw [hfp]
      exact hold.handed w hw (w.late_of_following_none hn)
    · -- the task switched to restores its registers first
      rw [hfp, m.advance_sched] at he
      rw [m.advance_todo, m.advance_sched] at hh
      have hold := ho.tasks (m.sched.current h)
      exact absurd (hold.resumes (hold.enabled he).1 (.inr (.inr ⟨h, rfl, hw ▸ some_ne_none _⟩))) hh
    · obtain ⟨hvo, hvt, hve'⟩ := hnext v (hthis ▸ hv)
      rw [hfp, hvo] at he ⊢
      exact hold.leaving w hw (hve' ▸ hve) (hvt ▸ htwo) he
    · rw [hfp]
      exact hold.handed w hw ((hnext v (hthis ▸ hv)).2.2 ▸ hve)
    · obtain ⟨hvo, hvt, -⟩ := hnext v (hthis ▸ hv)
      rw [m.advance_todo, hvo]
      exact hold.oneWay w hw (hvt ▸ htwo)

/-- The outgoing registers go into the context; those of a task that ends are dropped. -/
theorem advance_save (hw : m.switching h = some w) (hst : w.stage = .fp) : Owned (m.advance h w) := by
  have hfp : (m.advance h w).fp = if w.twoWay then m.fp.saveBeforeSwitch h w.out else m.fp.releaseBeforeExit h := by
    simp [Machine.advance, hst]
  have hthis : (m.advance h w).switching h =
      some { w with stage := if w.twoWay then .store else .load } := by
    simp [following, hst]
  have hlate : ∀ v, (m.advance h w).switching h = some v → v.out = w.out ∧ v.twoWay = w.twoWay ∧ v.early = false := by
    intro v hv
    rw [hthis] at hv
    cases hv
    refine ⟨rfl, rfl, ?_⟩
    cases w.twoWay <;> simp [early]
  have hold := ho.harts h
  have hexec := m.executing_of_switching hw
  generalize hf' : (m.advance h w).fp = f' at hfp
  have hsame : f'.regs = m.fp.regs ∧ f'.frameFs = m.fp.frameFs ∧ f'.abi = m.fp.abi ∧
      f'.authorised = m.fp.authorised ∧ f'.enabled = m.fp.enabled ∧ f'.log = m.fp.log ∧
      f'.fs = update m.fp.fs h .off := by
    rw [hfp]
    split <;> exact ⟨rfl, rfl, rfl, rfl, rfl, rfl, rfl⟩
  obtain ⟨hregs, hframe, habi, hauth, hen, hlog, hfs⟩ := hsame
  have harea : ∀ t, t ≠ w.out → f'.area t = m.fp.area t := by
    intro t ht
    rw [hfp]
    split
    · simp only [FpUnit.saveBeforeSwitch]
      split
      · exact update_of_ne ht ..
      · rfl
    · rfl
  have hclean : m.fp.fs h ≠ .dirty → f'.area = m.fp.area := by
    intro hd
    rw [hfp]
    split
    · simp [FpUnit.saveBeforeSwitch, switchAction, hd]
    · rfl
  have hout := ho.tasks w.out
  refine ho.advance ha hw (fun t ht => ?_) (fun h' hh => ?_) ?_ ?_ (by rw [hf', hlog, hen]; exact ⟨rfl, rfl⟩)
  · rw [hf']
    exact ⟨by rw [hframe], harea t ht, by rw [habi], by rw [hauth], by rw [hen], by rw [hlog]⟩
  · rw [hf', hregs, hfs, update_of_ne hh]
    exact ⟨rfl, rfl⟩
  · refine ⟨by rw [m.advance_todo]; exact hout.tail, fun hu hwait => ?_, ?_, ?_, fun he => ?_, fun he hh _ => ?_⟩
    · rw [m.advance_user] at hu
      rw [m.advance_todo]
      exact hout.resumes hu (.of_advance hw hwait)
    · rw [hf', hen, hauth, m.advance_user]
      exact hout.enabled
    · rw [hf', hauth, habi, m.advance_user]
      exact hout.authorised
    · rw [hf', hen] at he
      rw [hf', hlog, hframe, hclean fun hd => ?_]
      · exact hout.off he
      · exact absurd (hexec ▸ hold.dirty hd) (by simp [he])
    rw [hf', hen] at he
    rw [m.advance_todo] at hh
    rw [hf', hlog]
    cases htwo : w.twoWay with
    | true =>
      obtain ⟨hr, hsaves⟩ := hold.leaving w hw (by simp [early, hst]) htwo he
      by_cases hd : m.fp.fs h = .dirty
      · rw [← hr, hfp]
        simp [htwo, FpUnit.saveBeforeSwitch, switchAction, hd]
      · rw [hclean hd]
        exact hsaves.resolve_left hd
    | false =>
      rw [hold.oneWay w hw htwo] at hh
      cases hh
  · have hsome : (m.advance h w).switching h ≠ none := hthis ▸ some_ne_none _
    have hoff : (m.advance h w).fp.fs h = .off := by rw [hf', hfs, update_self]
    refine ⟨fun hd => absurd (hoff.symm.trans hd) (by simp), fun hn => absurd hn hsome, fun hn => absurd hn hsome,
      fun v hv hve => ?_, fun _ _ _ => hoff, fun v hv htwo => ?_⟩
    · exact absurd ((hlate v hv).2.2.symm.trans hve) false_ne_true
    rw [m.advance_todo, (hlate v hv).1]
    exact hold.oneWay w hw ((hlate v hv).2.1 ▸ htwo)

theorem stage (hw : m.switching h = some w) : Owned (m.advance h w) := by
  by_cases hst : w.stage = .fp
  · exact ho.advance_save ha hw hst
  · exact ho.advance_same ha hw hst

omit ha

omit ho

/-! ### The entries that use the unit -/

section Unit

variable {h : Fin n}

theorem not_mem_rest (ho : Owned m) (htodo : m.todo t = op :: rest) : .restoreFp ∉ rest := by
  have := (ho.tasks t).tail
  rwa [htodo] at this

theorem frameFs_off (ho : Owned m) (hframe : m.fp.frameFs t ≠ .off) : m.fp.enabled t = true := by
  by_contra he
  exact hframe ((ho.tasks t).off (by simpa using he)).2.2

theorem published (hs : Spaced m) (hsw : m.switching h = none)
    (htodo : m.todo (m.sched.current h) = op :: rest) (hop : op.final = false)
    (hu : m.spaces.user (m.sched.current h) = true) : m.spaces.currentProcess h = some (m.sched.current h) := by
  refine (hs.spacesOk.running h hsw hu).2.2.resolve_right fun hc => ?_
  refine absurd ((hs.leaving _ hc.1).final h rfl).1 ?_
  rw [htodo]
  exact Spaced.not_final_of_head hop

variable (ho : Owned m)
include ho

theorem goOnRest (ha : Apart m.sched m.switching) (hg : GoesOn m m' h me l)
    (htodo : m.todo me = op :: rest) (hop : op ≠ .restoreFp) (hl : .restoreFp ∉ l)
    (huser : m'.spaces.user = m.spaces.user) (hfp : m'.fp = m.fp) : Owned m' :=
  ho.goOn ha hg huser hfp (by simpa [htodo] using hop) (by simp [htodo]) hl

variable (ha : Apart m.sched m.switching) (hsw : m.switching h = none)
include ha hsw

theorem enter (hs : Spaced m) {root : Root} (htodo : m.todo (m.sched.current h) = .enterUser root :: rest) : Owned ({ m with
      spaces := { m.spaces.activate h root with user := update m.spaces.user (m.sched.current h) true }
      fp := { m.fp.setFs h .off with
        authorised := update m.fp.authorised (m.sched.current h)
          (m.fp.abi (m.sched.current h)).usesHardwareFp } }.goOn (m.sched.current h) rest) := by
  have huser := (htodo ▸ hs.phase (m.sched.current h)).of_enterUser.1
  have hold := ho.tasks (m.sched.current h)
  have hen : m.fp.enabled (m.sched.current h) = false := by
    by_contra he
    exact absurd (huser.symm.trans (hold.enabled (by simpa using he)).1) false_ne_true
  refine ho.own ha ⟨rfl, hsw, rfl, rfl, rfl⟩ (fun t ht => update_of_ne ht ..)
    (fun t ht => { SameTask.refl m.fp t with authorised := update_of_ne ht .. })
    (fun h' hh => ⟨rfl, update_of_ne hh ..⟩)
    (ho.not_mem_rest htodo) (fun he => ?_) (fun hauth => ⟨update_self .., ?_⟩) hold.off
    (fun hd => ?_) (fun _ _ => update_self ..) (fun he => ?_) ho.faithful ho.logged
  · exact absurd (hen.symm.trans he) false_ne_true
  · exact (update_self (f := m.fp.authorised) ..).symm.trans hauth
  · exact absurd ((update_self (f := m.fp.fs) ..).symm.trans hd) (by simp)
  · exact absurd (hen.symm.trans he) false_ne_true

/-- The registers of a process that just got the unit count from here on: they have to be zero. -/
theorem enable (hs : Spaced m) (htodo : m.todo (m.sched.current h) = .tryEnable armed :: rest)
    (hp : m.spaces.currentProcess h = some p) (hauth : m.fp.authorised p = true)
    (hoff : m.fp.frameFs (m.sched.current h) = .off) (hzero : ∀ r, m.fp.regs h r = 0) : Owned ({ m with fp := { m.fp with
      frameFs := update m.fp.frameFs (m.sched.current h) .initial
      enabled := update m.fp.enabled p true } }.goOn (m.sched.current h) [.checkpoint armed, .sret]) := by
  have huser : m.spaces.user (m.sched.current h) = true := by
    by_contra hu
    rw [not_eq_true] at hu
    have hphase := htodo ▸ hs.phase (m.sched.current h)
    exact (hu ▸ hphase).not_tryEnable rfl _ mem_cons_self
  obtain rfl : p = m.sched.current h := some.inj (hp.symm.trans (published hs hsw htodo rfl huser))
  have hself : update m.fp.enabled (m.sched.current h) true (m.sched.current h) = true :=
    update_self ..
  have hclean : m.fp.area (m.sched.current h) = written m.fp.log (m.sched.current h) ∧
      m.fp.regs h = written m.fp.log (m.sched.current h) := by
    cases he : m.fp.enabled (m.sched.current h) with
    | true =>
      obtain ⟨hholds, hframe⟩ := (ho.harts h).running hsw he (by simp [htodo])
      refine ⟨(hframe (by simp [htodo])).resolve_left ?_, hholds.1⟩
      simp [hoff]
    | false =>
      obtain ⟨harea, hwritten, -⟩ := (ho.tasks _).off he
      exact ⟨harea.trans hwritten.symm, (funext hzero).trans hwritten.symm⟩
  refine ho.own ha ⟨rfl, hsw, rfl, rfl, rfl⟩ (fun _ _ => rfl) (fun t ht => { SameTask.refl m.fp t with
      frameFs := update_of_ne ht ..
      enabled := update_of_ne ht .. })
    (fun _ _ => ⟨rfl, rfl⟩)
    (by simp) (fun _ => ⟨huser, hauth⟩) (ho.tasks _).authorised (fun he => ?_) (fun _ => hself) (fun _ he => ?_)
    (fun _ => ⟨⟨hclean.2, .inr hclean.1⟩, fun _ => .inr hclean.1⟩) ho.faithful fun e he => ?_
  · exact absurd (he.symm.trans hself) false_ne_true
  · exact absurd (he.symm.trans hself) false_ne_true
  show update m.fp.enabled (m.sched.current h) true e.task = true
  by_cases ht : e.task = m.sched.current h
  · rw [ht, update_self]
  rw [update_of_ne ht]
  exact ho.logged e he

theorem sret (htodo : m.todo (m.sched.current h) = .sret :: rest) :
    Owned ({ m with fp := m.fp.setFs h (m.fp.frameFs (m.sched.current h)) }.goOn (m.sched.current h) rest) := by
  have hself : update m.fp.fs h (m.fp.frameFs (m.sched.current h)) h =
      m.fp.frameFs (m.sched.current h) := update_self ..
  have hold := ho.tasks (m.sched.current h)
  refine ho.own ha ⟨rfl, hsw, rfl, rfl, rfl⟩ (fun _ _ => rfl) (fun _ _ => ⟨rfl, rfl, rfl, rfl, rfl, rfl⟩)
    (fun h' hh => ⟨rfl, update_of_ne hh ..⟩)
    (ho.not_mem_rest htodo) hold.enabled hold.authorised hold.off (fun hd => ?_)
    (fun _ he => hself.trans (hold.off he).2.2) (fun he => ?_) ho.faithful ho.logged
  · refine ho.frameFs_off ?_
    rw [show m.fp.frameFs (m.sched.current h) = .dirty from hself.symm.trans hd]
    simp
  · obtain ⟨hholds, hframe⟩ := (ho.harts h).running hsw he (by simp [htodo])
    have hframe := hframe (by simp [htodo])
    exact ⟨⟨hholds.1, hframe.imp hself.trans id⟩, fun _ => hframe⟩

theorem restore (hs : Spaced m) (htodo : m.todo (m.sched.current h) = .restoreFp :: rest) : Owned ({ m with
      fp := m.fp.restoreAfterSwitch h (m.sched.current h)
        (m.fp.ownsFp (m.spaces.currentProcess h)) }.goOn (m.sched.current h) rest) := by
  have howns : m.spaces.user (m.sched.current h) = true →
      m.fp.ownsFp (m.spaces.currentProcess h) = m.fp.enabled (m.sched.current h) := by
    intro hu
    rw [published hs hsw htodo rfl hu]
    rfl
  have harea : m.fp.enabled (m.sched.current h) = true →
      m.fp.area (m.sched.current h) = written m.fp.log (m.sched.current h) := by
    exact fun he => (ho.tasks _).saved he (by rw [htodo]; rfl) fun h' w hw hout =>
      absurd hout (ha.out_current h' w hw h)
  generalize m.fp.ownsFp (m.spaces.currentProcess h) = owns at howns
  have hfs : (m.fp.restoreAfterSwitch h (m.sched.current h) owns).fs h = if owns then .clean else .off :=
    update_self ..
  have hold := ho.tasks (m.sched.current h)
  refine ho.own ha ⟨rfl, hsw, rfl, rfl, rfl⟩ (fun _ _ => rfl) (fun _ _ => ⟨rfl, rfl, rfl, rfl, rfl, rfl⟩)
    (fun h' hh => ⟨?_, update_of_ne hh ..⟩)
    (ho.not_mem_rest htodo) hold.enabled hold.authorised hold.off (fun hd => ?_) (fun hu he => ?_)
    (fun he => ⟨⟨?_, .inr (harea he)⟩, fun _ => .inr (harea he)⟩) ho.faithful ho.logged
  · cases owns
    · rfl
    · exact update_of_ne hh ..
  · have hd := hfs.symm.trans hd
    cases owns <;> cases hd
  · exact hfs.trans (by rw [(howns hu).trans he]; rfl)
  rw [(howns (hold.enabled he).1).trans he]
  exact (update_self ..).trans (harea he)

variable (htodo : m.todo (m.sched.current h) = []) (huser : m.spaces.user (m.sched.current h) = true)
include htodo huser

theorem trap (hl : .restoreFp ∉ l) : Owned (m.enter h l) := by
  have hhead : (m.todo (m.sched.current h)).head? ≠ some .restoreFp := by simp [htodo]
  have hself : update m.fp.frameFs (m.sched.current h) (m.fp.fs h) (m.sched.current h) = m.fp.fs h :=
    update_self ..
  have hold := ho.tasks (m.sched.current h)
  have hhart := ho.harts h
  refine ho.own ha ⟨rfl, hsw, rfl, rfl, rfl⟩ (fun _ _ => rfl)
    (fun t ht => { SameTask.refl m.fp t with frameFs := update_of_ne ht .. }) (fun _ _ => ⟨rfl, rfl⟩)
    hl hold.enabled hold.authorised (fun he => ?_) (fun hd => ?_) (fun hu he => hhart.userOff hsw hu he hhead)
    (fun he => ?_) ho.faithful ho.logged
  · obtain ⟨harea, hwritten, -⟩ := hold.off he
    exact ⟨harea, hwritten, hself.trans (hhart.userOff hsw huser he hhead)⟩
  · exact m.executing_of_settled hsw ▸ hhart.dirty hd
  have hholds := (hhart.running hsw he hhead).1
  exact ⟨hholds, fun _ => hholds.2.imp hself.trans id⟩

variable (hon : m.fp.fs h ≠ .off)
include hon

omit ha in
theorem running_of_on : m.fp.enabled (m.sched.current h) = true ∧ Holds m.fp h (m.sched.current h) := by
  have hhead : (m.todo (m.sched.current h)).head? ≠ some .restoreFp := by simp [htodo]
  have he : m.fp.enabled (m.sched.current h) = true := by
    by_contra he
    exact hon ((ho.harts h).userOff hsw huser (by simpa using he) hhead)
  exact ⟨he, ((ho.harts h).running hsw he hhead).1⟩

theorem fpWrite (r : Fin 33) (v : UInt64) : Owned { m with fp := { m.fp with
      regs := update m.fp.regs h (update (m.fp.regs h) r v)
      fs := update m.fp.fs h .dirty
      log := m.fp.log ++ [FpEvent.wrote (m.sched.current h) r v] } } := by
  obtain ⟨he, hregs, -⟩ := ho.running_of_on hsw htodo huser hon
  have hstay : m.todo = update m.todo (m.sched.current h) [] := by
    rw [← htodo, update_eq_self]
  refine ho.own ha ⟨rfl, hsw, rfl, rfl, hstay⟩ (fun _ _ => rfl)
    (fun t ht => { SameTask.refl m.fp t with written := written_wrote_of_ne _ ht r v })
    (fun h' hh => ⟨update_of_ne hh .., update_of_ne hh ..⟩)
    (by simp) (ho.tasks _).enabled (ho.tasks _).authorised (fun hne => ?_) (fun _ => he) (fun _ hne => ?_)
    (fun _ => ⟨⟨?_, .inl (update_self ..)⟩, by simp⟩) (ho.faithful.append_wrote _ r v) fun e hm => ?_
  · exact absurd (hne.symm.trans he) false_ne_true
  · exact absurd (hne.symm.trans he) false_ne_true
  · exact (update_self ..).trans (by rw [written_wrote, hregs])
  rcases mem_append.mp hm with hm | hm
  · exact ho.logged e hm
  rw [mem_singleton.mp hm]
  exact he

theorem fpRead (r : Fin 33) : Owned { m with fp := { m.fp with
      log := m.fp.log ++ [FpEvent.read (m.sched.current h) r (m.fp.regs h r)] } } := by
  obtain ⟨he, hholds⟩ := ho.running_of_on hsw htodo huser hon
  have hstay : m.todo = update m.todo (m.sched.current h) [] := by
    rw [← htodo, update_eq_self]
  have hwritten : ∀ t, written (m.fp.log ++ [FpEvent.read (m.sched.current h) r (m.fp.regs h r)]) t =
      written m.fp.log t := fun t => written_read ..
  refine ho.own ha ⟨rfl, hsw, rfl, rfl, hstay⟩ (fun _ _ => rfl)
    (fun t _ => { SameTask.refl m.fp t with written := hwritten t }) (fun _ _ => ⟨rfl, rfl⟩)
    (by simp) (ho.tasks _).enabled (ho.tasks _).authorised (fun hne => ?_) (fun _ => he) (fun _ hne => ?_)
    (fun _ => ⟨?_, by simp⟩) (ho.faithful.append_read (by rw [hholds.1])) fun e hm => ?_
  · exact absurd (hne.symm.trans he) false_ne_true
  · exact absurd (hne.symm.trans he) false_ne_true
  · exact ⟨hholds.1.trans (hwritten _).symm, hholds.2.imp_right fun harea => harea.trans (hwritten _).symm⟩
  rcases mem_append.mp hm with hm | hm
  · exact ho.logged e hm
  rw [mem_singleton.mp hm]
  exact he

end Unit

/-! ### Steps -/

theorem does (ho : Owned m) (hs : Spaced m) (ha : Apart m.sched m.switching) (ha' : Apart m'.sched m'.switching)
    (hzero : ∀ armed, op = .tryEnable armed → ∀ r, m.fp.regs h r = 0) (hsw : m.switching h = none)
    (htodo : m.todo (m.sched.current h) = op :: rest) (hd : Does m h op rest m') : Owned m' := by
  have hrest := ho.not_mem_rest htodo
  have happend : ∀ {new : List (Op n)}, .restoreFp ∉ new → .restoreFp ∉ new ++ rest := fun hnew hm =>
    (mem_append.mp hm).elim hnew hrest
  cases hd with
  | quiet new ownerless reap hop hnew hfinal hsweep =>
    refine ho.goOnRest ha ⟨rfl, hsw, rfl, rfl, rfl⟩ htodo ?_ (happend fun hm => ?_) rfl rfl
    · rintro rfl
      cases hop
    · cases hnew _ hm
  | @wake id _ now =>
    exact (ho.sched (Eases.wake m.sched h now id)).goOnRest ha'
      ⟨by rw [(Eases.wake m.sched h now id).current], hsw, rfl, rfl, rfl⟩ htodo (by simp) hrest rfl rfl
  | @kill target isSelf remote _ new hnew =>
    refine (ho.sched (Eases.kill m.sched target isSelf remote)).goOnRest ha'
      ⟨by rw [(Eases.kill m.sched target isSelf remote).current], hsw, rfl, rfl, rfl⟩ htodo (by simp)
      (happend fun hm => ?_) rfl rfl
    obtain ⟨c, s, he⟩ := hnew _ hm
    cases he
  | @remove _ child _ hop hknown =>
    have hgone := ho.sched (Eases.reapTask m.sched child)
    refine (hgone.congr rfl rfl rfl rfl rfl : Owned (m.remove child)).goOnRest ha' ⟨rfl, hsw, rfl, rfl, rfl⟩ htodo ?_
      hrest rfl rfl
    rcases hop with rfl | rfl <;> simp
  | @spawn hart kind _ new now slot hslot hnew =>
    refine (ho.spawn hs ha hart now kind slot).goOnRest ha' ⟨rfl, hsw, rfl, rfl, rfl⟩ (hs.spawn_todo htodo) (by simp)
      (happend fun hm => ?_) rfl rfl
    obtain ⟨c, he⟩ := hnew _ hm
    cases he
  | keep hop =>
    refine ho.goOnRest ha ⟨rfl, hsw, rfl, rfl, rfl⟩ htodo ?_ hrest rfl rfl
    rcases hop with rfl | rfl <;> simp
  | switch hop hprep hne =>
    refine ho.switch ha htodo ?_ (switchesOut hsw hprep hne)
    rcases hop with ⟨rfl, -⟩ | ⟨rfl, -⟩ | ⟨rfl, -⟩ <;> simp
  | clear | publish | setSpace | pass => exact ho.goOnRest ha ⟨rfl, hsw, rfl, rfl, rfl⟩ htodo (by simp) hrest rfl rfl
  | root hroot => exact ho.goOnRest ha ⟨rfl, hsw, rfl, rfl, rfl⟩ htodo (by simp) (by simp [hrest]) rfl rfl
  | enter => exact ho.enter ha hsw hs htodo
  | refuse =>
    exact ho.goOnRest ha ⟨rfl, hsw, rfl, rfl, rfl⟩ htodo (by simp) (by simp [faultProgram]) rfl rfl
  | enable hp hauth hoff => exact ho.enable ha hsw hs htodo hp hauth hoff (hzero _ rfl)
  | die => exact ho.goOnRest ha ⟨rfl, hsw, rfl, rfl, rfl⟩ htodo (by simp) (by simp) rfl rfl
  | sret => exact ho.sret ha hsw htodo
  | restore => exact ho.restore ha hsw hs htodo

end Owned

/-- The step gives no process the floating-point unit of a hart with values left in its registers. -/
def enablesZeroed (m : Machine n) (l : Label n) : Bool :=
  match l, m.entry l with
  | .run h _ _, some (.tryEnable _) => decide (∀ r, m.fp.regs h r = 0)
  | _, _ => true

theorem regs_zero_of_enablesZeroed (hok : enablesZeroed m (.run h now frame) = true)
    (hentry : m.entry (.run h now frame) = some (.tryEnable armed)) : ∀ r, m.fp.regs h r = 0 := by
  unfold enablesZeroed at hok
  rw [hentry] at hok
  exact of_decide_eq_true hok

theorem Owned.step (ho : Owned m) (hs : Spaced m) (ha : Apart m.sched m.switching)
    (ha' : Apart m'.sched m'.switching) {l : Label n} (hok : enablesZeroed m l = true) (hl : m.step l = some m') : Owned m' := by
  cases step_stepped hl with
  | @run h now frame op _ _ hsw htodo hd =>
    have hzero : ∀ armed, op = .tryEnable armed → ∀ r, m.fp.regs h r = 0 := fun armed hop =>
      regs_zero_of_enablesZeroed hok (entry_run hsw (hop ▸ htodo))
    exact ho.does hs ha ha' hzero hsw htodo hd
  | stage hsw => exact ho.stage ha hsw
  | interrupt h now id => exact ho.sched (Eases.wake m.sched h now id)
  | kernel call hsw htodo huser =>
    refine ho.goOn ha ⟨rfl, hsw, rfl, rfl, rfl⟩ rfl rfl (by simp [htodo]) (fun he => ?_) ?_
    · exact absurd (huser.symm.trans ((ho.tasks _).enabled he).1) false_ne_true
    · cases call <;> simp [KernelCall.program]
  | @trap h call armed hsw htodo huser =>
    refine ho.trap ha hsw htodo huser ?_
    cases call <;> simp [UserCall.program, faultProgram]
  | fpTrap hsw htodo huser hoff => exact ho.trap ha hsw htodo huser (by simp)
  | fpWrite hsw htodo huser hon => exact ho.fpWrite ha hsw htodo huser hon _ _
  | fpRead hsw htodo huser hon => exact ho.fpRead ha hsw htodo huser hon _

theorem boot_owned (bootRoot : Root) (regs : Fin n → FpRegs) : Owned (boot bootRoot regs) where
  tasks := fun t => {
    tail := by simp [boot]
    resumes := fun hu => by simp [boot] at hu
    enabled := fun he => by simp [boot] at he
    authorised := fun ht => by simp [boot] at ht
    off := fun _ => ⟨rfl, rfl, rfl⟩
    saved := fun he => by simp [boot] at he }
  harts := fun h => {
    dirty := fun hd => by simp [boot] at hd
    userOff := fun _ _ _ _ => rfl
    running := fun _ he => by simp [boot] at he
    leaving := fun w hw => absurd hw.symm (some_ne_none _)
    handed := fun w hw => absurd hw.symm (some_ne_none _)
    oneWay := fun w hw => absurd hw.symm (some_ne_none _) }
  faithful := .nil
  logged := fun e he => by simp [boot] at he

/-- In every run of the harts that wakes no task another hart is leaving, reaps none a hart has loaded
and gives the unit out with its registers zero. -/
theorem fp_private_of_enablesZeroed {bootRoot : Root} {regs : Fin n → FpRegs} {m : Machine n}
    (hrun : Runs.Reaches step
      (fun m l => wakesParked m l && reapsUnloaded m l && enablesZeroed m l) (boot bootRoot regs) m) :
    Faithful m.fp.log ∧ ∀ e ∈ m.fp.log, (m.fp.abi e.task).usesHardwareFp = true := by
  have hinv : Spaced m ∧ Apart m.sched m.switching ∧ Owned m := by
    refine hrun.invariant (I := fun m => Spaced m ∧ Apart m.sched m.switching ∧ Owned m)
      ⟨boot_spaced bootRoot regs, boot_apart bootRoot regs, boot_owned bootRoot regs⟩ ?_
    rintro m l m' ⟨hs, ha, ho⟩ hok hl
    simp only [and_eq_true] at hok
    have ha' := ha.step hok.1.1 hl
    exact ⟨hs.step hok.1.2 hl, ha', ho.step hs ha ha' hok.2 hl⟩
  have ho := hinv.2.2
  exact ⟨ho.faithful, fun e he => ((ho.tasks _).authorised ((ho.tasks _).enabled (ho.logged e he)).2).2⟩

/-- A process with the hardware ABI starts on hart `0`, is given the unit there and writes `7`. -/
def enabledAndWritten : List (Label 2) :=
  [kernel 0 (.spawn 0 (.user .double)), run 0 0 10] ++ startProcess 0 200 ++
    fpTrap 0 false :: runs 0 3 ++ [Label.fpWrite 0 0 7]

/-- It blocks, is woken and run on hart `1`, and reads the register there. -/
def readOnAnotherHart : List (Label 2) :=
  enabledAndWritten ++ [Label.trap 0 .block false, run 0 0 0] ++ List.replicate 4 (Label.stage 0) ++
    [kernel 1 (.wake 2), run 1 0 0, kernel 1 .yield, run 1 0 0] ++
    List.replicate 4 (Label.stage 1) ++ runs 1 3 ++ [Label.fpRead 1 0]

theorem fp_private_of_enablesZeroed_readOnAnotherHart :
    ∃ m, Runs.Reaches step
        (fun m l => wakesParked m l && reapsUnloaded m l && enablesZeroed m l) twoHarts m ∧
      m.fp.log = [.wrote 2 0 7, .read 2 0 7] ∧ Faithful m.fp.log ∧
      ∀ e ∈ m.fp.log, (m.fp.abi e.task).usesHardwareFp = true := by
  obtain ⟨m, hrun, hlog⟩ : ∃ m, Runs.Reaches step
      (fun m l => wakesParked m l && reapsUnloaded m l && enablesZeroed m l) twoHarts m ∧
      m.fp.log = [.wrote 2 0 7, .read 2 0 7] := Runs.exists_reaches readOnAnotherHart (by decide)
  exact ⟨m, hrun, hlog, fp_private_of_enablesZeroed hrun⟩

/-- It spawns a second such process and yields to it, which is given the unit and reads a register. -/
def readByAnother : List (Label 2) :=
  enabledAndWritten ++ [Label.trap 0 (.spawn 0 .double) false, run 0 0 11] ++ runs 0 3 ++ yieldToNew 0 201 ++
    fpTrap 0 false :: runs 0 3 ++ [Label.fpRead 0 0]

/-- Process `3` has written nothing, and reads what process `2` wrote. -/
theorem fp_value_leaked :
    ∃ m, Runs.Reaches step (fun _ _ => True) twoHarts m ∧
      m.fp.log = [.wrote 2 0 7, .read 3 0 7] ∧ ¬ Faithful m.fp.log := by
  obtain ⟨m, hrun, hlog⟩ : ∃ m, Runs.Reaches step (fun _ _ => True) twoHarts m ∧
      m.fp.log = [.wrote 2 0 7, .read 3 0 7] := Runs.exists_reaches readByAnother (by decide)
  refine ⟨m, hrun, hlog, fun hf => ?_⟩
  have hread := hf [.wrote 2 0 7] (.read 3 0 7) [] hlog 3 0 7 rfl
  rw [← nil_append [FpEvent.wrote 2 0 7], written_wrote_of_ne [] (by decide)] at hread
  exact absurd hread (by decide)

end SnitchOs.Hart
