import SnitchOs.Hart.Context

/-!
# The address space a hart runs on

A process's root and its `CURRENT_PROCESS` entry are loaded together, when the process is entered or switched to from
another root, and stay while kernel tasks run. So the loaded root belongs to the published process, except between the
publication of a new process and its first entry. A reaped task takes its root with it, loaded or not.
-/

namespace SnitchOs.Hart

open Kernel Sched Proc Function List Option Spaces Label Op Machine

variable {n : Nat}

/-! ### What a task can be at -/

/-- Entries of the start of a process. -/
def Op.starts : Op n → Bool
  | .newUserRoot | .publish | .setAddressSpace _ | .enterUser _ => true
  | _ => false

/-- Neither the start nor the end of a process. -/
def Busy (l : List (Op n)) : Prop := ∀ o ∈ l, o.starts = false ∧ o ≠ .clearProcess

/-- What is left after a process was given up. -/
def Final (l : List (Op n)) : Prop := (∀ o ∈ l, o.final = true) ∧ .exitNow ∈ l

/-- What a task has left, with whether it has entered user mode and the root it has. -/
inductive Phase : Bool → Option Root → List (Op n) → Prop
  | fresh : Phase false none [.newUserRoot]
  | publish (r : Root) : Phase false none [.publish, .setAddressSpace r, .enterUser r]
  | setSpace (r : Root) : Phase false none [.setAddressSpace r, .enterUser r]
  | enter (r : Root) : Phase false (some r) [.enterUser r]
  | kernel {l : List (Op n)} (hb : Busy l) (hk : ∀ armed, .tryEnable armed ∉ l) : Phase false none l
  | user (r : Root) {l : List (Op n)} (hb : Busy l) : Phase true (some r) l
  | ending (r : Root) {l : List (Op n)} (hf : Final l) : Phase true (some r) (.clearProcess :: l)

variable {o op : Op n} {w : Switch}

theorem Op.plain_busy (ho : o.plain = true) : o.starts = false ∧ o ≠ .clearProcess ∧ ∀ armed, o ≠ .tryEnable armed := by
  cases o <;> simp_all [plain, starts]

theorem Op.final_busy (ho : o.final = true) : o.starts = false ∧ o ≠ .clearProcess := by
  cases o <;> simp_all [final, starts]

namespace Busy

variable {l l' : List (Op n)}

theorem append (hl : Busy l) (hl' : Busy l') : Busy (l ++ l') := by
  intro o ho
  rcases mem_append.mp ho with ho | ho
  · exact hl o ho
  · exact hl' o ho

theorem tail (hl : Busy (o :: l)) : Busy l := fun o ho => hl o (mem_cons_of_mem _ ho)

theorem not_mem (hl : Busy l) (ho : o.starts = true) : o ∉ l := by
  intro hm
  rw [(hl o hm).1] at ho
  cases ho

end Busy

theorem Final.busy (hl : Final l) : Busy l := fun o ho => final_busy (hl.1 o ho)

theorem Final.rest {rest new : List (Op n)} (hf : Final (op :: rest)) (hop : op ≠ .exitNow)
    (hnew : ∀ o ∈ new, o.final = true) : Final (new ++ rest) := by
  refine ⟨fun o ho => ?_, mem_append_right _ ?_⟩
  · rcases mem_append.mp ho with ho | ho
    · exact hnew o ho
    · exact hf.1 o (mem_cons_of_mem _ ho)
  · rcases mem_cons.mp hf.2 with he | hm
    · exact absurd he.symm hop
    · exact hm

namespace Phase

variable {u : Bool} {r : Option Root} {l l' : List (Op n)}

theorem goOn (hp : Phase u r l) (hl : Busy l) (hl' : Busy l')
    (hk : u = false → ∀ armed, .tryEnable armed ∉ l') : Phase u r l' := by
  cases hp with
  | kernel hb _ => exact .kernel hl' (hk rfl)
  | user r hb => exact .user r hl'
  | _ => simp [Busy, starts] at hl

theorem busy_of_head (hp : Phase u r (op :: rest)) (hop : op.starts = false) (hc : op ≠ .clearProcess) : Busy (op :: rest) := by
  cases hp with
  | kernel hb _ | user r hb => exact hb
  | ending => exact absurd rfl hc
  | _ => cases hop

theorem not_tryEnable (hp : Phase false r (op :: rest))
    (hop : op.starts = false) (armed : Bool) : .tryEnable armed ∉ op :: rest := by
  cases hp with
  | kernel _ hk => exact hk armed
  | _ => cases hop

theorem root_of_user (hp : Phase true r l) : ∃ root, r = some root := by
  cases hp with
  | user root | ending root => exact ⟨root, rfl⟩

theorem not_starts_of_user (hp : Phase true r l) (ho : o.starts = true) : o ∉ l := by
  cases hp with
  | user root hb => exact hb.not_mem ho
  | ending root hf =>
    intro hm
    rcases mem_cons.mp hm with rfl | hm
    · cases ho
    · exact hf.busy.not_mem ho hm

section Inversion

variable {rest : List (Op n)} {root : Root}

theorem of_newUserRoot (hp : Phase u r (.newUserRoot :: rest)) : u = false ∧ r = none ∧ rest = [] := by
  cases hp with
  | fresh => exact ⟨rfl, rfl, rfl⟩
  | kernel hb | user _ hb => cases (hb _ mem_cons_self).1

theorem of_publish (hp : Phase u r (.publish :: rest)) :
    u = false ∧ r = none ∧ ∃ root, rest = [.setAddressSpace root, .enterUser root] := by
  cases hp with
  | publish root => exact ⟨rfl, rfl, root, rfl⟩
  | kernel hb | user _ hb => cases (hb _ mem_cons_self).1

theorem of_setAddressSpace (hp : Phase u r (.setAddressSpace root :: rest)) :
    u = false ∧ r = none ∧ rest = [.enterUser root] := by
  cases hp with
  | setSpace => exact ⟨rfl, rfl, rfl⟩
  | kernel hb | user _ hb => cases (hb _ mem_cons_self).1

theorem of_enterUser (hp : Phase u r (.enterUser root :: rest)) : u = false ∧ r = some root ∧ rest = [] := by
  cases hp with
  | enter => exact ⟨rfl, rfl, rfl⟩
  | kernel hb | user _ hb => cases (hb _ mem_cons_self).1

theorem of_clearProcess (hp : Phase u r (.clearProcess :: rest)) : u = true ∧ (∃ root, r = some root) ∧ Final rest := by
  cases hp with
  | kernel hb | user _ hb => exact absurd rfl (hb _ mem_cons_self).2
  | ending root hf => exact ⟨rfl, ⟨root, rfl⟩, hf⟩

end Inversion

end Phase

/-! ### The invariant -/

namespace Machine

variable (m : Machine n)

def claims (t : TaskId) (r : Root) : Prop := m.spaces.root t = some r ∨ .setAddressSpace r ∈ m.todo t

/-- The current task of `h` is published and not entered yet. -/
def inWindow (h : Fin n) : Prop :=
  ∃ r, .enterUser r ∈ m.todo (m.sched.current h) ∧ .publish ∉ m.todo (m.sched.current h)

def loaded (h : Fin n) : Prop := ∀ w, m.switching h = some w → w.stage ≠ .space

end Machine

/-- Task `t` gave up its process: it will not run again once it has left the hart. -/
structure Leaving (m : Machine n) (t : TaskId) : Prop where
  not_waits : ¬ Waits m t
  final : ∀ h, m.sched.current h = t → Final (m.todo t) ∧ m.spaces.currentProcess h = none

structure Spaced (m : Machine n) : Prop where
  placement : Placement m.sched
  current_known : ∀ h, m.sched.tasks (m.sched.current h) ≠ none
  next : ∀ h w, m.switching h = some w → w.next = m.sched.current h ∧ w.root = m.spaces.root w.next
  fresh : ∀ t, m.sched.nextTaskId ≤ t → m.spaces.root t = none ∧ m.spaces.user t = false ∧
    m.spaces.cleared t = false ∧ m.todo t = []
  phase : ∀ t, Phase (m.spaces.user t) (m.spaces.root t) (m.todo t)
  starting : ∀ t r, .enterUser r ∈ m.todo t → ∃ h, m.sched.current h = t ∧ m.switching h = none ∧
    (.publish ∈ m.todo t ∨ m.spaces.currentProcess h = some t)
  leaving : ∀ t, m.spaces.cleared t = true → Leaving m t
  boot_used : m.spaces.bootRoot ∈ m.spaces.inUse
  claim_used : ∀ t r, m.sched.tasks t ≠ none → m.claims t r →
    r ∈ m.spaces.inUse ∧ r ≠ m.spaces.bootRoot ∧ m.spaces.created t < m.spaces.clock
  claim_unique : ∀ t u r, m.sched.tasks t ≠ none → m.sched.tasks u ≠ none → m.claims t r → m.claims u r →
    t = u
  satp : ∀ h, m.spaces.satp h = m.spaces.bootRoot ∨ ∃ t, m.sched.tasks t ≠ none ∧
    m.spaces.root t = some (m.spaces.satp h) ∧ m.spaces.created t < m.spaces.activated h
  process : ∀ h t, m.spaces.currentProcess h = some t → m.sched.tasks t ≠ none
  coherent : ∀ h t, m.sched.tasks t ≠ none → m.spaces.root t = some (m.spaces.satp h) →
    m.spaces.cleared t = false → m.spaces.currentProcess h = some t ∨ m.inWindow h
  running : ∀ h, m.loaded h → m.spaces.user (m.sched.current h) = true →
    m.spaces.root (m.sched.current h) = some (m.spaces.satp h)

namespace Spaced

variable {m m' : Machine n}

theorem congr (hs : Spaced m) (h₁ : m'.sched = m.sched) (h₂ : m'.switching = m.switching)
    (h₃ : m'.todo = m.todo) (h₄ : m'.spaces = m.spaces) : Spaced m' := by
  obtain ⟨s, o, r, t, w, k, p, f⟩ := m
  obtain ⟨s', o', r', t', w', k', p', f'⟩ := m'
  subst h₁ h₂ h₃ h₄
  exact { hs with leaving := fun t ht => ⟨(hs.leaving t ht).1, (hs.leaving t ht).2⟩ }

theorem withFp (hs : Spaced m) (f : FpUnit n) : Spaced { m with fp := f } := hs.congr rfl rfl rfl rfl

theorem not_window_of_busy (hb : Busy (m.todo (m.sched.current h))) : ¬ m.inWindow h := by
  rintro ⟨r, hr, -⟩
  exact hb.not_mem rfl hr

theorem loaded_of_settled (hsw : m.switching h = none) : m.loaded h := fun _ hw =>
  absurd (hsw.symm.trans hw) (some_ne_none _).symm

/-! ### What the current task does -/

/-- The spaces `p` differ from `s` at hart `h` and its current task `me` at most. -/
structure SameBut (s p : Spaces n) (h : Fin n) (me : TaskId) : Prop where
  bootRoot : p.bootRoot = s.bootRoot
  inUse : ∀ r ∈ s.inUse, r ∈ p.inUse
  clock : s.clock ≤ p.clock
  root : ∀ t, t ≠ me → p.root t = s.root t
  user : ∀ t, t ≠ me → p.user t = s.user t
  cleared : ∀ t, t ≠ me → p.cleared t = s.cleared t
  created : ∀ t, t ≠ me → p.created t = s.created t
  satp : ∀ h', h' ≠ h → p.satp h' = s.satp h'
  currentProcess : ∀ h', h' ≠ h → p.currentProcess h' = s.currentProcess h'
  activated : ∀ h', h' ≠ h → p.activated h' = s.activated h'
  me_cleared : s.cleared me = true → p.cleared me = true
  me_root : ∀ r, s.root me = some r → p.root me = some r ∧ p.created me = s.created me

theorem SameBut.refl (s : Spaces n) (h : Fin n) (me : TaskId) : SameBut s s h me where
  bootRoot := rfl
  inUse := fun _ hr => hr
  clock := Nat.le_refl _
  root := fun _ _ => rfl
  user := fun _ _ => rfl
  cleared := fun _ _ => rfl
  created := fun _ _ => rfl
  satp := fun _ _ => rfl
  currentProcess := fun _ _ => rfl
  activated := fun _ _ => rfl
  me_cleared := fun hc => hc
  me_root := fun _ hr => ⟨hr, rfl⟩

variable (hs : Spaced m)
include hs

theorem satp_used (h : Fin n) : m.spaces.satp h ∈ m.spaces.inUse := by
  rcases hs.satp h with he | ⟨t, ht, hr, -⟩
  · exact he ▸ hs.boot_used
  · exact (hs.claim_used t _ ht (.inl hr)).1

theorem own (hg : GoesOn m m' h me l)
    (hp : SameBut m.spaces m'.spaces h me) (hphase : Phase (m'.spaces.user me) (m'.spaces.root me) l)
    (hstarting : ∀ r, .enterUser r ∈ l → .publish ∈ l ∨ m'.spaces.currentProcess h = some me)
    (hleaving : m'.spaces.cleared me = true → Final l ∧ m'.spaces.currentProcess h = none)
    (hused : ∀ r, m'.spaces.root me = some r ∨ .setAddressSpace r ∈ l →
      r ∈ m'.spaces.inUse ∧ r ≠ m.spaces.bootRoot ∧ m'.spaces.created me < m'.spaces.clock)
    (hclaim : ∀ r, m'.spaces.root me = some r ∨ .setAddressSpace r ∈ l → m.claims me r ∨ r ∉ m.spaces.inUse)
    (hsatp : m'.spaces.satp h = m.spaces.bootRoot ∨ ∃ t, m.sched.tasks t ≠ none ∧
      m'.spaces.root t = some (m'.spaces.satp h) ∧ m'.spaces.created t < m'.spaces.activated h)
    (hprocess : ∀ t, m'.spaces.currentProcess h = some t → m.sched.tasks t ≠ none)
    (hcoherent : ∀ t, m.sched.tasks t ≠ none → m'.spaces.root t = some (m'.spaces.satp h) →
      m'.spaces.cleared t = false → m'.spaces.currentProcess h = some t ∨ ∃ r, .enterUser r ∈ l ∧ .publish ∉ l)
    (hrunning : m'.spaces.user me = true → m'.spaces.root me = some (m'.spaces.satp h)) : Spaced m' := by
  obtain ⟨hme, hsw, hm₁, hm₂, -⟩ := id hg
  have hself := hg.todo_self
  have hother : ∀ t, t ≠ me → m'.todo t = m.todo t := fun t => hg.todo_of_ne
  have hhart : ∀ h', h' ≠ h → m.sched.current h' ≠ me := fun h' => hg.current_ne hs.placement
  have hknown : m.sched.tasks me ≠ none := hme ▸ hs.current_known h
  have hclaims : ∀ t r, t ≠ me → m'.claims t r → m.claims t r := by
    intro t r ht hr
    exact hr.imp (fun hr => hp.root t ht ▸ hr) fun hr => hother t ht ▸ hr
  have hmine : ∀ r, m'.claims me r → m'.spaces.root me = some r ∨ .setAddressSpace r ∈ l := fun r hr =>
    hr.imp_right fun hr => hself ▸ hr
  -- a root another hart has loaded was the task's before
  have hroot : ∀ h', m'.spaces.root me = some (m.spaces.satp h') →
      m.spaces.root me = some (m.spaces.satp h') := by
    intro h' hr
    have hc := (hclaim _ (.inl hr)).resolve_right fun hn => hn (hs.satp_used h')
    rcases hs.satp h' with he | ⟨t, ht, hrt, -⟩
    · exact absurd he (hs.claim_used me _ hknown hc).2.1
    · exact hs.claim_unique t me _ ht hknown (.inl hrt) hc ▸ hrt
  refine ⟨hm₁ ▸ hs.placement, hm₁ ▸ hs.current_known, fun h' w hw => ?_, fun t ht => ?_, fun t => ?_,
    fun t r hr => ?_, fun t ht => ?_, hp.bootRoot ▸ hp.inUse _ hs.boot_used, fun t r ht hr => ?_,
    fun t u r ht hu hr hr' => ?_, fun h' => ?_, fun h' t ht => ?_, fun h' t ht hr hc => ?_,
    fun h' hl hu => ?_⟩
  · rw [hm₂] at hw
    obtain ⟨hnext, hr⟩ := hs.next h' w hw
    exact ⟨hm₁ ▸ hnext, hr.trans (hp.root _ (hnext ▸ hhart h' (m.ne_of_switching hsw hw))).symm⟩
  · rw [hm₁] at ht
    have hlt : me < m.sched.nextTaskId := hme ▸ hs.placement.current_lt h
    have hne : t ≠ me := fun he => Nat.not_le_of_lt hlt (he ▸ ht)
    rw [hp.root t hne, hp.user t hne, hp.cleared t hne, hother t hne]
    exact hs.fresh t ht
  · by_cases ht : t = me
    · rw [ht, hself]
      exact hphase
    · rw [hother t ht, hp.root t ht, hp.user t ht]
      exact hs.phase t
  · rw [hm₁, hm₂]
    by_cases ht : t = me
    · rw [ht, hself] at hr ⊢
      exact ⟨h, hme, hsw, hstarting r hr⟩
    rw [hother t ht] at hr ⊢
    obtain ⟨h', hc, hn, hpub⟩ := hs.starting t r hr
    have hh : h' ≠ h := fun he => ht (hc.symm.trans (he ▸ hme))
    exact ⟨h', hc, hn, hpub.imp_right fun hq => (hp.currentProcess h' hh).trans hq⟩
  · by_cases hte : t = me
    · subst hte
      refine ⟨Waits.not_of_goesOn hg hs.placement, fun h' hc => ?_⟩
      rw [hm₁] at hc
      obtain rfl : h' = h := hs.placement.current_injective (hc.trans hme.symm)
      rw [hself]
      exact hleaving ht
    · obtain ⟨hnw, hf⟩ := hs.leaving t (hp.cleared t hte ▸ ht)
      refine ⟨fun hw => hnw ((Waits.goesOn_iff hg).mp hw), fun h' hc => ?_⟩
      rw [hm₁] at hc
      have hh : h' ≠ h := fun he => hte (hc.symm.trans (he ▸ hme))
      rw [hother t hte, hp.currentProcess h' hh]
      exact hf h' hc
  · rw [hm₁] at ht
    rw [hp.bootRoot]
    by_cases hte : t = me
    · subst hte
      exact hused r (hmine r hr)
    · obtain ⟨hu, hb, hc⟩ := hs.claim_used t r ht (hclaims t r hte hr)
      exact ⟨hp.inUse r hu, hb, Nat.lt_of_lt_of_le (hp.created t hte ▸ hc) hp.clock⟩
  · rw [hm₁] at ht hu
    -- a root the task has newly taken was not in use
    have hnew : ∀ v, v ≠ me → m.sched.tasks v ≠ none → m.claims v r → ¬ m'.claims me r := by
      intro v hv hvk hvr hr
      rcases hclaim r (hmine r hr) with hr | hr
      · exact hv (hs.claim_unique v me r hvk hknown hvr hr)
      · exact hr (hs.claim_used v r hvk hvr).1
    by_cases hte : t = me <;> by_cases hue : u = me
    · exact hte.trans hue.symm
    · subst hte
      exact absurd hr (hnew u hue hu (hclaims u r hue hr'))
    · subst hue
      exact absurd hr' (hnew t hte ht (hclaims t r hte hr))
    · exact hs.claim_unique t u r ht hu (hclaims t r hte hr) (hclaims u r hue hr')
  · rw [hm₁, hp.bootRoot]
    by_cases hh : h' = h
    · exact hh ▸ hsatp
    rw [hp.satp h' hh, hp.activated h' hh]
    refine (hs.satp h').imp_right ?_
    rintro ⟨t, ht, hr, hc⟩
    by_cases hte : t = me
    · subst hte
      exact ⟨t, ht, (hp.me_root _ hr).1, (hp.me_root _ hr).2 ▸ hc⟩
    · exact ⟨t, ht, (hp.root t hte).trans hr, (hp.created t hte).symm ▸ hc⟩
  · rw [hm₁]
    by_cases hh : h' = h
    · exact hprocess t (hh ▸ ht)
    · exact hs.process h' t (hp.currentProcess h' hh ▸ ht)
  · rw [hm₁] at ht
    by_cases hh : h' = h
    · subst hh
      refine (hcoherent t ht hr hc).imp_right ?_
      rintro ⟨r, hw⟩
      refine ⟨r, ?_⟩
      rwa [hm₁, hme, hself]
    rw [hp.satp h' hh] at hr
    have hcl : m.spaces.cleared t = false := by
      by_cases hte : t = me
      · by_contra hne
        rw [hte] at hc hne
        exact absurd (hp.me_cleared (by simpa using hne)) (by simp [hc])
      · exact hp.cleared t hte ▸ hc
    have hrt : m.spaces.root t = some (m.spaces.satp h') := by
      by_cases hte : t = me
      · exact hte ▸ hroot h' (hte ▸ hr)
      · exact hp.root t hte ▸ hr
    refine (hs.coherent h' t ht hrt hcl).imp (fun hq => (hp.currentProcess h' hh).trans hq) ?_
    rintro ⟨r, hw⟩
    refine ⟨r, ?_⟩
    rwa [hm₁, hother _ (hhart h' hh)]
  · have hl' : m.loaded h' := fun w hw => hl w (hm₂ ▸ hw)
    rw [hm₁] at hu ⊢
    by_cases hh : h' = h
    · subst hh
      rw [hme] at hu ⊢
      exact hrunning hu
    · have hne := hhart h' hh
      rw [hp.root _ hne, hp.satp h' hh]
      exact hs.running h' hl' (hp.user _ hne ▸ hu)

theorem goOn (hme : m.sched.current h = me) (hsw : m.switching h = none)
    (hold : Busy (m.todo me)) (hl : ∀ o ∈ l, o.starts = false) (hphase : Phase (m.spaces.user me) (m.spaces.root me) l)
    (hfin : m.spaces.cleared me = true → Final l) : Spaced (m.goOn me l) := by
  have hstart : ∀ {o : Op n}, o.starts = true → o ∉ l := by
    intro o ho hm
    rw [hl o hm] at ho
    cases ho
  have hroot : ∀ r, m.spaces.root me = some r ∨ .setAddressSpace r ∈ l → m.spaces.root me = some r :=
    fun r hr => hr.resolve_right (hstart rfl)
  refine hs.own ⟨hme, hsw, rfl, rfl, rfl⟩ (.refl _ h me) hphase (fun r hr => absurd hr (hstart rfl))
    (fun hc => ⟨hfin hc, ((hs.leaving me hc).final h hme).2⟩)
    (fun r hr => hs.claim_used me r (hme ▸ hs.current_known h) (.inl (hroot r hr)))
    (fun r hr => .inl (.inl (hroot r hr))) (hs.satp h) (hs.process h) (fun t ht hr hc => ?_)
    fun hu => hme ▸ hs.running h (loaded_of_settled hsw) (hme ▸ hu)
  refine .inl ((hs.coherent h t ht hr hc).resolve_right ?_)
  rw [← hme] at hold
  exact not_window_of_busy hold

/-! ### The scheduler's sections -/

theorem sched (he : Eases m.sched s) (hp : Placement s)
    (hn : s.nextTaskId = m.sched.nextTaskId) (hk : ∀ t, s.tasks t ≠ none ↔ m.sched.tasks t ≠ none) :
    Spaced { m with sched := s } where
  placement := hp
  current_known := fun h => (hk _).mpr (he.current ▸ hs.current_known h)
  next := fun h w hw => he.current ▸ hs.next h w hw
  fresh := fun t ht => hs.fresh t (hn ▸ ht)
  phase := hs.phase
  starting := fun t r hr => he.current ▸ hs.starting t r hr
  leaving := fun t ht => ⟨fun hw => (hs.leaving t ht).1 (.of_eases he hw), he.current ▸ (hs.leaving t ht).2⟩
  boot_used := hs.boot_used
  claim_used := fun t r ht => hs.claim_used t r ((hk t).mp ht)
  claim_unique := fun t u r ht hu => hs.claim_unique t u r ((hk t).mp ht) ((hk u).mp hu)
  satp := fun h => (hs.satp h).imp_right fun ⟨t, ht, hrest⟩ => ⟨t, (hk t).mpr ht, hrest⟩
  process := fun h t ht => (hk t).mpr (hs.process h t ht)
  coherent := by
    intro h t ht hroot hcl
    refine (hs.coherent h t ((hk t).mp ht) hroot hcl).imp_right ?_
    rintro ⟨r, hr⟩
    exact ⟨r, by simpa only [he.current] using hr⟩
  running := by
    intro h hl hu
    rw [he.current] at hu ⊢
    exact hs.running h hl hu

theorem wake (h : Fin n) (now : Nat) (id : TaskId) : Spaced { m with sched := m.sched.wake h now id } :=
  hs.sched (.wake ..) (hs.placement.wake h now id) (Placement.nextTaskId_wake ..) fun _ => known_wake ..

theorem kill (target : TaskId) (isSelf remote : Bool) : Spaced { m with sched := (m.sched.kill target isSelf remote).2 } :=
  hs.sched (.kill ..) (hs.placement.kill target isSelf remote) (Placement.nextTaskId_kill ..) fun _ => known_kill ..

theorem remove (hknown : m.sched.tasks child ≠ none)
    (hfree : ∀ h, m.sched.current h ≠ child ∧ m.spaces.root child ≠ some (m.spaces.satp h) ∧
      m.spaces.currentProcess h ≠ some child) : Spaced (m.remove child) := by
  have hk := known_remove m child
  have hkeep : ∀ r, r ∈ m.spaces.inUse → m.spaces.root child ≠ some r →
      r ∈ (m.remove child).spaces.inUse := by
    intro r hr hne
    simp only [Machine.remove]
    cases hroot : m.spaces.root child with
    | none => exact hr
    | some r' => exact (mem_erase_of_ne fun he => hne (by rw [hroot, he])).mpr hr
  exact {
    placement := hs.placement.reapTask child
    current_known := fun h => (hk _).mpr ⟨(hfree h).1, hs.current_known h⟩
    next := hs.next
    fresh := hs.fresh
    phase := hs.phase
    starting := hs.starting
    leaving := fun t ht => by
      obtain ⟨hnw, hf⟩ := hs.leaving t ht
      exact ⟨fun hw => hnw (.of_eases (.reapTask m.sched child) hw), hf⟩
    boot_used := hkeep _ hs.boot_used fun he => (hs.claim_used child _ hknown (.inl he)).2.1 rfl
    claim_used := fun t r ht hr => by
      obtain ⟨hne, ht⟩ := (hk t).mp ht
      obtain ⟨hu, hboot, hcr⟩ := hs.claim_used t r ht hr
      exact ⟨hkeep r hu fun he => hne (hs.claim_unique t child r ht hknown hr (.inl he)), hboot, hcr⟩
    claim_unique := fun t u r ht hu => hs.claim_unique t u r ((hk t).mp ht).2 ((hk u).mp hu).2
    satp := fun h => by
      refine (hs.satp h).imp_right ?_
      rintro ⟨t, ht, hroot, hcr⟩
      exact ⟨t, (hk t).mpr ⟨fun he => (hfree h).2.1 (he ▸ hroot), ht⟩, hroot, hcr⟩
    process := fun h t ht => (hk t).mpr ⟨fun he => (hfree h).2.2 (he ▸ ht), hs.process h t ht⟩
    coherent := fun h t ht => hs.coherent h t ((hk t).mp ht).2
    running := hs.running }

theorem spawn (hart : Fin n) (now : Nat) (kind : SpawnKind) (slot : Slot) : Spaced (m.spawn hart now kind slot) := by
  obtain ⟨hroot, huser, hcleared, -⟩ := hs.fresh m.sched.nextTaskId (Nat.le_refl _)
  have hcur : ∀ h, m.sched.current h ≠ m.sched.nextTaskId := fun h => Nat.ne_of_lt (hs.placement.current_lt h)
  obtain ⟨start, hstart, hphase⟩ : ∃ start : List (Op n),
      (m.spawn hart now kind slot).todo = update m.todo m.sched.nextTaskId start ∧
      (start = [] ∨ start = [.newUserRoot]) := by
    cases kind with
    | kernel => exact ⟨_, rfl, .inl rfl⟩
    | user abi => exact ⟨_, rfl, .inr rfl⟩
  have hself : (m.spawn hart now kind slot).todo m.sched.nextTaskId = start := by
    rw [hstart, update_self]
  have hother : ∀ t, t ≠ m.sched.nextTaskId → (m.spawn hart now kind slot).todo t = m.todo t := by
    intro t ht
    rw [hstart, update_of_ne ht]
  have hk := known_spawn m hart now kind slot
  have hspaces : (m.spawn hart now kind slot).spaces = m.spaces := rfl
  have hclaims : ∀ t r, (m.spawn hart now kind slot).claims t r → t ≠ m.sched.nextTaskId ∧ m.claims t r := by
    intro t r hr
    have hne : t ≠ m.sched.nextTaskId := by
      rintro rfl
      rcases hr with hr | hr
      · rw [hspaces, hroot] at hr
        cases hr
      · rw [hself] at hr
        rcases hphase with rfl | rfl <;> simp at hr
    exact ⟨hne, hr.imp_right fun hr => hother t hne ▸ hr⟩
  have hold : ∀ t r, (m.spawn hart now kind slot).sched.tasks t ≠ none →
      (m.spawn hart now kind slot).claims t r → m.sched.tasks t ≠ none ∧ m.claims t r := by
    intro t r ht hr
    exact ⟨((hk t).mp ht).resolve_left (hclaims t r hr).1, (hclaims t r hr).2⟩
  exact {
    placement := hs.placement.spawn hart now
    current_known := fun h => (hk _).mpr (.inr (hs.current_known h))
    next := hs.next
    fresh := fun t ht => by
      have hlt : m.sched.nextTaskId < t := ht
      rw [hother t (Nat.ne_of_gt hlt)]
      exact hs.fresh t (Nat.le_of_lt hlt)
    phase := fun t => by
      by_cases ht : t = m.sched.nextTaskId
      · subst ht
        rw [hself, hspaces, hroot, huser]
        rcases hphase with rfl | rfl
        · exact .kernel (by simp [Busy]) (by simp)
        · exact .fresh
      · rw [hother t ht]
        exact hs.phase t
    starting := fun t r hr => by
      have hne : t ≠ m.sched.nextTaskId := by
        rintro rfl
        rw [hself] at hr
        rcases hphase with rfl | rfl <;> simp at hr
      rw [hother t hne] at hr ⊢
      exact hs.starting t r hr
    leaving := fun t ht => by
      have hne : t ≠ m.sched.nextTaskId := by
        rintro rfl
        rw [hspaces, hcleared] at ht
        cases ht
      obtain ⟨hnw, hf⟩ := hs.leaving t ht
      refine ⟨fun hw => hnw (.of_spawn hne hw), fun h hc => ?_⟩
      rw [hother t hne]
      exact hf h hc
    boot_used := hs.boot_used
    claim_used := fun t r ht hr => hs.claim_used t r (hold t r ht hr).1 (hold t r ht hr).2
    claim_unique := fun t u r ht hu hr hr' =>
      hs.claim_unique t u r (hold t r ht hr).1 (hold u r hu hr').1 (hold t r ht hr).2 (hold u r hu hr').2
    satp := fun h => (hs.satp h).imp_right fun ⟨t, ht, hrest⟩ => ⟨t, (hk t).mpr (.inr ht), hrest⟩
    process := fun h t ht => (hk t).mpr (.inr (hs.process h t ht))
    coherent := fun h t ht hr hc => by
      refine (hs.coherent h t (hold t _ ht (.inl hr)).1 hr hc).imp_right ?_
      rintro ⟨r, hw⟩
      have hsame : (m.spawn hart now kind slot).todo ((m.spawn hart now kind slot).sched.current h) =
        m.todo (m.sched.current h) := hother _ (hcur h)
      exact ⟨r, by rwa [hsame]⟩
    running := hs.running }

theorem spawn_todo {h hart : Fin n} {l : List (Op n)}
    (htodo : m.todo (m.sched.current h) = l) : (m.spawn hart now kind slot).todo (m.sched.current h) = l :=
  (update_of_ne (Nat.ne_of_lt (hs.placement.current_lt h)) ..).trans htodo

theorem switch (htodo : m.todo (m.sched.current h) = op :: rest)
    (hop : op = .yieldNow ∧ d = .requeue ∨ op = .block ∧ d = .block ∨ op = .exitNow ∧ d = .exit)
    (hout : SwitchesOut m m' h d rest) : Spaced m' := by
  have hk := known_switch hout
  have hm₄ := hout.spaces
  have hphase := htodo ▸ hs.phase (m.sched.current h)
  have hbusy : Busy (op :: rest) := by
    rcases hop with ⟨rfl, -⟩ | ⟨rfl, -⟩ | ⟨rfl, -⟩ <;> exact hphase.busy_of_head rfl (by simp)
  have hbusy' : Busy (resumeWith d rest) := by
    cases d with
    | exit => simp [Busy, resumeWith]
    | requeue | block =>
      intro o ho
      rcases mem_cons.mp ho with rfl | ho
      · exact ⟨rfl, by simp⟩
      · exact hbusy.tail o ho
  -- a task that gave up its process can only exit
  have hexit : m.spaces.cleared (m.sched.current h) = true → d = .exit := by
    intro hc
    have hfinal := ((hs.leaving _ hc).final h rfl).1
    rw [htodo] at hfinal
    have := hfinal.1 op mem_cons_self
    rcases hop with ⟨rfl, -⟩ | ⟨rfl, -⟩ | ⟨-, rfl⟩
    · cases this
    · cases this
    · rfl
  have hhart : ∀ h', m.sched.current h' ≠ m.sched.current h → h' ≠ h := fun h' he hh => he (hh ▸ rfl)
  have hclaims : ∀ t r, m'.claims t r → m.claims t r := by
    rintro t r (hr | hr)
    · exact .inl (hm₄ ▸ hr)
    by_cases ht : t = m.sched.current h
    · rw [ht, hout.todo_self] at hr
      exact absurd hr (hbusy'.not_mem rfl)
    · exact .inr (hout.todo_of_ne ht ▸ hr)
  refine ⟨hout.placement hs.placement, fun h' => (hk _).mpr (hout.current_known hs.current_known h'),
    fun h' w hw => ?_, fun t ht => ?_, fun t => ?_, fun t r hr => ?_, fun t ht => ?_, hm₄ ▸ hs.boot_used,
    fun t r ht hr => ?_, fun t u r ht hu hr hr' => ?_, fun h' => ?_, fun h' t ht => ?_,
    fun h' t ht hroot hc => ?_, fun h' hl hu => ?_⟩
  · by_cases hh : h' = h
    · rw [hh, hout.switching_self] at hw
      cases hw
      rw [hh, hm₄]
      exact ⟨rfl, rfl⟩
    · rw [hout.switching_of_ne hh] at hw
      rw [hout.current_of_ne hh, hm₄]
      exact hs.next h' w hw
  · obtain ⟨_, _, _, hs'⟩ := hout.sched
    rw [hs'.nextTaskId] at ht
    rw [hout.todo_of_ne fun he => Nat.not_le_of_lt (hs.placement.current_lt h) (he ▸ ht), hm₄]
    exact hs.fresh t ht
  · rw [hm₄]
    by_cases ht : t = m.sched.current h
    · rw [ht, hout.todo_self]
      refine (hs.phase _).goOn (htodo ▸ hbusy) hbusy' fun hu armed hm => ?_
      have hnot := (hu ▸ hphase).not_tryEnable (hbusy op mem_cons_self).1 armed
      cases d with
      | exit => cases hm
      | requeue | block =>
        rcases mem_cons.mp hm with he | hm
        · cases he
        · exact hnot (mem_cons_of_mem _ hm)
    · rw [hout.todo_of_ne ht]
      exact hs.phase t
  · have hte : t ≠ m.sched.current h := by
      rintro rfl
      rw [hout.todo_self] at hr
      exact hbusy'.not_mem rfl hr
    rw [hout.todo_of_ne hte] at hr ⊢
    obtain ⟨h', hc, hnone, hproc⟩ := hs.starting t r hr
    have hh := hhart h' (hc ▸ hte)
    exact ⟨h', by rw [hout.current_of_ne hh, hc], by rw [hout.switching_of_ne hh, hnone], hm₄ ▸ hproc⟩
  · rw [hm₄] at ht
    obtain ⟨hnw, hf⟩ := hs.leaving t ht
    by_cases hte : t = m.sched.current h
    · subst hte
      obtain rfl := hexit ht
      exact ⟨Waits.not_of_exit hs.placement hout, fun h' hc => absurd hc (hout.current_ne hs.placement h')⟩
    refine ⟨fun hw => hnw (.of_switch hout hte hw), fun h' hc => ?_⟩
    have hh : h' ≠ h := by
      rintro rfl
      exact hnw (.inl ⟨h', hc ▸ hout.current_queued⟩)
    rw [hout.todo_of_ne hte, hm₄]
    exact hf h' (hout.current_of_ne hh ▸ hc)
  · rw [hm₄]
    exact hs.claim_used t r ((hk t).mp ht) (hclaims t r hr)
  · exact hs.claim_unique t u r ((hk t).mp ht) ((hk u).mp hu) (hclaims t r hr) (hclaims u r hr')
  · rw [hm₄]
    refine (hs.satp h').imp_right ?_
    rintro ⟨t, ht, hrest⟩
    exact ⟨t, (hk t).mpr ht, hrest⟩
  · exact (hk t).mpr (hs.process h' t (hm₄ ▸ ht))
  · rw [hm₄] at hroot hc ⊢
    refine (hs.coherent h' t ((hk t).mp ht) hroot hc).imp_right ?_
    rintro ⟨r, hw⟩
    have hcur : m.sched.current h' ≠ m.sched.current h := by
      intro he
      rw [he, htodo] at hw
      exact hbusy.not_mem rfl hw.1
    refine ⟨r, ?_⟩
    rwa [hout.current_of_ne (hhart h' hcur), hout.todo_of_ne hcur]
  · have hh : h' ≠ h := by
      rintro rfl
      exact hl _ hout.switching_self rfl
    rw [hout.current_of_ne hh, hm₄] at hu ⊢
    exact hs.running h' (fun w hw => hl w (by rw [hout.switching_of_ne hh, hw])) hu

/-! ### The steps of a switch -/

theorem advance (hw : m.switching h = some w) (hst : w.stage = .space → m.spaces.user (m.sched.current h) = true →
      m.spaces.root (m.sched.current h) = some (m.spaces.satp h)) (hm₁ : m'.sched = m.sched)
    (hm₂ : m'.switching = update m.switching h w.following) (hm₃ : m'.todo = m.todo)
    (hm₄ : m'.spaces = m.spaces) : Spaced m' := by
  have hidle : ∀ h', m.switching h' = none → m'.switching h' = none := by
    intro h' hn
    have hh : h' ≠ h := by
      rintro rfl
      rw [hw] at hn
      cases hn
    rw [hm₂, update_of_ne hh, hn]
  have hspaced : Spaced { m with switching := m'.switching } := { hs with
    next := fun h' w' hw' => by
      rw [hm₂] at hw'
      by_cases hh : h' = h
      · rw [hh, update_self] at hw'
        obtain ⟨-, hnext, -, hroot⟩ := Switch.following_eq hw'
        rw [hnext, hroot, hh]
        exact hs.next h w hw
      · rw [update_of_ne hh] at hw'
        exact hs.next h' w' hw'
    starting := fun t r hr => by
      obtain ⟨h', hc, hn, hp⟩ := hs.starting t r hr
      exact ⟨h', hc, hidle h' hn, hp⟩
    leaving := fun t ht => by
      obtain ⟨hnw, hf⟩ := hs.leaving t ht
      refine ⟨fun hwait => hnw (hwait.imp_right (Or.imp_right fun ⟨h', hc, hn⟩ => ⟨h', hc, ?_⟩)), hf⟩
      exact fun hn' => hn (hidle h' hn')
    running := fun h' hl hu => by
      by_cases hh : h' = h ∧ w.stage = .space
      · obtain ⟨rfl, hspace⟩ := hh
        exact hst hspace hu
      refine hs.running h' (fun w' hw' => ?_) hu
      by_cases hh' : h' = h
      · obtain rfl := some.inj (hw.symm.trans (hh' ▸ hw'))
        exact fun hspace => hh ⟨hh', hspace⟩
      · exact hl w' (by rw [hm₂, update_of_ne hh', hw']) }
  exact hspaced.congr hm₁ rfl hm₃ hm₄

theorem load (hw : m.switching h = some w) (hr : w.root = some r) :
    Spaced { m with spaces := (m.spaces.activate h r).setProcess h (some w.next) } := by
  obtain ⟨hnext, hroot⟩ := hs.next h w hw
  have hclaim : m.claims w.next r := .inl (hroot ▸ hr)
  have hknown : m.sched.tasks w.next ≠ none := hnext ▸ hs.current_known h
  have hidle : ∀ h', m.switching h' = none → h' ≠ h := by
    rintro h' hn rfl
    rw [hw] at hn
    cases hn
  have hused := fun t r' (ht : m.sched.tasks t ≠ none) hc => hs.claim_used t r' ht hc
  exact { hs with
    starting := fun t r' hm => by
      obtain ⟨h', hc, hn, hp⟩ := hs.starting t r' hm
      exact ⟨h', hc, hn, hp.imp_right fun hp => (update_of_ne (hidle h' hn) ..).trans hp⟩
    leaving := fun t ht => by
      obtain ⟨hnw, hf⟩ := hs.leaving t ht
      refine ⟨hnw, fun h' hc => ⟨(hf h' hc).1, (update_of_ne ?_ ..).trans (hf h' hc).2⟩⟩
      rintro rfl
      exact hnw (.inr (.inr ⟨h', hc, hw ▸ some_ne_none _⟩))
    claim_used := fun t r' ht hc =>
      ⟨(hused t r' ht hc).1, (hused t r' ht hc).2.1, Nat.lt_succ_of_lt (hused t r' ht hc).2.2⟩
    satp := fun h' => by
      by_cases hh : h' = h
      · right
        refine ⟨w.next, hknown, ?_, ?_⟩
        · simp [setProcess, activate, hh, ← hroot, hr]
        · simpa [setProcess, activate, hh] using (hused _ _ hknown hclaim).2.2
      · simpa [setProcess, activate, hh] using hs.satp h'
    process := fun h' t ht => by
      by_cases hh : h' = h
      · obtain rfl : w.next = t := by simpa [setProcess, hh] using ht
        exact hknown
      · exact hs.process h' t (by simpa [setProcess, activate, hh] using ht)
    coherent := fun h' t ht hrt hc => by
      by_cases hh : h' = h
      · have hr' : m.spaces.root t = some r := by simpa [setProcess, activate, hh] using hrt
        obtain rfl := hs.claim_unique t w.next r ht hknown (.inl hr') hclaim
        exact .inl (by simp [setProcess, hh])
      · have hold := hs.coherent h' t ht (by simpa [setProcess, activate, hh] using hrt) hc
        exact hold.imp (fun hp => (update_of_ne hh ..).trans hp) fun hp => hp
    running := fun h' hl hu => by
      by_cases hh : h' = h
      · simpa [setProcess, activate, hh, ← hnext, ← hroot] using hr
      · simpa [setProcess, activate, hh] using hs.running h' hl hu }

theorem stage (hw : m.switching h = some w) : Spaced (m.advance h w) := by
  by_cases hst : w.stage = .space
  swap
  · refine hs.advance hw (fun he => absurd he hst) (m.advance_sched h w) (m.advance_switching h w) (m.advance_todo h w) ?_
    unfold Machine.advance
    cases hs' : w.stage with
    | space => exact absurd hs' hst
    | _ => rfl
  obtain ⟨hnext, hroot⟩ := hs.next h w hw
  have hspaces : (m.advance h w).spaces = m.spaces.switchTo h w.root w.next := by
    simp [Machine.advance, hst]
  unfold switchTo at hspaces
  cases hsw : addressSpaceSwitch (m.spaces.satp h) w.root with
  | none =>
    rw [hsw] at hspaces
    refine hs.advance hw (fun _ hu => ?_) (m.advance_sched h w) (m.advance_switching h w) (m.advance_todo h w) hspaces
    -- nothing was loaded: the root is the one that is loaded already
    obtain ⟨r, hr⟩ := (hu ▸ hs.phase (m.sched.current h)).root_of_user
    rw [hroot, hnext, hr] at hsw
    have hsatp : r = m.spaces.satp h := by simpa [addressSpaceSwitch] using hsw
    rw [hr, hsatp]
  | some r =>
    rw [hsw] at hspaces
    have hr : w.root = some r := by
      cases hroot' : w.root with
      | none => simp [addressSpaceSwitch, hroot'] at hsw
      | some r' =>
        simp only [hroot', addressSpaceSwitch, ite_not, ite_none_left_eq_some] at hsw
        exact hsw.2
    have hload := hs.load hw hr
    refine hload.advance hw (fun _ _ => ?_) (m.advance_sched h w) (m.advance_switching h w) (m.advance_todo h w) hspaces
    simpa [setProcess, activate, ← hnext, ← hroot] using hr

omit hs

/-! ### The start and the end of a process -/

section Process

variable {h : Fin n} {me : TaskId} {rest : List (Op n)}

variable (hs : Spaced m)
include hs

variable (hme : m.sched.current h = me)
include hme

theorem known : m.sched.tasks me ≠ none := hme ▸ hs.current_known h

theorem not_cleared (hnot : ¬ Final (m.todo me)) : m.spaces.cleared me = false := by
  by_contra hc
  exact hnot ((hs.leaving me (by simpa using hc)).final h hme).1

theorem clear (hsw : m.switching h = none)
    (htodo : m.todo me = .clearProcess :: rest) : Spaced ({ m with spaces := { m.spaces.setProcess h none with
      cleared := update m.spaces.cleared me true } }.goOn me rest) := by
  obtain ⟨huser, ⟨r, hroot⟩, hf⟩ := (htodo ▸ hs.phase me).of_clearProcess
  have hknown := hs.known hme
  have hsatp : m.spaces.root me = some (m.spaces.satp h) :=
    hme ▸ hs.running h (loaded_of_settled hsw) (hme ▸ huser)
  have hclaims : ∀ r', m.spaces.root me = some r' ∨ .setAddressSpace r' ∈ rest → m.claims me r' :=
    fun r' hr => .inl (hr.resolve_right (hf.busy.not_mem rfl))
  refine hs.own ⟨hme, hsw, rfl, rfl, rfl⟩ { SameBut.refl m.spaces h me with
      cleared := fun t ht => update_of_ne ht ..
      currentProcess := fun h' hh => update_of_ne hh ..
      me_cleared := fun _ => update_self .. }
    ?_ (fun r' hr => absurd hr (hf.busy.not_mem rfl)) (fun _ => ⟨hf, update_self ..⟩)
    (fun r' hr => hs.claim_used me r' hknown (hclaims r' hr)) (fun r' hr => .inl (hclaims r' hr)) (hs.satp h)
    (fun t ht => ?_) (fun t ht hr hc => ?_) fun _ => hsatp
  · show Phase (m.spaces.user me) (m.spaces.root me) rest
    rw [huser, hroot]
    exact .user r hf.busy
  · simp [setProcess] at ht
  -- the loaded root is the task's own, and it has just been given up
  obtain rfl := hs.claim_unique t me _ ht hknown (.inl hr) (.inl hsatp)
  simp at hc

theorem not_leaving {P : Prop} (htodo : m.todo me = op :: rest) (hop : op.starts = true)
    (hc : m.spaces.cleared me = true) : P := by
  have hf := ((hs.leaving me hc).final h hme).1
  rw [htodo] at hf
  rw [(hf.busy op mem_cons_self).1] at hop
  cases hop

theorem published (hr : .enterUser r ∈ m.todo me) (hp : .publish ∉ m.todo me) : m.spaces.currentProcess h = some me := by
  obtain ⟨h₀, hc₀, -, hproc⟩ := hs.starting me r hr
  obtain rfl : h₀ = h := hs.placement.current_injective (hc₀.trans hme.symm)
  exact hproc.resolve_left hp

variable (hsw : m.switching h = none)
include hsw

theorem newRoot (htodo : m.todo me = .newUserRoot :: rest) (hr : r ∉ m.spaces.inUse) : Spaced ({ m with spaces := { m.spaces with
      inUse := r :: m.spaces.inUse
      created := update m.spaces.created me m.spaces.clock
      clock := m.spaces.clock + 1 } }.goOn me (.publish :: .setAddressSpace r :: .enterUser r :: rest)) := by
  obtain ⟨huser, hroot, rfl⟩ := (htodo ▸ hs.phase me).of_newUserRoot
  have hmine : ∀ r', m.spaces.root me = some r' ∨
      (.setAddressSpace r' : Op n) ∈ [.publish, .setAddressSpace r, .enterUser r] → r' = r := by
    rintro r' (he | hm)
    · rw [hroot] at he
      cases he
    · simpa using hm
  have hboot : r ≠ m.spaces.bootRoot := fun he => hr (he ▸ hs.boot_used)
  refine hs.own ⟨hme, hsw, rfl, rfl, rfl⟩ { SameBut.refl m.spaces h me with
      inUse := fun r' hr' => mem_cons_of_mem _ hr'
      clock := Nat.le_succ _
      created := fun t ht => update_of_ne ht ..
      me_root := fun r' he => by
        rw [hroot] at he
        cases he }
    ?_ (fun r' _ => .inl mem_cons_self) (hs.not_leaving hme htodo rfl) (fun r' hm => ?_)
    (fun r' hm => .inr (hmine r' hm ▸ hr)) ((hs.satp h).imp_right ?_) (hs.process h)
    (fun t ht hrt hc => ?_) fun hu => ?_
  · show Phase (m.spaces.user me) (m.spaces.root me) _
    rw [huser, hroot]
    exact .publish r
  · rw [hmine r' hm]
    exact ⟨mem_cons_self, hboot, by simp⟩
  · rintro ⟨t, ht, hrt, hct⟩
    have hne : t ≠ me := by
      rintro rfl
      rw [hroot] at hrt
      cases hrt
    exact ⟨t, ht, hrt, Nat.lt_of_le_of_lt (Nat.le_of_eq (update_of_ne hne ..)) hct⟩
  · refine .inl ((hs.coherent h t ht hrt hc).resolve_right ?_)
    rintro ⟨r', hm, -⟩
    simp [hme, htodo] at hm
  · exact absurd (huser.symm.trans hu) Bool.false_ne_true

theorem publish (htodo : m.todo me = .publish :: rest) :
    Spaced ({ m with spaces := m.spaces.setProcess h (some me) }.goOn me rest) := by
  obtain ⟨huser, hroot, r, rfl⟩ := (htodo ▸ hs.phase me).of_publish
  have hknown := hs.known hme
  have hclaims : ∀ r', m.spaces.root me = some r' ∨
      (.setAddressSpace r' : Op n) ∈ [.setAddressSpace r, .enterUser r] → m.claims me r' := by
    rintro r' (he | hm)
    · exact .inl he
    · exact .inr (htodo ▸ mem_cons_of_mem _ hm)
  refine hs.own ⟨hme, hsw, rfl, rfl, rfl⟩ { SameBut.refl m.spaces h me with
      currentProcess := fun h' hh => update_of_ne hh .. }
    ?_ (fun r' _ => .inr (update_self ..)) (hs.not_leaving hme htodo rfl)
    (fun r' hm => hs.claim_used me r' hknown (hclaims r' hm)) (fun r' hm => .inl (hclaims r' hm)) (hs.satp h)
    (fun t ht => ?_) (fun t ht hrt hc => .inr ⟨r, by simp⟩) fun hu => ?_
  · show Phase (m.spaces.user me) (m.spaces.root me) _
    rw [huser, hroot]
    exact .setSpace r
  · obtain rfl : me = t := by simpa [setProcess] using ht
    exact hknown
  · exact absurd (huser.symm.trans hu) Bool.false_ne_true

theorem setSpace (htodo : m.todo me = .setAddressSpace r :: rest) : Spaced ({ m with spaces := { m.spaces with
      root := update m.spaces.root me (some r) } }.goOn me rest) := by
  obtain ⟨huser, hroot, rfl⟩ := (htodo ▸ hs.phase me).of_setAddressSpace
  have hknown := hs.known hme
  have hclaim : m.claims me r := .inr (htodo ▸ mem_cons_self)
  have hmine : ∀ r', update m.spaces.root me (some r) me = some r' ∨
      (.setAddressSpace r' : Op n) ∈ [.enterUser r] → r' = r := by
    rintro r' (he | hm)
    · rw [update_self] at he
      exact (some.inj he).symm
    · simp at hm
  have hne : ∀ h' t, m.spaces.root t = some (m.spaces.satp h') → t ≠ me := by
    rintro h' t hrt rfl
    rw [hroot] at hrt
    cases hrt
  have hproc := hs.published hme (r := r) (by simp [htodo]) (by simp [htodo])
  refine hs.own ⟨hme, hsw, rfl, rfl, rfl⟩ { SameBut.refl m.spaces h me with
      root := fun t ht => update_of_ne ht ..
      me_root := fun r' he => by
        rw [hroot] at he
        cases he }
    ?_ (fun r' _ => .inr hproc) (hs.not_leaving hme htodo rfl) (fun r' hm => ?_) (fun r' hm => .inl (hmine r' hm ▸ hclaim))
    ((hs.satp h).imp_right ?_) (hs.process h) (fun t ht hrt hc => .inr ⟨r, by simp⟩) fun hu => ?_
  · show Phase (m.spaces.user me) (update m.spaces.root me (some r) me) _
    rw [huser, update_self]
    exact .enter r
  · rw [hmine r' hm]
    exact hs.claim_used me r hknown hclaim
  · rintro ⟨t, ht, hrt, hct⟩
    exact ⟨t, ht, (update_of_ne (hne h t hrt) ..).trans hrt, hct⟩
  · exact absurd (huser.symm.trans hu) Bool.false_ne_true

theorem enter (htodo : m.todo me = .enterUser r :: rest) : Spaced ({ m with
      spaces := { m.spaces.activate h r with user := update m.spaces.user me true }
      fp := f }.goOn me rest) := by
  obtain ⟨huser, hroot, rfl⟩ := (htodo ▸ hs.phase me).of_enterUser
  have hknown := hs.known hme
  have hclaim : m.claims me r := .inl hroot
  have hused := hs.claim_used me r hknown hclaim
  have hmine : ∀ r', m.spaces.root me = some r' ∨ (.setAddressSpace r' : Op n) ∈ [] → r' = r := by
    rintro r' (he | hm)
    · exact some.inj (he.symm.trans hroot)
    · cases hm
  have hproc := hs.published hme (r := r) (by simp [htodo]) (by simp [htodo])
  refine hs.own ⟨hme, hsw, rfl, rfl, rfl⟩ { SameBut.refl m.spaces h me with
      clock := Nat.le_succ _
      user := fun t ht => update_of_ne ht ..
      satp := fun h' hh => update_of_ne hh ..
      activated := fun h' hh => update_of_ne hh .. }
    ?_ (fun r' hm => by cases hm) (hs.not_leaving hme htodo rfl) (fun r' hm => ?_) (fun r' hm => .inl (hmine r' hm ▸ hclaim))
    (.inr ⟨me, hknown, ?_, ?_⟩) (hs.process h) (fun t ht hrt hc => ?_) fun hu => ?_
  · show Phase (update m.spaces.user me true me) (m.spaces.root me) []
    rw [update_self, hroot]
    exact .user r (by simp [Busy])
  · rw [hmine r' hm]
    exact ⟨hused.1, hused.2.1, Nat.lt_succ_of_lt hused.2.2⟩
  · simp [activate, hroot]
  · simpa [activate] using hused.2.2
  · have hrt : m.spaces.root t = some r := by simpa [activate] using hrt
    obtain rfl := hs.claim_unique t me r ht hknown (.inl hrt) hclaim
    exact .inl hproc
  · simp [activate, hroot]

/-! ### Steps -/

theorem goOnRest (htodo : m.todo me = op :: rest) (hop : op.starts = false ∧ op ≠ .clearProcess) (new : List (Op n))
    (hnew : ∀ o ∈ new, o.starts = false ∧ o ≠ .clearProcess ∧ ∀ armed, o ≠ .tryEnable armed)
    (hfin : op.final = true → op ≠ .exitNow ∧ ∀ o ∈ new, o.final = true) : Spaced (m.goOn me (new ++ rest)) := by
  have hphase := htodo ▸ hs.phase me
  have hbusy := hphase.busy_of_head hop.1 hop.2
  have hbusy' : Busy (new ++ rest) := .append (fun o ho => ⟨(hnew o ho).1, (hnew o ho).2.1⟩) hbusy.tail
  refine hs.goOn hme hsw (htodo ▸ hbusy) (fun o ho => (hbusy' o ho).1)
    (hphase.goOn hbusy hbusy' fun hu armed hm => ?_) fun hc => ?_
  · rcases mem_append.mp hm with hm | hm
    · exact (hnew _ hm).2.2 armed rfl
    · exact (hu ▸ hphase).not_tryEnable hop.1 armed (mem_cons_of_mem _ hm)
  · have hf := ((hs.leaving me hc).final h hme).1
    rw [htodo] at hf
    obtain ⟨hne, hfnew⟩ := hfin (hf.1 op mem_cons_self)
    exact hf.rest hne hfnew

theorem program (hold : Busy (m.todo me)) (hnot : ¬ Final (m.todo me)) (hl : ∀ o ∈ l, o.starts = false)
    (hphase : Phase (m.spaces.user me) (m.spaces.root me) l) : Spaced (m.goOn me l) :=
  hs.goOn hme hsw hold hl hphase fun hc =>
    absurd ((hs.not_cleared hme hnot).symm.trans hc) Bool.false_ne_true

omit hs hme hsw

theorem not_final_of_head (hop : op.final = false) : ¬ Final (op :: rest) := by
  intro hf
  rw [hf.1 op mem_cons_self] at hop
  cases hop

theorem faultProgram_phase (hs : Spaced m) (hu : m.spaces.user me = true) (status : Int) :
    Phase (m.spaces.user me) (m.spaces.root me) (faultProgram (n := n) me status) := by
  have hphase := hs.phase me
  rw [hu] at hphase ⊢
  obtain ⟨r, hr⟩ := hphase.root_of_user
  rw [hr]
  exact .ending r ⟨by simp [final], by simp⟩

end Process

theorem does (hs : Spaced m) {h : Fin n}
    (hreap : ∀ child, op = .reapTask child ∨ op = .sweep child → ∀ h, m.sched.current h ≠ child ∧
      m.spaces.root child ≠ some (m.spaces.satp h) ∧ m.spaces.currentProcess h ≠ some child)
    (hsw : m.switching h = none) (htodo : m.todo (m.sched.current h) = op :: rest) (hd : Does m h op rest m') : Spaced m' := by
  have hphase := htodo ▸ hs.phase (m.sched.current h)
  cases hd with
  | quiet new ownerless reap hop hnew hfinal hsweep =>
    have hplain := plain_busy hop
    refine (hs.congr rfl rfl rfl rfl : Spaced { m with ownerless, reap }).goOnRest rfl hsw htodo
      ⟨hplain.1, hplain.2.1⟩ new (fun o ho => plain_busy (hnew o ho)) fun hf => ⟨?_, hfinal hf⟩
    rintro rfl
    cases hop
  | wake now =>
    exact (hs.wake h now _).goOnRest ((Eases.wake m.sched h now _).current ▸ rfl) hsw htodo ⟨rfl, by simp⟩ [] (by simp) (by simp)
  | kill new hnew =>
    refine (hs.kill _ _ _).goOnRest ((Eases.kill m.sched _ _ _).current ▸ rfl) hsw htodo ⟨rfl, by simp⟩ new
      (fun o ho => ?_) (by simp [final])
    obtain ⟨c, s, rfl⟩ := hnew o ho
    exact ⟨rfl, by simp⟩
  | @remove _ child _ hop hknown =>
    refine (hs.remove hknown (hreap child hop)).goOnRest rfl hsw htodo ?_ [] (by simp) ?_
    · rcases hop with rfl | rfl <;> exact ⟨rfl, by simp⟩
    · rcases hop with rfl | rfl <;> simp [final]
  | @spawn hart kind _ new now slot hslot hnew =>
    refine (hs.spawn hart now kind slot).goOnRest rfl hsw (hs.spawn_todo htodo) ⟨rfl, by simp⟩ new (fun o ho => ?_)
      (by simp [final])
    obtain ⟨c, rfl⟩ := hnew o ho
    exact ⟨rfl, by simp⟩
  | keep hop =>
    refine hs.goOnRest rfl hsw htodo ?_ [] (by simp) ?_
    · rcases hop with rfl | rfl <;> exact ⟨rfl, by simp⟩
    · rcases hop with rfl | rfl <;> simp [final]
  | switch hop hprep hne => exact hs.switch htodo hop (switchesOut hsw hprep hne)
  | clear => exact hs.clear rfl hsw htodo
  | root hroot => exact hs.newRoot rfl hsw htodo hroot
  | publish => exact hs.publish rfl hsw htodo
  | setSpace => exact hs.setSpace rfl hsw htodo
  | enter => exact hs.enter rfl hsw htodo
  | refuse =>
    have huser : m.spaces.user (m.sched.current h) = true := by
      by_contra hu
      rw [Bool.not_eq_true] at hu
      exact (hu ▸ hphase).not_tryEnable rfl _ mem_cons_self
    exact hs.program rfl hsw (htodo ▸ hphase.busy_of_head rfl (by simp)) (htodo ▸ not_final_of_head rfl)
      (by simp [faultProgram, starts]) (hs.faultProgram_phase huser _)
  | @enable armed _ _ hp hauth hoff =>
    have hbusy := hphase.busy_of_head rfl (by simp)
    have hgone : Spaced (m.goOn (m.sched.current h) [.checkpoint armed, .sret]) :=
      hs.program rfl hsw (htodo ▸ hbusy) (htodo ▸ not_final_of_head rfl) (by simp [starts])
        (hphase.goOn hbusy (by simp [Busy, starts]) (by simp))
    exact hgone.withFp _
  | die =>
    have hbusy := hphase.busy_of_head rfl (by simp)
    exact hs.program rfl hsw (htodo ▸ hbusy) (htodo ▸ not_final_of_head rfl) (by simp [starts])
      (hphase.goOn hbusy (by simp [Busy, starts]) (by simp))
  | pass => exact hs.goOnRest rfl hsw htodo ⟨rfl, by simp⟩ [] (by simp) (by simp [final])
  | sret | restore =>
    exact (hs.goOnRest rfl hsw htodo ⟨rfl, by simp⟩ [] (by simp) (by simp [final])).withFp _

end Spaced

/-- The step reaps no task that a hart runs, whose root a hart has loaded or whose process it has
published. -/
def reapsUnloaded (m : Machine n) (l : Label n) : Bool :=
  (m.reaps l).all fun child => decide (∀ h, m.sched.current h ≠ child ∧
    m.spaces.root child ≠ some (m.spaces.satp h) ∧ m.spaces.currentProcess h ≠ some child)

theorem Spaced.step (hs : Spaced m) {l : Label n} (hok : reapsUnloaded m l = true) (hl : m.step l = some m') : Spaced m' := by
  have hnil : Busy ([] : List (Op n)) ∧ ¬ Final ([] : List (Op n)) := by simp [Busy, Final]
  cases step_stepped hl with
  | @run h now frame op _ _ hsw htodo hd =>
    refine hs.does (fun child hop => ?_) hsw htodo hd
    have hreaps : m.reaps (.run h now frame) = some child := by
      rcases hop with rfl | rfl <;> simp [reaps, entry_run hsw htodo]
    simpa [reapsUnloaded, hreaps] using hok
  | stage hsw => exact hs.stage hsw
  | interrupt h now id => exact hs.wake h now id
  | kernel call hsw htodo huser =>
    refine hs.program rfl hsw (htodo ▸ hnil.1) (htodo ▸ hnil.2) ?_
      ((htodo ▸ hs.phase _).goOn hnil.1 ?_ fun _ armed => ?_) <;>
      cases call <;> simp [KernelCall.program, Busy, starts]
  | @trap h call armed hsw htodo huser =>
    have hs' := hs.withFp { m.fp with
      frameFs := update m.fp.frameFs (m.sched.current h) (m.fp.fs h) }
    cases hcall : call with
    | exit status =>
      exact hs'.program rfl hsw (htodo ▸ hnil.1) (htodo ▸ hnil.2)
        (by simp [UserCall.program, faultProgram, starts]) (hs'.faultProgram_phase huser status)
    | _ =>
      refine hs'.program rfl hsw (htodo ▸ hnil.1) (htodo ▸ hnil.2) ?_
        ((htodo ▸ hs.phase _).goOn hnil.1 ?_ fun _ armed => ?_) <;>
        simp [UserCall.program, Busy, starts]
  | @fpTrap h armed hsw htodo huser hoff =>
    have hs' := hs.withFp { m.fp with
      frameFs := update m.fp.frameFs (m.sched.current h) (m.fp.fs h) }
    refine hs'.program rfl hsw (htodo ▸ hnil.1) (htodo ▸ hnil.2) (by simp [starts])
      ((htodo ▸ hs.phase _).goOn hnil.1 (by simp [Busy, starts]) fun hu => ?_)
    exact absurd (hu.symm.trans huser) Bool.false_ne_true
  | fpWrite | fpRead => exact hs.withFp _

theorem boot_spaced (bootRoot : Root) (regs : Fin n → FpRegs) : Spaced (boot bootRoot regs) where
  placement := (boot_placed bootRoot regs).live.placement
  current_known := fun h => by simp [boot]
  next := fun h w hw => absurd hw.symm (some_ne_none _)
  fresh := fun t _ => ⟨rfl, rfl, rfl, rfl⟩
  phase := fun t => .kernel (by simp [boot, Busy]) (by simp [boot])
  starting := fun t r hr => by simp [boot] at hr
  leaving := fun t ht => by simp [boot] at ht
  boot_used := mem_singleton_self _
  claim_used := fun t r _ hr => by simp [claims, boot] at hr
  claim_unique := fun t u r _ _ hr => by simp [claims, boot] at hr
  satp := fun h => .inl rfl
  process := fun h t ht => by simp [boot] at ht
  coherent := fun h t _ hr => by simp [boot] at hr
  running := fun h _ hu => by simp [boot] at hu

/-- What the kernel's address-space handling promises. -/
structure SpacesOk (m : Machine n) : Prop where
  loaded : ∀ h, m.spaces.satp h = m.spaces.bootRoot ∨
    ∃ t, m.sched.tasks t ≠ none ∧ m.spaces.root t = some (m.spaces.satp h)
  /-- A task that gave up its process in `Exit` or a fault has none published while it switches away. -/
  running : ∀ h, m.switching h = none → m.spaces.user (m.sched.current h) = true →
    m.spaces.root (m.sched.current h) = some (m.spaces.satp h) ∧
    m.spaces.created (m.sched.current h) < m.spaces.activated h ∧
    (m.spaces.currentProcess h = some (m.sched.current h) ∨
      m.spaces.cleared (m.sched.current h) = true ∧ m.spaces.currentProcess h = none)
  published : ∀ h t, m.spaces.currentProcess h = some t → m.sched.tasks t ≠ none

theorem Spaced.spacesOk (hs : Spaced m) : SpacesOk m where
  loaded := fun h => (hs.satp h).imp_right fun ⟨t, ht, hr, _⟩ => ⟨t, ht, hr⟩
  published := hs.process
  running := by
    intro h hsw hu
    have hroot := hs.running h (loaded_of_settled hsw) hu
    refine ⟨hroot, ?_, ?_⟩
    · rcases hs.satp h with he | ⟨t, ht, hr, hc⟩
      · exact absurd he (hs.claim_used _ _ (hs.current_known h) (.inl hroot)).2.1
      · exact hs.claim_unique t _ _ ht (hs.current_known h) (.inl hr) (.inl hroot) ▸ hc
    cases hc : m.spaces.cleared (m.sched.current h) with
    | true => exact .inr ⟨rfl, ((hs.leaving _ hc).final h rfl).2⟩
    | false =>
      refine .inl ((hs.coherent h _ (hs.current_known h) hroot hc).resolve_right ?_)
      rintro ⟨r, hr, -⟩
      exact (hu ▸ hs.phase (m.sched.current h)).not_starts_of_user rfl hr

/-- In every run of the harts that reaps no task a hart still has loaded, in every state reached. -/
theorem spaces_ok_of_reapsUnloaded {bootRoot : Root} {regs : Fin n → FpRegs} {m : Machine n}
    (hrun : Runs.Reaches step (fun m l => reapsUnloaded m l) (boot bootRoot regs) m) : SpacesOk m :=
  (hrun.invariant (I := Spaced) (boot_spaced bootRoot regs) fun _ _ _ hs hok hl => hs.step hok hl).spacesOk

/-- Hart `h` yields from user mode to a new task, which starts a process with root `root`. -/
def yieldToNew (h : Fin 2) (root : Root) : List (Label 2) :=
  [trap h .yield false, run h 0 0] ++ List.replicate 4 (Label.stage h) ++ run h 0 root :: runs h 3

/-- Process `2` spawns process `3` on its own hart, which exits back to it and is collected. -/
def exitToParent : List (Label 2) :=
  [Label.kernel 0 (.spawn 0 (.user .soft)), run 0 0 10] ++ startProcess 0 200 ++
    [trap 0 (.spawn 0 .soft) false, run 0 0 11] ++ runs 0 3 ++ yieldToNew 0 201 ++
    trap 0 (.exit 0) false :: runs 0 3 ++ List.replicate 3 (Label.stage 0) ++ runs 0 3 ++
    trap 0 (.wait 3) false :: runs 0 2

theorem spaces_ok_of_reapsUnloaded_exitToParent :
    ∃ m, Runs.Reaches step (fun m l => reapsUnloaded m l) twoHarts m ∧ m.sched.tasks 3 = none ∧
      m.spaces.user (m.sched.current 0) = true ∧ m.spaces.satp 0 = 200 ∧ SpacesOk m := by
  obtain ⟨m, hrun, hgone, huser, hsatp⟩ : ∃ m, Runs.Reaches step (fun m l => reapsUnloaded m l) twoHarts m ∧
      m.sched.tasks 3 = none ∧ m.spaces.user (m.sched.current 0) = true ∧ m.spaces.satp 0 = 200 :=
    Runs.exists_reaches exitToParent (by decide)
  exact ⟨m, hrun, hgone, huser, hsatp, spaces_ok_of_reapsUnloaded hrun⟩

/-- Process `3` is collected while its root, `201`, is still loaded on hart `1`. Process `4` is given the
same root on hart `0`, blocks, and is woken and run on hart `1`. -/
def rootHandedOutAgain : List (Label 2) :=
  exitThenWait ++ runs 0 2 ++ [trap 0 (.spawn 0 .soft) false, run 0 0 11] ++ runs 0 3 ++ yieldToNew 0 201 ++
    [trap 0 .block false, run 0 0 0] ++ List.replicate 4 (Label.stage 0) ++
    [run 1 0 0, Label.kernel 1 (.wake 4), run 1 0 0, Label.kernel 1 .yield, run 1 0 0] ++
    List.replicate 4 (Label.stage 1)

/-- Hart `1` runs process `4` without a published process, on a root it loaded before that root was made. -/
theorem stale_root_reused :
    ∃ m, Runs.Reaches step (fun _ _ => True) twoHarts m ∧ m.switching 1 = none ∧
      m.spaces.user (m.sched.current 1) = true ∧ m.spaces.cleared (m.sched.current 1) = false ∧
      m.spaces.activated 1 < m.spaces.created (m.sched.current 1) ∧ m.spaces.currentProcess 1 = none :=
  Runs.exists_reaches rootHandedOutAgain (by decide)

end SnitchOs.Hart
