import SnitchOs.Kernel.Rpc

/-!
# Callers stay parked while their calls can be answered

In any run, with kills, exits and reaping. A received token is in a table, on its way to one, or being moved by a
reply; the caller it names is then blocked in the call it was issued for. Four kinds of step can break this, and each
is a condition on the state before it: a delegation copies the token, a stray wake lets the call return unanswered, a
kill or a reap ends the caller in its call, and a receiver on another hart takes the message before the caller is
blocked.
-/

namespace SnitchOs.Kernel

open Cap Ipc Notify Sched Function List Option IpcState Scheduler
open Budget

variable {n : Nat}

/-! ### Blocked in a call -/

/-- Task `c` is blocked in call `j`. -/
def State.Parked (k : State n) (c : TaskId) (j : CallNo) : Prop :=
  k.todo c = [.resume (.called j)] ∧ k.sched.isBlocked c = true

instance (k : State n) (c : TaskId) (j : CallNo) : Decidable (k.Parked c j) :=
  inferInstanceAs (Decidable (_ ∧ _))

/-- Task `c` is in call `j`: it has still to wake the receiver, or to park, or is parked. -/
inductive State.InCall (k : State n) (c : TaskId) (j : CallNo) : Prop
  | waking {peer : TaskId} (ht : k.todo c = [.wake peer, .park (.called j)])
  | parking (ht : k.todo c = [.park (.called j)])
  | parked (hp : k.Parked c j)

def State.callBlocked (k : State n) (t : TaskId) : Bool :=
  match waiting (k.todo t) with
  | some (.called _) => k.sched.isBlocked t
  | _ => false

variable {c : TaskId} {j : CallNo} {l : Label n} {x : Token}

theorem State.Parked.callBlocked {k : State n} (hp : k.Parked c j) : k.callBlocked c = true := by
  simp [State.callBlocked, hp.1, Sec.waits, hp.2]

/-! ### The conditions -/

open State

/-- The step kills a task that is blocked in a call, or a hart's own task, or reaps the former. -/
def State.endsCaller (k : State n) : Label n → Bool
  | .run h _ =>
    match k.todo (k.sched.current h) with
    | .sched (.kill _ target isSelf remote) :: _ =>
      !isSelf && !remote && (k.callBlocked target || decide (target < n))
    | .sched (.reapTask child) :: _ => k.callBlocked child
    | _ => false
  | _ => false

def State.taken (k : State n) : Label n → Option Delivered
  | .run h _ =>
    match k.todo (k.sched.current h) with
    | .ipc (.receiveBegin ep) :: _ => (k.ipc.endpoints ep).state.senders.head?.bind (k.ipc.pendingAt ep)
    | .resume (.received ep) :: _ => k.ipc.pendingAt ep (k.sched.current h)
    | _ => none
  | _ => none

/-- The step takes the message of a call whose caller is not blocked yet. -/
def State.receivesEarly (k : State n) (l : Label n) : Bool :=
  (k.taken l).any fun d => d.replyTo.any fun c => !k.sched.isBlocked c

/-- The step delegates no reply capability, wakes no unanswered caller, ends no caller and receives no
call too early. -/
def State.Orderly (k : State n) (l : Label n) : Prop :=
  k.delegatesReply l = false ∧ k.wakesUnanswered l = false ∧ k.endsCaller l = false ∧
    k.receivesEarly l = false

instance (k : State n) (l : Label n) : Decidable (k.Orderly l) :=
  inferInstanceAs (Decidable (_ ∧ _))

/-! ### Who becomes blocked, and who ceases to be -/

inductive Blocks (me t : TaskId) (b : Bool) : Sec n → Prop
  | wake (hb : b = false) : Blocks me t b (.wake t)
  | kill (handle : Handle) (hb : b = false) : Blocks me t b (.sched (.kill handle t false false))
  | reap (hb : b = false) : Blocks me t b (.sched (.reapTask t))
  | park (r : Resume) (ht : t = me) (hb : b = true) : Blocks me t b (.park r)

variable {t : TaskId} {p : Place} {r : StashedReply}

section Blocking

variable {k k' : State n} {s : Sec n}

theorem isBlocked_spawn {s : Scheduler n} (hp : Placement s) (hart : Fin n) (now : Nat) (t : TaskId) :
    (s.spawn hart now).isBlocked t = s.isBlocked t := by
  rw [Placement.isBlocked_update (s := s) rfl]
  split
  · next ht =>
    have hnone : s.tasks t = none := by
      by_contra hne
      exact absurd (hp.bound t hne) (by rw [ht]; exact Nat.lt_irrefl _)
    simp [isBlocked, hnone]
  · rfl

theorem isBlocked_kill (s : Scheduler n) (target : TaskId) (isSelf remote : Bool) (t : TaskId) :
    (s.kill target isSelf remote).2.isBlocked t = s.isBlocked t ∨ (t = target ∧ isSelf = false ∧ remote = false ∧
        (s.kill target isSelf remote).2.isBlocked t = false) := by
  rcases Placement.kill_cases s target isSelf remote with
    ⟨task, -, hself, hremote, -, hk⟩ | ⟨task, ht, hk⟩ | ⟨o, -, hk⟩
  · rw [hk, Placement.isBlocked_update (s := s) rfl]
    by_cases heq : t = target
    · exact .inr ⟨heq, hself, hremote, by rw [if_pos heq]; rfl⟩
    · exact .inl (if_neg heq)
  · left
    rw [hk, Placement.isBlocked_update (s := s) rfl]
    split
    · next heq => rw [heq, isBlocked, ht]; rfl
    · rfl
  · exact .inl (by rw [hk])

theorem isBlocked_reapTask (s : Scheduler n) (child t : TaskId) :
    (s.reapTask child).isBlocked t = if t = child then false else s.isBlocked t := by
  unfold isBlocked reapTask
  by_cases ht : t = child
  · simp [ht]
  · simp [ht]

theorem State.blocks_exec (hp : Placement k.sched) (hexec : k.exec h now rest s = some k') (t : TaskId) :
    k'.sched.isBlocked t = k.sched.isBlocked t ∨ Blocks (k.sched.current h) t (k'.sched.isBlocked t) s := by
  cases s with
  | sched s =>
    cases s with
    | wake id =>
      cases hexec
      have hb := Steady.isBlocked_wake k.sched h now id t
      by_cases ht : t = id
      · subst ht
        rw [if_pos rfl] at hb
        exact .inr (.wake hb)
      · exact .inl (hb.trans (if_neg ht))
    | yieldNow | exitNow =>
      obtain ⟨s', hsw, rfl⟩ := map_eq_some_iff.mp hexec
      exact (Steady.isBlocked_switch hp hsw t).imp_right fun hb => by cases hb.1
    | reapTask child =>
      cases hexec
      have hb := isBlocked_reapTask k.sched child t
      by_cases ht : t = child
      · subst ht
        rw [if_pos rfl] at hb
        exact .inr (.reap hb)
      · exact .inl (hb.trans (if_neg ht))
    | spawn hart handed =>
      cases hexec
      exact .inl (isBlocked_spawn hp hart now t)
    | killRead handle target =>
      cases hexec
      exact .inl rfl
    | kill handle target isSelf remote =>
      cases hexec
      refine (isBlocked_kill k.sched target isSelf remote t).imp_right ?_
      rintro ⟨rfl, rfl, rfl, hb⟩
      exact .kill handle hb
  | park r =>
    obtain ⟨s', hsw, rfl⟩ := map_eq_some_iff.mp hexec
    refine (Steady.isBlocked_switch hp hsw t).imp_right ?_
    rintro ⟨-, ht, hb⟩
    exact .park r ht hb
  | _ =>
    rw [(executed hexec).sched rfl]
    exact .inl rfl

theorem State.todo_step_of_ne (hs : k.step l = some k') (hne : t ≠ k.sched.current l.hart)
    (hlt : t < k.sched.nextTaskId) : k'.todo t = k.todo t := by
  rcases step_cases hs with ⟨h, now, s, rest, rfl, -, hexec⟩ | ⟨-, -, rfl⟩
  · exact (executed hexec).todo_of_ne hne hlt
  · exact update_of_ne hne ..

theorem lt_of_isBlocked (hp : Placement k.sched) (hb : k.sched.isBlocked t = true) : t < k.sched.nextTaskId := by
  obtain ⟨task, ht, -⟩ := isBlocked_eq_true_iff.mp hb
  exact hp.bound t (by rw [ht]; exact some_ne_none _)

theorem ne_current_of_isBlocked (hp : Placement k.sched) (hb : k.sched.isBlocked t = true) (h : Fin n) :
    t ≠ k.sched.current h := by
  rintro rfl
  rw [hp.current_not_blocked h] at hb
  cases hb

theorem State.Parked.step (hpk : k.Parked c j) (hp : Placement k.sched)
    (hnone : k.ipc.replies c = none) (hw : k.wakesUnanswered l = false)
    (he : k.endsCaller l = false) (hs : k.step l = some k') : k'.Parked c j := by
  have hne := ne_current_of_isBlocked hp hpk.2
  refine ⟨(todo_step_of_ne hs (hne _) (lt_of_isBlocked hp hpk.2)).trans hpk.1, ?_⟩
  rcases step_cases hs with ⟨h, now, s, rest, rfl, ht, hexec⟩ | ⟨-, -, rfl⟩
  · rcases blocks_exec hp hexec c with hb | hb
    · rw [hb, hpk.2]
    cases hb with
    | wake => simp [wakesUnanswered, ht, hpk.1, Sec.waits, hpk.2, hnone] at hw
    | kill handle | reap => simp [endsCaller, ht, hpk.callBlocked] at he
    | park r hc => exact absurd hc (hne h)
  · exact hpk.2

end Blocking

/-! ### Tokens that were received -/

/-- The places a token is in after its receipt. -/
def Place.held : Place → Bool
  | .pending .. | .accepted => false
  | _ => true

section Held

variable {k k' : State n} {s : Sec n}

theorem State.accepted_exec (hexec : k.exec h now rest s = some k') : k.procs.accepted ⊆ k'.procs.accepted := by
  rw [(executed hexec).procs]
  unfold procsAfter
  split
  · next s =>
    rcases k.procs.exec_cases (k.sched.current h) s with ⟨hacc, -⟩ | ⟨t, t', caller, call, msg, moved, tail, hr⟩
    · rw [hacc]
      exact fun _ => id
    · rw [hr.exec]
      exact subset_append_left _ _
  · exact fun _ => id

theorem State.accepted_step (hs : k.step l = some k') (hx : x ∈ k.authority .accepted) : x ∈ k'.authority .accepted := by
  have hsub : k.procs.accepted ⊆ k'.procs.accepted := by
    rcases step_cases hs with ⟨h, now, s, rest, rfl, -, hexec⟩ | ⟨-, -, rfl⟩
    · exact accepted_exec hexec
    · exact fun _ => id
  obtain ⟨a, ha, rfl⟩ := mem_map.mp (Multiset.mem_coe.mp hx)
  exact mem_accepted (hsub ha)

theorem Flow.held (hf : Flow me k k') (ha' : k'.Affine) (hacc : ∀ x ∈ k.authority .accepted, x ∈ k'.authority .accepted)
    (hend : k'.ipc.endpoints = k.ipc.endpoints) (hnext : k'.ipc.nextCall = k.ipc.nextCall)
    (hp : p.held = true) (hx : x ∈ k'.authority p) : ∃ q, q.held = true ∧ x ∈ k.authority q := by
  rcases hf with ⟨hmv, -⟩ | ⟨-, -, -, hc⟩
  · obtain ⟨q, hq⟩ := (hmv.mask (fun q => q matches .pending ..) fun q hq => by
      cases q with
      | pending ep t => simp [authority, pendingAt, hend]
      | _ => cases hq).mem (l := p) (k := x) (by cases p <;> first | exact hx | cases hp)
    cases q with
    | pending ep t => simp at hq
    | accepted =>
      -- an accepted reply's token is nowhere else
      have hpa := ha'.place_eq (c := x.1) (j := x.2) hx (hacc x hq)
      rw [hpa] at hp
      cases hp
    | handler t => exact ⟨.handler t, rfl, hq⟩
    | table t => exact ⟨.table t, rfl, hq⟩
    | mailbox t => exact ⟨.mailbox t, rfl, hq⟩
  · rw [hc] at hnext
    exact absurd hnext (Nat.succ_ne_self _)

theorem held_take (ht : k.todo (k.sched.current h) = s :: rest) (ht' : k'.todo = update k.todo (k.sched.current h) (g ++ rest))
    (hg : sections g = a) (hr : k'.ipc.replies = k.ipc.replies) (hpr : k'.procs = k.procs)
    (hp : p.held = true) (hx : x ∈ k'.authority p) : x ∈ k.authority p ∨ x ∈ a := by
  cases p with
  | pending ep t | accepted => cases hp
  | handler t =>
    by_cases htm : t = k.sched.current h
    · subst htm
      rw [authority_handler ht', hg, Multiset.mem_add] at hx
      refine hx.symm.imp_left fun hrest => ?_
      simp [authority, ht, hrest]
    · exact .inl (by rwa [authority_handler_of_ne ht' htm] at hx)
  | _ => exact .inl (by simpa [authority, hr, hpr] using hx)

theorem State.held_ipc (ht : k.todo (k.sched.current h) = .ipc sec :: rest)
    (hi : k'.ipc = (k.ipc.exec (n := n) (k.sched.current h) sec).1)
    (ht' : k'.todo = update k.todo (k.sched.current h) ((k.ipc.exec (k.sched.current h) sec).2 ++ rest))
    (hpr : k'.procs = k.procs)
    (hquiet : k'.ipc.endpoints = k.ipc.endpoints → k'.ipc.nextCall = k.ipc.nextCall → ∀ p : Place, p.held = true → ∀ x ∈ k'.authority p, ∃ q, q.held = true ∧ x ∈ k.authority q)
    (hph : p.held = true) (hx : x ∈ k'.authority p) : (∃ q, q.held = true ∧ x ∈ k.authority q) ∨
      ∃ d, k.taken (.run h now) = some d ∧ x ∈ messageAuthority d := by
  have same : sections (n := n) (k.ipc.exec (k.sched.current h) sec).2 = 0 →
      (k.ipc.exec (n := n) (k.sched.current h) sec).1.replies = k.ipc.replies →
      ∃ q, q.held = true ∧ x ∈ k.authority q := fun hg hr =>
    ⟨p, hph, (held_take ht ht' hg (by rw [hi, hr]) hpr hph hx).resolve_right (Multiset.notMem_zero x)⟩
  cases sec with
  | sendBegin | callBegin =>
    refine .inl (same ?_ (k.ipc.replies_exec _ rfl))
    simp only [IpcState.exec, sendBegin, callBegin]
    split <;> rfl
  | receiveBegin ep =>
    rcases (k.ipc.endpoints ep).receiveBegin_cases (k.sched.current h) with
      ⟨peer, others, state, hsend, -, -, hb⟩ | ⟨state, -, -, -, hb⟩
    · have hg : sections (n := n) (k.ipc.exec (k.sched.current h) (.receiveBegin ep)).2 =
          messageAuthority ((k.ipc.pendingAt ep peer).getD {}) := by
        simp only [IpcState.exec, receiveBegin, hb, sections_append]
        split <;> simp [Sec.authority, pendingAt]
      have hr : k'.ipc.replies = k.ipc.replies := hi ▸ k.ipc.replies_exec _ rfl
      rcases held_take ht ht' hg hr hpr hph hx with hx | hx
      · exact .inl ⟨p, hph, hx⟩
      cases hd : k.ipc.pendingAt ep peer with
      | none => simp [hd, messageAuthority] at hx
      | some d => exact .inr ⟨d, by simp [taken, ht, hsend, hd], by simpa [hd] using hx⟩
    · refine .inl (same ?_ (k.ipc.replies_exec _ rfl))
      simp only [IpcState.exec, receiveBegin, hb]
      rfl
  | cancelEndpoints target => exact .inl (same rfl rfl)
  | _ => exact .inl (hquiet (by rw [hi]; rfl) (by rw [hi]; rfl) p hph x hx)

theorem State.held_step (hp : Placement k.sched) (hok : k.delegatesReply l = false) (ha : k.Affine)
    (hs : k.step l = some k') (hph : p.held = true) (hx : x ∈ k'.authority p) :
    (∃ q, q.held = true ∧ x ∈ k.authority q) ∨ ∃ d, k.taken l = some d ∧ x ∈ messageAuthority d := by
  have hflow := flow_step hp hok hs
  have quiet : k'.ipc.endpoints = k.ipc.endpoints → k'.ipc.nextCall = k.ipc.nextCall → ∀ p : Place,
      p.held = true → ∀ x ∈ k'.authority p, ∃ q, q.held = true ∧ x ∈ k.authority q := fun hend hnext p hph x hx =>
    hflow.held (hflow.affine ha) (fun x => accepted_step hs) hend hnext hph hx
  rcases step_cases hs with ⟨h, now, s, rest, rfl, ht, hexec⟩ | ⟨-, -, rfl⟩
  · obtain ⟨ht', -, hi, -, hpr, -⟩ := executed hexec
    cases s with
    | ipc s => exact held_ipc ht hi ht' hpr quiet hph hx
    | resume r =>
      cases r with
      | received ep =>
        have hg : sections (n := n) (k.ipc.takeDelivered (k.sched.current h) ep).2 =
            messageAuthority ((k.ipc.pendingAt ep (k.sched.current h)).getD {}) := by
          simp [takeDelivered, Endpoint.takeDelivered, Sec.authority, pendingAt]
        rcases held_take ht ht' hg (by rw [hi]; rfl) hpr hph hx with hx | hx
        · exact .inl ⟨p, hph, hx⟩
        cases hd : k.ipc.pendingAt ep (k.sched.current h) with
        | none => simp [hd, messageAuthority] at hx
        | some d => exact .inr ⟨d, by simp [taken, ht, hd], by simpa [hd] using hx⟩
      | _ => exact .inl (quiet (by rw [hi]; rfl) (by rw [hi]; rfl) p hph x hx)
    | _ => exact .inl (quiet (by rw [hi]; rfl) (by rw [hi]; rfl) p hph x hx)
  · exact .inl (quiet rfl rfl p hph x hx)

end Held

/-! ### Replies on their way -/

section Mail

variable {k k' : State n} {l : Label n}

theorem State.replies_ipcAfter (hr : (k.ipcAfter h s).replies c = some r) :
    (k.ipc.replies c = some r ∧ (c = k.sched.current h → ∀ j, s ≠ .resume (.called j))) ∨ s = .ipc (.stashReply c r) := by
  unfold ipcAfter at hr
  split at hr
  · next s =>
    cases hm : s.mails with
    | false =>
      rw [k.ipc.replies_exec _ hm] at hr
      exact .inl ⟨hr, by simp⟩
    | true =>
      cases s with
      | stashReply caller reply =>
        by_cases hc : c = caller
        · subst hc
          simp only [IpcState.exec, update_self, some.injEq] at hr
          exact .inr (by rw [hr])
        · simp only [IpcState.exec, update_of_ne hc] at hr
          exact .inl ⟨hr, by simp⟩
      | cancelReplies target =>
        by_cases hc : c = target
        · simp [IpcState.exec, hc] at hr
        simp only [IpcState.exec, update_of_ne hc] at hr
        exact .inl ⟨hr, by simp⟩
      | _ => cases hm
  · exact .inl ⟨hr, by simp⟩
  · by_cases hc : c = k.sched.current h
    · simp [takeReply, hc] at hr
    simp only [takeReply, update_of_ne hc] at hr
    exact .inl ⟨hr, fun he => absurd he hc⟩
  · next hres => exact .inl ⟨hr, fun _ => hres⟩

theorem State.replies_step (hs : k.step l = some k') (hr : k'.ipc.replies c = some r) : (k.ipc.replies c = some r ∧
      ∀ h now j, l = .run h now → c = k.sched.current h → k.todo c ≠ [.resume (.called j)]) ∨
    ∃ h now rest, l = .run h now ∧ k.todo (k.sched.current h) = .ipc (.stashReply c r) :: rest := by
  rcases step_cases hs with ⟨h, now, s, rest, rfl, ht, hexec⟩ | ⟨hrun, -, rfl⟩
  · rw [(executed hexec).ipc] at hr
    rcases replies_ipcAfter hr with ⟨hold, hres⟩ | rfl
    · refine .inl ⟨hold, ?_⟩
      rintro h' now' j hl hc htodo
      cases hl
      rw [hc, ht] at htodo
      exact hres hc j (List.cons.inj htodo).1
    · exact .inr ⟨h, now, rest, rfl, ht⟩
  · exact .inl ⟨hr, fun h now _ hl => absurd hl (hrun h now)⟩

/-- A stash was there before, in the handler of a task that does not step, or a reply was accepted. -/
theorem State.stash_step (hsh : ∀ t, Shaped (k.todo t)) (hs : k.step l = some k')
    (hm : .ipc (.stashReply c r) ∈ k'.todo t) : (t ≠ k.sched.current l.hart ∧ .ipc (.stashReply c r) ∈ k.todo t) ∨
      (t = k.sched.current l.hart ∧ (c, r.call) ∈ k.authority (.table t) ∧
        (c, r.call) ∈ k'.authority .accepted ∧ k'.ipc.replies = k.ipc.replies) := by
  cases origin hs hm with
  | other hne hm => exact .inl ⟨hne, hm⟩
  | rest _ ht _ hm =>
    have := (ht ▸ hsh _ : Shaped _).rest_noStash _ hm
    cases this
  | @emitted h now s rest hl ht hme he hin =>
    subst hl hme
    right
    -- only a reply goes on with a stash
    by_cases hrep : ∃ hd msg transfer recv, s = .caps (.replyViaCap hd msg transfer recv)
    · obtain ⟨hd, msg, transfer, recv, rfl⟩ := hrep
      simp only [State.step, ht] at hs
      obtain ⟨-, -, hi, -, hp, -⟩ := executed hs
      rcases k.procs.exec_cases (k.sched.current h) (.replyViaCap hd msg transfer recv : CapsSec n) with
        ⟨-, hplain⟩ | ⟨t, t', caller, call, msg, moved, tail, hr⟩
      · cases (hplain _ hin).1
      simp only [emitted, hr.exec] at hin
      obtain ⟨rfl, rfl⟩ : c = caller ∧ r.call = call := by
        rcases mem_cons.mp hin with heq | hin
        · cases heq
          exact ⟨rfl, rfl⟩
        · rcases mem_cons.mp hin with heq | hin
          · cases heq
          · cases (hr.tail _ hin).1.1
      have hlast : (c, r.call, msg) ∈ k'.procs.accepted := by
        simp [hp, procsAfter, hr.exec]
      exact ⟨rfl, by simp [authority, hr.table, hr.authority], mem_accepted hlast, by rw [hi]; rfl⟩
    · cases he.noStash (fun hd msg transfer recv e => hrep ⟨hd, msg, transfer, recv, e⟩) _ hin
  | entered _ hm => cases (k.entry_plain l _ hm).1
  | born _ _ _ hx => cases hx

end Mail

/-! ### The invariant -/

structure Calls (k : State n) : Prop where
  placement : Placement k.sched
  affine : k.Affine
  shaped : ∀ t, Shaped (k.todo t)
  own : OwnTasks k
  home : Home k.sched
  unborn : ∀ t, k.sched.nextTaskId ≤ t → k.todo t = []
  blocked : ∀ t, k.sched.isBlocked t = true → ∃ r, k.todo t = [.resume r]
  /-- A reply in the mailbox answers the call its caller is in. -/
  mail : ∀ c r, k.ipc.replies c = some r →
    k.todo c = [.resume (.called r.call)] ∧ (c, r.call) ∈ k.authority .accepted
  /-- The caller waits for a reply that is about to be stashed. -/
  stashed : ∀ t c r, .ipc (.stashReply c r) ∈ k.todo t →
    k.Parked c r.call ∧ (c, r.call) ∈ k.authority .accepted ∧ k.ipc.replies c = none
  stashedOnce : ∀ t t' c r r', .ipc (.stashReply c r) ∈ k.todo t → .ipc (.stashReply c r') ∈ k.todo t' → t = t'
  /-- While a call's message waits to be received, its caller is in the call. -/
  waits : ∀ ep x c j, (c, j) ∈ k.authority (.pending ep x) → k.InCall c j
  /-- From the receipt on it is parked. -/
  held : ∀ p, p.held = true → ∀ c j, (c, j) ∈ k.authority p → k.Parked c j

namespace Calls

variable {k k' : State n} {l : Label n}

variable (hk : Calls k)
include hk

theorem replies_none (hc : k.InCall c j) (hno : (c, j) ∉ k.authority .accepted) : k.ipc.replies c = none := by
  by_contra hne
  obtain ⟨r, hr⟩ := ne_none_iff_exists'.mp hne
  obtain ⟨ht, hacc⟩ := hk.mail c r hr
  cases hc with
  | waking ht' | parking ht' => rw [ht] at ht'; cases ht'
  | parked hp =>
    rw [hp.1] at ht
    cases ht
    exact hno hacc

theorem not_accepted (hp : p ≠ .accepted) (hm : (c, j) ∈ k.authority p) :
    (c, j) ∉ k.authority .accepted := fun hacc => hp (hk.affine.place_eq hm hacc)

theorem inCall_of_mem (hp : p ≠ .accepted) (hm : (c, j) ∈ k.authority p) : k.InCall c j := by
  cases p with
  | pending ep x => exact hk.waits ep x c j hm
  | accepted => exact absurd rfl hp
  | _ => exact .parked (hk.held _ rfl c j hm)

variable (hok : k.Orderly l) (hs : k.step l = some k')
include hs

include hok in
theorem inCall_step (hc : k.InCall c j) (hno : (c, j) ∉ k.authority .accepted) : k'.InCall c j := by
  obtain ⟨-, hw, he, -⟩ := hok
  have hlt : k.todo c ≠ [] → c < k.sched.nextTaskId := fun hne =>
    Nat.lt_of_not_le fun hle => hne (hk.unborn c hle)
  -- if the caller itself steps, it runs the next section of its handler
  have mine : ∀ {s : Sec n} {rest : List (Sec n)}, k.todo c = s :: rest → c = k.sched.current l.hart →
      ∃ h now, c = k.sched.current h ∧ k.exec h now rest s = some k' := by
    intro s rest ht hcur
    rcases step_cases hs with ⟨h, now, s', rest', rfl, ht', hexec⟩ | ⟨-, hnil, -⟩
    · have hcur : c = k.sched.current h := hcur
      rw [← hcur, ht] at ht'
      cases ht'
      exact ⟨h, now, hcur, hexec⟩
    · rw [← hcur, ht] at hnil
      cases hnil
  cases hc with
  | @waking peer ht =>
    by_cases hcur : c = k.sched.current l.hart
    · obtain ⟨h, now, hme, hexec⟩ := mine ht hcur
      cases hexec
      exact .parking (by rw [hme]; exact update_self ..)
    · exact .waking ((todo_step_of_ne hs hcur (hlt (by simp [ht]))).trans ht)
  | parking ht =>
    by_cases hcur : c = k.sched.current l.hart
    · obtain ⟨h, now, hme, hexec⟩ := mine ht hcur
      have hb := hk.own.isBlocked_park hk.home (hme ▸ ht) hexec
      refine .parked ⟨?_, hme ▸ hb⟩
      obtain ⟨s', -, rfl⟩ := map_eq_some_iff.mp hexec
      rw [hme]
      exact update_self ..
    · exact .parking ((todo_step_of_ne hs hcur (hlt (by simp [ht]))).trans ht)
  | parked hp =>
    exact .parked (hp.step hk.placement (hk.replies_none (.parked hp) hno) hw he hs)

theorem blocked_step (hb : k'.sched.isBlocked t = true) : ∃ r, k'.todo t = [.resume r] := by
  have old : k.sched.isBlocked t = true → ∃ r, k'.todo t = [.resume r] := by
    intro hb
    obtain ⟨r, hr⟩ := hk.blocked t hb
    refine ⟨r, (todo_step_of_ne hs ?_ (lt_of_isBlocked hk.placement hb)).trans hr⟩
    exact ne_current_of_isBlocked hk.placement hb _
  rcases step_cases hs with ⟨h, now, s, rest, rfl, ht, hexec⟩ | ⟨-, -, rfl⟩
  · rcases blocks_exec hk.placement hexec t with heq | hbl
    · exact old (heq ▸ hb)
    rw [hb] at hbl
    cases hbl with
    | wake hf | kill _ hf | reap hf => cases hf
    | park r htm =>
      subst htm
      have hnil : rest = [] := (ht ▸ hk.shaped _ : Shaped _).rest_nil rfl
      obtain ⟨s', -, rfl⟩ := map_eq_some_iff.mp hexec
      exact ⟨r, by rw [hnil]; exact update_self ..⟩
  · exact old hb

theorem mail_step (hr : k'.ipc.replies c = some r) :
    k'.todo c = [.resume (.called r.call)] ∧ (c, r.call) ∈ k'.authority .accepted := by
  rcases replies_step hs hr with ⟨hold, hne⟩ | ⟨h, now, rest, rfl, ht⟩
  · obtain ⟨htodo, hacc⟩ := hk.mail c r hold
    refine ⟨?_, accepted_step hs hacc⟩
    have hcur : c ≠ k.sched.current l.hart := by
      intro hc
      rcases step_cases hs with ⟨h, now, s, rest, rfl, -, -⟩ | ⟨-, hnil, -⟩
      · exact hne h now r.call rfl hc htodo
      rw [← hc, htodo] at hnil
      cases hnil
    refine (todo_step_of_ne hs hcur ?_).trans htodo
    exact Nat.lt_of_not_le fun hle => by simp [hk.unborn c hle] at htodo
  · obtain ⟨hp, hacc, -⟩ := hk.stashed _ c r (by rw [ht]; exact mem_cons_self)
    refine ⟨?_, accepted_step hs hacc⟩
    refine (todo_step_of_ne hs ?_ (lt_of_isBlocked hk.placement hp.2)).trans hp.1
    exact ne_current_of_isBlocked hk.placement hp.2 _

include hok in
theorem stashed_step (hm : .ipc (.stashReply c r) ∈ k'.todo t) :
    k'.Parked c r.call ∧ (c, r.call) ∈ k'.authority .accepted ∧ k'.ipc.replies c = none := by
  have parked : k.Parked c r.call → k.ipc.replies c = none → k'.Parked c r.call := fun hp hnone =>
    hp.step hk.placement hnone hok.2.1 hok.2.2.1 hs
  rcases stash_step hk.shaped hs hm with ⟨hcur, hold⟩ | ⟨-, htok, hacc, hsame⟩
  · obtain ⟨hp, hacc, hnone⟩ := hk.stashed t c r hold
    refine ⟨parked hp hnone, accepted_step hs hacc, ?_⟩
    by_contra hne
    obtain ⟨r', hr'⟩ := ne_none_iff_exists'.mp hne
    rcases replies_step hs hr' with ⟨hbefore, -⟩ | ⟨h, now, rest, rfl, ht⟩
    · rw [hnone] at hbefore
      cases hbefore
    -- the task that stashes would be the one that still has to
    refine hcur (hk.stashedOnce _ _ c r r' hold ?_)
    rw [show k.todo (k.sched.current (Label.run h now).hart) = _ from ht]
    exact mem_cons_self
  · have hp := hk.held (.table t) rfl c r.call htok
    have hnone := hk.replies_none (.parked hp) (hk.not_accepted (by simp) htok)
    exact ⟨parked hp hnone, hacc, by rw [hsame, hnone]⟩

theorem stashedOnce_step (hm : .ipc (.stashReply c r) ∈ k'.todo t) (hm' : .ipc (.stashReply c r') ∈ k'.todo t') : t = t' := by
  -- a caller whose token is still in a table has no reply on its way
  have fresh : ∀ {u u' : TaskId} {j : CallNo} {r : StashedReply}, (c, j) ∈ k.authority (.table u) →
      .ipc (.stashReply c r) ∉ k.todo u' := by
    intro u u' j r htok hin
    have hp := hk.held (.table u) rfl c j htok
    obtain ⟨hp', hacc, -⟩ := hk.stashed u' c r hin
    have ht := hp.1.symm.trans hp'.1
    cases ht
    exact hk.not_accepted (by simp) htok hacc
  rcases stash_step hk.shaped hs hm with ⟨-, hold⟩ | ⟨hcur, htok, -⟩
  · rcases stash_step hk.shaped hs hm' with ⟨-, hold'⟩ | ⟨-, htok', -⟩
    · exact hk.stashedOnce t t' c r r' hold hold'
    · exact absurd hold (fresh htok')
  · rcases stash_step hk.shaped hs hm' with ⟨-, hold'⟩ | ⟨hcur', -, -⟩
    · exact absurd hold' (fresh htok)
    · rw [hcur, hcur']

theorem inCall_issued (hnext : k'.ipc.nextCall ≠ k.ipc.nextCall) : k'.InCall (k.sched.current l.hart) k.ipc.nextCall := by
  rcases step_cases hs with ⟨h, now, s, rest, rfl, ht, hexec⟩ | ⟨-, -, rfl⟩
  · obtain ⟨ht', -, hi, -, -, -⟩ := executed hexec
    by_cases hcall : ∃ ep msg parent badge, s = .ipc (.callBegin ep msg parent badge)
    · obtain ⟨ep, msg, parent, badge, rfl⟩ := hcall
      have hnil : rest = [] := (ht ▸ hk.shaped _ : Shaped _).rest_nil rfl
      have htodo : k'.todo (k.sched.current h) =
          (k.ipc.exec (k.sched.current h) (.callBegin ep msg parent badge)).2 := by
        rw [ht', update_self, hnil]
        exact append_nil _
      simp only [IpcState.exec, callBegin] at htodo
      split at htodo
      · exact .waking htodo
      · exact .parking htodo
    · refine absurd ?_ hnext
      rw [hi]
      unfold ipcAfter
      split
      · exact k.ipc.nextCall_exec _ fun ep msg parent badge e => hcall ⟨ep, msg, parent, badge, congrArg Sec.ipc e⟩
      all_goals rfl
  · exact absurd rfl hnext

include hok in
theorem waits_step {x : TaskId} (hm : (c, j) ∈ k'.authority (.pending ep x)) : k'.InCall c j := by
  have hflow := flow_step hk.placement hok.1 hs
  have old : ∀ q, (c, j) ∈ k.authority q → k'.InCall c j := by
    intro q hq
    have hqa : q ≠ .accepted := by
      rintro rfl
      cases (hflow.affine hk.affine).place_eq hm (accepted_step hs hq)
    exact hk.inCall_step hok hs (hk.inCall_of_mem hqa hq) (hk.not_accepted hqa hq)
  rcases hflow with ⟨hmv, -⟩ | ⟨p₀, hoff, hp₀, hc⟩
  · obtain ⟨q, hq⟩ := hmv.mem hm
    exact old q hq
  by_cases hp : Place.pending ep x = p₀
  · subst hp
    rcases Multiset.mem_cons.mp (Multiset.mem_of_le hp₀ hm) with heq | hq
    · cases heq
      exact hk.inCall_issued hs (by rw [hc]; exact Nat.succ_ne_self _)
    · exact old _ hq
  · exact old _ (Multiset.mem_of_le (hoff _ hp) hm)

include hok in
theorem held_step (hp : p.held = true) (hm : (c, j) ∈ k'.authority p) : k'.Parked c j := by
  have parked : ∀ q, q ≠ .accepted → (c, j) ∈ k.authority q → k.Parked c j → k'.Parked c j := by
    intro q hqa hq hpk
    have hnone := hk.replies_none (.parked hpk) (hk.not_accepted hqa hq)
    exact hpk.step hk.placement hnone hok.2.1 hok.2.2.1 hs
  rcases State.held_step hk.placement hok.1 hk.affine hs hp hm with ⟨q, hqh, hq⟩ | ⟨d, hd, hm⟩
  · refine parked q ?_ hq (hk.held q hqh c j hq)
    rintro rfl
    cases hqh
  -- the caller of the message that is taken is blocked, so it is parked in the call
  obtain ⟨ep, x, hpend⟩ : ∃ ep x, k.ipc.pendingAt ep x = some d := by
    cases l with
    | run h now =>
      simp only [taken] at hd
      split at hd
      · obtain ⟨x, -, hx⟩ := bind_eq_some_iff.mp hd
        exact ⟨_, x, hx⟩
      · exact ⟨_, _, hd⟩
      · cases hd
    | _ => cases hd
  have hreply : d.replyTo = some c ∧ d.call = j := by
    unfold messageAuthority at hm
    cases hr : d.replyTo with
    | none => simp [hr] at hm
    | some c' =>
      simp only [hr, elim_some, Multiset.mem_singleton, Prod.mk.injEq] at hm
      exact ⟨by rw [hm.1], hm.2.symm⟩
  have hq : (c, j) ∈ k.authority (.pending ep x) := by simpa [authority, hpend] using hm
  have hb : k.sched.isBlocked c = true := by
    have := hok.2.2.2
    simpa [receivesEarly, hd, hreply.1] using this
  refine parked _ (by simp) hq ?_
  obtain ⟨r, hr⟩ := hk.blocked c hb
  cases hk.waits ep x c j hq with
  | waking ht | parking ht => rw [hr] at ht; cases ht
  | parked hpk => exact hpk

include hok in
theorem step : Calls k' where
  placement := hk.placement.schedStep (step_sched hs)
  affine := (flow_step hk.placement hok.1 hs).affine hk.affine
  shaped := shaped_step hk.shaped hs
  own := hk.own.step hs
  home := by
    rcases step_cases hs with ⟨h, now, s, rest, rfl, ht, hexec⟩ | ⟨-, -, rfl⟩
    · refine hk.own.home_exec hk.home ht (fun handle target hs => ?_) hexec
      have hends := hok.2.2.1
      simp only [endsCaller, ht, hs, Bool.not_false, Bool.true_and, Bool.or_eq_false_iff,
        decide_eq_false_iff_not] at hends
      exact Nat.le_of_not_lt hends.2
    · exact hk.home
  unborn := fun _ => unborn_step hk.placement hk.unborn hs
  blocked := fun _ => hk.blocked_step hs
  mail := fun _ _ => hk.mail_step hs
  stashed := fun _ _ _ => hk.stashed_step hok hs
  stashedOnce := fun _ _ _ _ _ => hk.stashedOnce_step hs
  waits := fun _ _ _ _ => hk.waits_step hok hs
  held := fun _ hp _ _ => hk.held_step hok hs hp

end Calls

theorem Boot.calls (b : Boot n) : Calls b.state where
  placement := b.placement
  affine := b.affine
  shaped := fun _ => .nil
  own := b.ownTasks
  home := fun _ => .inl rfl
  unborn := fun _ _ => rfl
  blocked := fun t hb => by
    obtain ⟨task, ht, hstate⟩ := isBlocked_eq_true_iff.mp hb
    simp only [Boot.state] at ht
    split at ht
    · cases ht
      cases hstate
    · obtain ⟨_, -, rfl⟩ := map_eq_some_iff.mp ht
      cases hstate
  mail := fun _ _ hr => by cases hr
  stashed := fun _ _ _ hm => by cases hm
  stashedOnce := fun _ _ _ _ _ hm => by cases hm
  waits := fun _ _ _ _ hm => by simp [b.authority] at hm
  held := fun _ _ _ _ hm => by simp [b.authority] at hm

end SnitchOs.Kernel
