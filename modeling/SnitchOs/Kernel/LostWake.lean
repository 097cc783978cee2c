import SnitchOs.Kernel.Duties

/-!
# Wakes are not lost

A handler decides to block under the lock of the endpoint and blocks later, under the scheduler's. A
partner may complete the rendezvous in between, and its wake then finds a task that is not blocked
yet and does nothing. In runs without such a wake, a blocked task whose rendezvous is complete has a
wake on its way.
-/

namespace SnitchOs.Kernel

open Cap Ipc Notify Sched Function List State State
open Budget

variable {n : Nat}

namespace State

/-- The partner has completed what `t` waits for: the message of a sender was taken, a message is
staged for a receiver, a reply is stashed for a caller. -/
def Done (k : State n) (t : TaskId) : Resume → Prop
  | .sent ep => t ∉ k.senders ep
  | .received ep => k.pending ep t ≠ none
  | .called _ => k.ipc.replies t ≠ none
  | _ => False

/-- A blocked task that nobody is going to wake although its rendezvous is complete. -/
def LostWake (k : State n) (t : TaskId) : Prop :=
  k.sched.isBlocked t = true ∧ (∃ r, .resume r ∈ k.todo t ∧ k.Done t r) ∧ ∀ t', .wake t ∉ k.todo t'

/-- The step wakes a task that has decided to block and has not blocked yet. -/
def wakesBeforePark (k : State n) : Label n → Bool
  | .run h _ =>
    match k.todo (k.sched.current h) with
    | .sched (.wake id) :: _ =>
      match (k.todo id).getLast? with
      | some (.park _) => true
      | _ => false
    | _ => false
  | _ => false

end State

/-! ### The invariant -/

structure Rendezvous (k : State n) : Prop where
  steady : Steady k
  affine : k.Affine
  sections : ∀ t, ∀ s ∈ k.todo t, s.rendezvous = true
  timeouts : ∀ h, (k.timeouts h).entries = []
  within : Within k.due k.duties
  openCalls : k.OpenCalls
  senders : k.QueuedSenders
  receivers : ∀ ep t, t ∈ k.receivers ep → waiting (k.todo t) = some (.received ep)
  messages : ∀ ep t, k.pending ep t ≠ none → t ∈ k.senders ep ∨ waiting (k.todo t) = some (.received ep)
  mailbox : ∀ t, k.ipc.replies t ≠ none → ∃ j, waiting (k.todo t) = some (.called j)
  stashing : ∀ t c r, .ipc (.stashReply c r) ∈ k.todo t → ∃ j, waiting (k.todo c) = some (.called j)
  /-- Whoever is parked in a rendezvous that is complete has a wake on its way. -/
  woken : ∀ t r, k.parked t = true → waiting (k.todo t) = some r → k.Done t r → ∃ t', .wake t ∈ k.todo t'

namespace Rendezvous

variable {k k' : State n} {h : Fin n} {now : Nat} {s : Sec n} {new rest : List (Sec n)}
  {r : Resume}

/-! ### A task that resumes is owed nothing -/

section Resumes

variable (hk : Rendezvous k) (ht : k.todo (k.sched.current h) = .resume r :: rest)

include hk ht

theorem due_resume : k.due (k.sched.current h) = 0 :=
  due_of_not_parked (hk.steady.not_parked_resume ht)

theorem resume_not_sender (ep : EndpointId) : k.sched.current h ∉ k.senders ep :=
  hk.within.not_mem (hk.due_resume ht) (.senders ep)

theorem resume_not_receiver (ep : EndpointId) : k.sched.current h ∉ k.receivers ep :=
  hk.within.not_mem (hk.due_resume ht) (.receivers ep)

theorem resume_no_wake (t : TaskId) : .wake (k.sched.current h) ∉ k.todo t := fun hm =>
  hk.within.not_mem (hk.due_resume ht) (.wakes t) (mem_wakesIn_of_mem hm)

end Resumes

variable (hk : Rendezvous k)
include hk

theorem begin_not_sender (hr : Ran k k' h now s new rest) (hs : s.plain) (hpark : s.mayPark = true)
    (ep : EndpointId) : k.sched.current h ∉ k.senders ep :=
  hk.within.not_mem (hk.steady.due_begin hr.head hs hpark).2.2 (.senders ep)

theorem not_mem_queue (hpeer : k.senders ep = peer :: queue) : peer ∉ queue := by
  intro hm
  have hone := (hk.within.count_le (.senders ep) peer).trans (due_le_one peer)
  have hpos := one_le_count_iff.mpr hm
  simp only [duties, hpeer, Multiset.coe_count, count_cons_self] at hone
  omega

/-! ### Queues and messages -/

variable (hr : Ran k k' h now s new rest) (hm : Meet k k' (k.sched.current h) s new)
include hr

theorem sender_kept (hm : t ∈ k.senders ep) (hpend : k'.pending ep t = k.pending ep t) :
    ∃ d, k'.pending ep t = some d ∧ (d.replyTo = none ∧ waiting (k'.todo t) = some (.sent ep) ∨
      d.replyTo = some t ∧ waiting (k'.todo t) = some (.called d.call)) := by
  obtain ⟨d, hd, hcase⟩ := hk.senders ep t hm
  have hkeep : ∀ {r}, waiting (k.todo t) = some r → waiting (k'.todo t) = some r := fun hw =>
    (hk.steady.waiting_ran hr hw).resolve_right fun ⟨hme, hs⟩ =>
      hk.resume_not_sender (hs ▸ hr.head) ep (hme ▸ hm)
  exact ⟨d, hpend.trans hd, hcase.imp (And.imp_right hkeep) (And.imp_right hkeep)⟩

include hm in
theorem senders_exec : k'.QueuedSenders := by
  intro ep' t ht
  cases hm with
  | quiet _ _ hstill | wake hstill | park hstill =>
    rw [hstill.senders] at ht
    exact hk.sender_kept hr ht (by rw [hstill.pending])
  | @queueSend _ ep d r hs hpark hd _ hsend _ hpend _ _ =>
    have hpd := pending_apply hpend ep' t
    split at hpd
    · next hhit =>
      obtain ⟨rfl, rfl⟩ := hhit
      have hw : waiting (k'.todo (k.sched.current h)) = some r := by
        rw [hr.todo_me, (hk.steady.due_begin hr.head hs hpark).1]
        rfl
      refine ⟨d, hpd, ?_⟩
      rw [hw]
      rcases hd with ⟨hone, rfl⟩ | ⟨hcall, rfl⟩
      · exact .inl ⟨hone, rfl⟩
      · exact .inr ⟨hcall, rfl⟩
    · next hhit =>
      refine hk.sender_kept hr ?_ hpd
      rw [hsend, update_apply] at ht
      split at ht <;> simp_all
  | @deliver _ ep peer _ _ _ _ _ _ hpeer hsend _ hpend _ _ =>
    rw [hsend] at ht
    have hep : ep' ≠ ep := by
      rintro rfl
      rw [k.senders_eq_nil (t := peer) (by simp [hpeer])] at ht
      cases ht
    exact hk.sender_kept hr ht (by rw [hpend, update_of_ne hep])
  | @take _ ep peer queue _ _ _ _ hpeer hsend _ hpend _ _ =>
    have hne : ¬ (ep' = ep ∧ t = peer) := by
      rintro ⟨rfl, rfl⟩
      rw [hsend, update_self] at ht
      exact hk.not_mem_queue hpeer ht
    refine hk.sender_kept hr ?_ (by rw [pending_apply hpend, if_neg hne])
    rw [hsend, update_apply] at ht
    split at ht <;> simp_all
  | queueRecv _ _ _ hsend _ hpend _ _ =>
    rw [hsend] at ht
    exact hk.sender_kept hr ht (by rw [hpend])
  | reply _ _ _ _ _ hipc =>
    rw [State.senders, hipc] at ht
    exact hk.sender_kept hr ht (by simp [pending, hipc])
  | stash hep _ _ | called _ hep _ _ =>
    rw [State.senders, hep] at ht
    exact hk.sender_kept hr ht (by simp [pending, hep])
  | @received ep _ _ hsend _ hpend _ _ =>
    rw [hsend] at ht
    refine hk.sender_kept hr ht ?_
    rw [pending_apply hpend, if_neg]
    rintro ⟨-, rfl⟩
    exact hk.resume_not_sender hr.head ep' ht

include hm in
theorem receivers_exec (ep' : EndpointId) (t : TaskId)
    (ht : t ∈ k'.receivers ep') : waiting (k'.todo t) = some (.received ep') := by
  have hkept : t ∈ k.receivers ep' → waiting (k'.todo t) = some (.received ep') := fun hm =>
    (hk.steady.waiting_ran hr (hk.receivers ep' t hm)).resolve_right fun ⟨hme, hs⟩ =>
      hk.resume_not_receiver (hs ▸ hr.head) ep' (hme ▸ hm)
  cases hm with
  | quiet _ _ hstill | wake hstill | park hstill => exact hkept (hstill.receivers ▸ ht)
  | queueSend _ _ _ _ _ hrecv _ _ _ | take _ _ _ _ _ hrecv _ _ _ | received _ _ hrecv _ _ _ =>
    exact hkept (hrecv ▸ ht)
  | @deliver _ ep _ _ _ _ _ _ _ hpeer _ hrecv _ _ _ =>
    refine hkept ?_
    rw [hrecv, update_apply] at ht
    split at ht <;> simp_all
  | @queueRecv _ ep hs hpark _ _ hrecv _ _ _ =>
    rw [hrecv] at ht
    by_cases hep : ep' = ep
    · subst hep
      rw [update_self, mem_append, mem_singleton] at ht
      rcases ht with ht | rfl
      · exact hkept ht
      rw [hr.todo_me, (hk.steady.due_begin hr.head hs hpark).1]
      rfl
    · rw [update_of_ne hep] at ht
      exact hkept ht
  | reply _ _ _ _ _ hipc =>
    rw [State.receivers, hipc] at ht
    exact hkept ht
  | stash hep _ _ | called _ hep _ _ =>
    rw [State.receivers, hep] at ht
    exact hkept ht

theorem message_kept (hs : t = k.sched.current h → s ≠ .resume (.received ep))
    (hp : k.pending ep t ≠ none) (hsend : t ∈ k.senders ep → t ∈ k'.senders ep) :
    t ∈ k'.senders ep ∨ waiting (k'.todo t) = some (.received ep) :=
  (hk.messages ep t hp).imp hsend fun hw =>
    (hk.steady.waiting_ran hr hw).resolve_right fun ⟨hme, hres⟩ => hs hme hres

include hm in
theorem messages_exec (ep' : EndpointId) (t : TaskId)
    (hp : k'.pending ep' t ≠ none) : t ∈ k'.senders ep' ∨ waiting (k'.todo t) = some (.received ep') := by
  cases hm with
  | quiet hs _ hstill =>
    refine hk.message_kept hr ?_ (hstill.pending ▸ hp) (hstill.senders ▸ id)
    rintro - rfl
    rcases hs with hs | ⟨ep, hs⟩
    · cases hs.2.1
    · cases hs
  | wake hstill | park hstill =>
    exact hk.message_kept hr (by simp) (hstill.pending ▸ hp) (hstill.senders ▸ id)
  | @queueSend _ ep _ _ hs _ _ _ hsend _ hpend _ _ =>
    have hres : t = k.sched.current h → s ≠ .resume (.received ep') := by
      rintro - rfl
      cases hs.2.1
    rw [pending_apply hpend] at hp
    split at hp
    · next hhit => exact .inl (by simp [hsend, hhit])
    refine hk.message_kept hr hres hp fun hm => ?_
    rw [hsend, update_apply]
    split <;> simp_all
  | @deliver _ ep peer _ _ _ hs _ _ hpeer hsend _ hpend _ _ =>
    have hres : ∀ ep, t = k.sched.current h → s ≠ .resume (.received ep) := by
      rintro ep - rfl
      cases hs.2.1
    rw [pending_apply hpend] at hp
    split at hp
    · next hhit =>
      obtain ⟨rfl, rfl⟩ := hhit
      right
      exact (hk.steady.waiting_ran hr (hk.receivers ep' t (by simp [hpeer]))).resolve_right fun hx =>
        hres ep' hx.1 hx.2
    · exact hk.message_kept hr (hres ep') hp (hsend ▸ id)
  | @take _ ep peer queue _ hs _ _ hpeer hsend _ hpend _ _ =>
    have hres : t = k.sched.current h → s ≠ .resume (.received ep') := by
      rintro - rfl
      cases hs.2.1
    rw [pending_apply hpend] at hp
    split at hp
    · exact absurd rfl hp
    refine hk.message_kept hr hres hp fun hm => ?_
    rw [hsend, update_apply]
    split <;> simp_all
  | queueRecv hs _ _ hsend _ hpend _ _ =>
    refine hk.message_kept hr ?_ (hpend ▸ hp) (hsend ▸ id)
    rintro - rfl
    cases hs.2.1
  | reply hs _ _ _ _ hipc =>
    refine hk.message_kept hr ?_ (by simpa [pending, hipc] using hp) (by simp [State.senders, hipc])
    rintro - rfl
    cases hs.2.1
  | stash hep _ _ | called _ hep _ _ =>
    exact hk.message_kept hr (by simp) (by simpa [pending, hep] using hp) (by simp [State.senders, hep])
  | @received ep _ _ hsend _ hpend _ _ =>
    rw [pending_apply hpend] at hp
    split at hp
    · exact absurd rfl hp
    next hhit =>
    refine hk.message_kept hr (fun htm e => hhit ⟨?_, htm⟩) hp (hsend ▸ id)
    cases e
    rfl

/-! ### Calls and replies -/

theorem call_kept (hs : ∀ j, c = k.sched.current h → s ≠ .resume (.called j))
    (hw : ∃ j, waiting (k.todo c) = some (.called j)) : ∃ j, waiting (k'.todo c) = some (.called j) := by
  obtain ⟨j, hj⟩ := hw
  exact ⟨j, (hk.steady.waiting_ran hr hj).resolve_right fun hx => hs j hx.1 hx.2⟩

include hm in
theorem mailbox_exec (t : TaskId) (hrep' : k'.ipc.replies t ≠ none) : ∃ j, waiting (k'.todo t) = some (.called j) := by
  have hplain : s.plain → ∀ j, t = k.sched.current h → s ≠ .resume (.called j) := by
    rintro hs j - rfl
    cases hs.2.1
  cases hm with
  | quiet hs _ hstill =>
    refine hk.call_kept hr ?_ (hk.mailbox t (hstill.replies ▸ hrep'))
    rcases hs with hs | ⟨ep, rfl⟩
    · exact hplain hs
    · simp
  | wake hstill | park hstill => exact hk.call_kept hr (by simp) (hk.mailbox t (hstill.replies ▸ hrep'))
  | queueSend hs _ _ _ _ _ _ hrep _ | deliver hs _ _ _ _ _ _ hrep _ | take hs _ _ _ _ _ _ hrep _
  | queueRecv hs _ _ _ _ _ hrep _ =>
    exact hk.call_kept hr (hplain hs) (hk.mailbox t (hrep ▸ hrep'))
  | reply hs _ _ _ _ hipc => exact hk.call_kept hr (hplain hs) (hk.mailbox t (hipc ▸ hrep'))
  | @stash caller r _ hrep _ =>
    refine hk.call_kept hr (by simp) ?_
    by_cases htc : t = caller
    · subst htc
      exact hk.stashing _ t r (by rw [hr.head]; exact mem_cons_self)
    · rw [hrep, update_of_ne htc] at hrep'
      exact hk.mailbox t hrep'
  | received _ _ _ _ hrep _ => exact hk.call_kept hr (by simp) (hk.mailbox t (hrep ▸ hrep'))
  | called _ _ hrep _ =>
    have htm : t ≠ k.sched.current h := by
      rintro rfl
      simp [hrep] at hrep'
    rw [hrep, update_of_ne htm] at hrep'
    exact hk.call_kept hr (fun j e => absurd e htm) (hk.mailbox t hrep')

omit hr

include hm in
theorem mem_stash_new {r : StashedReply}
    (hst : .ipc (.stashReply c r) ∈ new) : s.plain ∧ ∃ j, waiting (k.todo c) = some (.called j) := by
  have hplain : ∀ l : List (Sec n), (∀ s' ∈ l, s'.plain) → .ipc (.stashReply c r) ∉ l := fun l hl hin => by
    cases (hl _ hin).1
  cases hm with
  | quiet _ hnew _ | received hnew _ _ _ _ _ | called hnew _ _ _ => exact absurd hst (hplain _ hnew)
  | wake _ | stash _ _ _ => cases hst
  | park | queueSend | queueRecv => simp at hst
  | deliver _ _ hd _ _ _ _ _ _ =>
    rcases hd with ⟨-, rfl⟩ | ⟨-, rfl⟩ <;> simp at hst
  | @take _ _ _ _ d =>
    cases hone : d.replyTo.isNone <;> simp [hone] at hst
  | @reply _ t t' caller r' tail hs htab hauth _ htail _ =>
    refine ⟨hs, ?_⟩
    rcases mem_cons.mp hst with heq | hst
    · cases heq
      refine ⟨r.call, hk.openCalls (.table (k.sched.current h)) (by simp) c r.call ?_⟩
      simp [authority, htab, hauth]
    · rcases mem_cons.mp hst with heq | hst
      · cases heq
      · exact absurd hst (hplain _ fun s' hs' => (htail s' hs').1)

include hr hm in
theorem stashing_exec (t c : TaskId) (r : StashedReply) (hst : .ipc (.stashReply c r) ∈ k'.todo t) : ∃ j, waiting (k'.todo c) = some (.called j) := by
  -- a stash is followed by the wake, so the caller is still owed one
  have hold : ∀ t, .ipc (.stashReply c r) ∈ k.todo t → ∃ j, waiting (k'.todo c) = some (.called j) := by
    intro t hin
    refine hk.call_kept hr ?_ (hk.stashing t c r hin)
    rintro j rfl rfl
    obtain ⟨l, hl⟩ := (hk.steady.shaped t).eq_stash hin
    exact hk.resume_no_wake hr.head t (by simp [hl])
  rcases hr.mem_todo hst with hst | hst
  · obtain ⟨hs, hw⟩ := hk.mem_stash_new hm hst
    refine hk.call_kept hr ?_ hw
    rintro j - rfl
    cases hs.2.1
  · exact hold t hst

omit hk

theorem no_token (hq' : k'.QueuedSenders) (hw' : Within k'.due k'.duties) (hdue : k'.due c = 0)
    (hp : p ≠ .accepted) (j : CallNo) : (c, j) ∉ k'.authority p := by
  intro hm
  cases hhid : k'.hidden p with
  | false =>
    refine hw'.not_mem hdue (.token p) ?_
    simp only [duties, hhid, Bool.false_eq_true, if_false]
    exact Multiset.mem_map.mpr ⟨_, hm, rfl⟩
  | true =>
    cases p with
    | accepted => exact hp rfl
    | pending ep t =>
      -- the caller would still stand in the queue
      have ht : t ∈ k'.senders ep := by simpa [State.hidden] using hhid
      obtain ⟨d, hd, hcase⟩ := hq' ep t ht
      have hpd : k'.ipc.pendingAt ep t = some d := hd
      rw [authority, hpd] at hm
      rcases hcase with ⟨hone, -⟩ | ⟨hcall, -⟩
      · simp [messageAuthority, hone] at hm
      simp only [Option.elim_some, messageAuthority, hcall, Multiset.mem_singleton, Prod.mk.injEq] at hm
      rw [← hm.1] at ht
      exact hw'.not_mem hdue (.senders ep) ht
    | _ => cases hhid

theorem due_resumed (hk : Rendezvous k) (hr : Ran k k' h now (.resume r) new rest)
    (hm : Meet k k' (k.sched.current h) (.resume r) new) : k'.due (k.sched.current h) = 0 := by
  apply due_of_not_parked
  by_contra hp
  obtain ⟨r', hw⟩ := waiting_of_parked (by simpa using hp)
  rcases hk.steady.parked_back hr hm (by simpa using hp) hw with ⟨hold, -⟩ | ⟨-, -, hnone, -⟩
  · rw [hk.steady.not_parked_resume hr.head] at hold
    cases hold
  · cases hnone

/-! ### Wakes -/

theorem wake_kept (hk : Rendezvous k) (hr : Ran k k' h now s new rest)
    (hok : ∀ id, s = .wake id → ∀ r, (k.todo id).getLast? ≠ some (.park r))
    (hp : k'.parked t = true) (hin : .wake t ∈ k.todo t') : ∃ t', .wake t ∈ k'.todo t' := by
  by_cases htm : t' = k.sched.current h
  · subst htm
    rw [hr.head] at hin
    rcases mem_cons.mp hin with hs | hin
    · -- the wake that runs finds a blocked task, or one that has nothing to wait for
      exfalso
      subst hs
      have hb := hk.steady.isBlocked_exec hr.head hr.exec t
      rw [Steady.blockedAfter, if_pos rfl] at hb
      have hlast : (k'.todo t).getLast? = (k.todo t).getLast? ∨ k'.todo t = [] := by
        by_cases ht : t = k.sched.current h
        · have hnew : new = [] := by
            cases hr.emits
            rfl
          rw [ht, hr.todo_me, hr.head, hnew]
          cases rest with
          | nil => exact .inr rfl
          | cons x l => exact .inl (by simp)
        · exact .inl (by rw [hr.todo_of_ne ht])
      unfold parked at hp
      split at hp
      · next r' hl =>
        rcases hlast with heq | hnil
        · exact hok t rfl r' (heq ▸ hl)
        · simp [hnil] at hl
      · rw [hb] at hp
        cases hp
      · cases hp
    · exact ⟨k.sched.current h, by rw [hr.todo_me]; exact mem_append_right _ hin⟩
  · exact ⟨t', by rwa [hr.todo_of_ne htm]⟩

/-- A rendezvous does not complete while the sender stays queued, and no message is staged and no
reply stashed. -/
theorem done_back (hdone : k'.Done t r) (hsend : ∀ ep, r = .sent ep → t ∈ k.senders ep → t ∈ k'.senders ep)
    (hpend : ∀ ep, k'.pending ep t ≠ none → k.pending ep t ≠ none)
    (hrep : k'.ipc.replies t ≠ none → k.ipc.replies t ≠ none) : k.Done t r := by
  cases r with
  | sent ep => exact fun hin => hdone (hsend ep rfl hin)
  | received ep => exact hpend ep hdone
  | called j => exact hrep hdone
  | _ => exact hdone

include hk hr hm in
/-- The partner that completes the rendezvous of a waiting task goes on to wake it. -/
theorem done_wakes (hw : waiting (k.todo t) = some r) (hold : ¬ k.Done t r) (hdone : k'.Done t r) : .wake t ∈ k'.todo (k.sched.current h) := by
  have hnew : .wake t ∈ new → .wake t ∈ k'.todo (k.sched.current h) := fun hin => by
    rw [hr.todo_me]
    exact mem_append_left _ hin
  cases hm with
  | quiet _ _ hstill | wake hstill | park hstill =>
    exact absurd (done_back hdone (by simp [hstill.senders]) (by simp [hstill.pending]) (by simp [hstill.replies])) hold
  | @queueSend _ ep _ _ hs hpark _ _ hsend _ hpend hrep _ =>
    -- a task that begins to wait is not the one that waits already
    have hne : t ≠ k.sched.current h := by
      rintro rfl
      rw [(hk.steady.due_begin hr.head hs hpark).2.1] at hw
      cases hw
    refine absurd (done_back hdone (fun ep' _ hin => ?_) (fun ep' => ?_) (by simp [hrep])) hold
    · rw [hsend, update_apply]
      split <;> simp_all
    · rw [pending_apply hpend, if_neg fun e => hne e.2]
      exact id
  | @deliver _ ep peer _ _ _ _ _ _ _ hsend _ hpend hrep _ =>
    by_cases htp : t = peer
    · exact hnew (by simp [htp])
    refine absurd (done_back hdone (by simp [hsend]) (fun ep' => ?_) (by simp [hrep])) hold
    rw [pending_apply hpend, if_neg fun e => htp e.2]
    exact id
  | @take _ ep peer queue d _ _ hd hpeer hsend _ hpend hrep _ =>
    have hpend' : ∀ ep', k'.pending ep' t ≠ none → k.pending ep' t ≠ none := by
      intro ep' hp
      rw [pending_apply hpend] at hp
      split at hp
      · exact absurd rfl hp
      · exact hp
    by_cases htp : t = peer
    · -- a one-way sender is woken by the receiver that takes its message; a caller waits on
      subst htp
      obtain ⟨d', hd', hcase⟩ := hk.senders ep t (by simp [hpeer])
      rw [hd', Option.getD_some] at hd
      subst hd
      rcases hcase with ⟨hone, -⟩ | ⟨-, hcalled⟩
      · exact hnew (by simp [hone])
      rw [hw] at hcalled
      cases hcalled
      exact absurd (done_back hdone (by simp) hpend' (by simp [hrep])) hold
    · refine absurd (done_back hdone (fun ep' _ hin => ?_) hpend' (by simp [hrep])) hold
      rw [hsend, update_apply]
      split <;> simp_all
  | queueRecv _ _ _ hsend _ hpend hrep _ =>
    exact absurd (done_back hdone (by simp [hsend]) (by simp [hpend]) (by simp [hrep])) hold
  | reply _ _ _ _ _ hipc =>
    exact absurd (done_back hdone (by simp [State.senders, hipc]) (by simp [pending, hipc]) (by simp [hipc])) hold
  | @stash caller reply hep hrep _ =>
    by_cases htc : t = caller
    · obtain ⟨l, hl⟩ := (hr.head ▸ hk.steady.shaped _ : Shaped _).wake_follows rfl
      rw [hr.todo_me, hl, htc]
      simp
    · exact absurd (done_back hdone (by simp [State.senders, hep]) (by simp [pending, hep]) (by simp [hrep, htc])) hold
  | @received ep _ _ hsend _ hpend hrep _ =>
    refine absurd (done_back hdone (by simp [hsend]) (fun ep' hp => ?_) (by simp [hrep])) hold
    rw [pending_apply hpend] at hp
    split at hp
    · exact absurd rfl hp
    · exact hp
  | called _ hep hrep _ =>
    refine absurd (done_back hdone (by simp [State.senders, hep]) (by simp [pending, hep]) fun hp => ?_) hold
    by_cases htm : t = k.sched.current h
    · simp [hrep, htm] at hp
    · simpa [hrep, htm] using hp

include hk hr hm in
theorem begin_not_done (hs : s.waits = none) (hw : waiting new = some r) : ¬ k'.Done (k.sched.current h) r := by
  have hplain : ∀ l : List (Sec n), (∀ s' ∈ l, s'.plain) → waiting l = none := by
    intro l hl
    cases hlast : l.getLast? with
    | none => simp [waiting, hlast]
    | some x => simp [waiting, hlast, (hl x (mem_of_getLast? hlast)).2.1]
  have hcaller : s.plain → s.mayPark = true → k.ipc.replies (k.sched.current h) = none := by
    intro hs hpark
    by_contra hrep
    obtain ⟨j, hj⟩ := hk.mailbox _ hrep
    rw [(hk.steady.due_begin hr.head hs hpark).2.1] at hj
    cases hj
  cases hm with
  | quiet _ hnew _ | received hnew _ _ _ _ _ | called hnew _ _ _ =>
    rw [hplain new hnew] at hw
    cases hw
  | wake | stash => cases hw
  | park => cases hs
  | @queueSend _ ep d r' hs hpark hd _ hsend _ _ hrep _ =>
    cases hw
    rcases hd with ⟨-, rfl⟩ | ⟨-, rfl⟩
    · simp [Done, hsend]
    · simpa [Done, hrep] using hcaller hs hpark
  | deliver hs hpark hd _ _ _ _ hrep _ =>
    rcases hd with ⟨-, rfl⟩ | ⟨-, rfl⟩
    · cases hw
    cases hw
    simpa [Done, hrep] using hcaller hs hpark
  | take =>
    rw [waiting_append (by simp)] at hw
    cases hw
  | @queueRecv _ ep hs hpark _ _ _ hpend _ _ =>
    cases hw
    intro hp
    simp only [Done, hpend] at hp
    rcases hk.messages ep _ hp with hin | hwait
    · exact hk.begin_not_sender hr hs hpark ep hin
    rw [(hk.steady.due_begin hr.head hs hpark).2.1] at hwait
    cases hwait
  | @reply _ _ _ caller _ tail _ _ _ _ htail _ =>
    rw [waiting_cons (by simp)] at hw
    cases tail with
    | nil => cases hw
    | cons x l =>
      rw [waiting_cons (by simp), hplain _ fun s' hs' => (htail s' hs').1] at hw
      cases hw

include hk hr hm in
theorem woken_exec (hok : ∀ id, s = .wake id → ∀ r, (k.todo id).getLast? ≠ some (.park r)) (t : TaskId) (r : Resume)
    (hp : k'.parked t = true) (hw : waiting (k'.todo t) = some r) (hdone : k'.Done t r) : ∃ t', .wake t ∈ k'.todo t' := by
  rcases hk.steady.parked_back hr hm hp hw with ⟨hpk, hwk⟩ | ⟨rfl, -, hs, hnew⟩
  · by_cases hold : k.Done t r
    · obtain ⟨t', hin⟩ := hk.woken t r hpk hwk hold
      exact hk.wake_kept hr hok hp hin
    · exact ⟨_, hk.done_wakes hr hm hwk hold hdone⟩
  · exact absurd hdone (hk.begin_not_done hr hm hs hnew)

/-! ### Every step keeps it -/

theorem timeouts_exec (hs : s.rendezvous = true) (hexec : k.exec h now rest s = some k') : k'.timeouts = k.timeouts := by
  rw [(executed hexec).timeouts]
  unfold timeoutsAfter
  split
  · cases hs
  · rfl

theorem entry_rendezvous (htime : ∀ h, (k.timeouts h).entries = []) (hl : l.rendezvous = true) :
    (∀ s ∈ k.entry l, s.rendezvous = true ∧ s.plain) ∧ ∀ h, (k.drained l h).entries = [] := by
  cases l with
  | syscall h sys =>
    refine ⟨?_, htime⟩
    cases sys with
    | replyRecv ep prevReply msg =>
      simp only [State.entry, Syscall.entry]
      split <;> exact forall_mem_singleton.2 ⟨rfl, rfl, rfl, fun _ h => by cases h⟩
    | _ =>
      first
        | exact Bool.noConfusion hl
        | exact forall_mem_nil _
        | exact forall_mem_singleton.2 ⟨rfl, rfl, rfl, fun _ h => by cases h⟩
  | timer h now preempt =>
    constructor
    · simp only [State.entry, TimeoutQueue.drainExpired, htime h, filter_nil, map_nil, nil_append]
      split <;> first | exact forall_mem_nil _ | exact forall_mem_singleton.2 ⟨rfl, rfl, rfl, fun _ h => by cases h⟩
    intro h'
    by_cases hh : h' = h
    · subst hh
      simp [drained, TimeoutQueue.drainExpired, htime h']
    · simpa [drained, hh] using htime h'
  | yield h => exact ⟨forall_mem_singleton.2 ⟨rfl, rfl, rfl, fun _ h => by cases h⟩, htime⟩
  | run h now => exact ⟨forall_mem_nil _, htime⟩
  | fault h | killCheck h => cases hl

theorem enter {l : Label n} (hk : Rendezvous k) (hl : l.rendezvous = true) (hst' : Steady k') (haff' : k'.Affine)
    (hflow : Flow (k.sched.current l.hart) k k') (hnil : k.todo (k.sched.current l.hart) = [])
    (hk' : k' = { k with timeouts := k.drained l }.goOn (k.sched.current l.hart) (k.entry l)) : Rendezvous k' := by
  obtain ⟨hentry, htime'⟩ := entry_rendezvous hk.timeouts hl
  have hme : k'.todo (k.sched.current l.hart) = k.entry l := by
    simp [hk', goOn]
  have hother : ∀ t, t ≠ k.sched.current l.hart → k'.todo t = k.todo t := fun t ht => by
    simp [hk', goOn, ht]
  have hipc : k'.ipc = k.ipc := by rw [hk']; rfl
  have hprocs : k'.procs = k.procs := by rw [hk']; rfl
  have hsched : k'.sched = k.sched := by rw [hk']; rfl
  have hsend : k'.senders = k.senders := by funext ep; simp [State.senders, hipc]
  have hrecv : k'.receivers = k.receivers := by funext ep; simp [State.receivers, hipc]
  have hpend : k'.pending = k.pending := by funext ep t; simp [pending, hipc]
  have hwait : ∀ {t r}, waiting (k.todo t) = some r → waiting (k'.todo t) = some r := by
    intro t r hw
    rw [hother t]
    · exact hw
    rintro rfl
    rw [hnil] at hw
    cases hw
  have hwaitme : waiting (k'.todo (k.sched.current l.hart)) = none := by
    rw [hme]
    cases hlast : (k.entry l).getLast? with
    | none => simp [waiting, hlast]
    | some x => simp [waiting, hlast, (hentry x (mem_of_getLast? hlast)).2.2.1]
  have hparked : ∀ t, k'.parked t = k.parked t := by
    intro t
    by_cases ht : t = k.sched.current l.hart
    · rw [ht, not_parked hwaitme, not_parked (by simp [hnil])]
    · simp [parked, hother t ht, hsched]
  have hmem : ∀ {t x}, x ∈ k'.todo t → (t = k.sched.current l.hart ∧ x ∈ k.entry l) ∨ x ∈ k.todo t := by
    intro t x hx
    by_cases ht : t = k.sched.current l.hart
    · subst ht
      exact .inl ⟨rfl, hme ▸ hx⟩
    · exact .inr (hother t ht ▸ hx)
  refine ⟨hst', haff', fun t x hx => ?_, ?_, ?_, ?_, fun ep t ht => ?_, fun ep t ht => ?_, fun ep t ht => ?_,
    fun t ht => ?_, fun t c r hin => ?_, fun t r hp hw hdone => ?_⟩
  · rcases hmem hx with ⟨-, hin⟩ | hin
    · exact (hentry x hin).1
    · exact hk.sections t x hin
  · rw [hk']
    exact htime'
  · refine duties_moves hk.within (hflow.moves (by rw [hipc])) (by rw [hprocs])
      hsend hrecv (fun ep t _ => by rw [hpend]) hother fun t => ?_
    have hdue : k'.due t = k.due t := by simp [due, hparked]
    rw [hme, wakesIn_of_plain fun x hx => (hentry x hx).2, hnil, hdue]
    simp
  · refine hflow.openCalls haff' hk.openCalls ?_ (.inl (by rw [hipc])) fun c j hw => .inl (hwait hw)
    rw [hprocs]
    exact fun _ => id
  · rw [hsend] at ht
    obtain ⟨d, hd, hcase⟩ := hk.senders ep t ht
    exact ⟨d, by rw [hpend, hd], hcase.imp (And.imp_right hwait) (And.imp_right hwait)⟩
  · rw [hrecv] at ht
    exact hwait (hk.receivers ep t ht)
  · rw [hpend] at ht
    rw [hsend]
    exact (hk.messages ep t ht).imp_right hwait
  · rw [hipc] at ht
    exact (hk.mailbox t ht).imp fun j => hwait
  · rcases hmem hin with ⟨-, hin⟩ | hin
    · cases (hentry _ hin).2.1
    · exact (hk.stashing t c r hin).imp fun j => hwait
  have ht : t ≠ k.sched.current l.hart := by
    rintro rfl
    rw [hwaitme] at hw
    cases hw
  have hold : k.Done t r :=
    done_back hdone (by simp [hsend]) (by simp [hpend]) (by simp [hipc])
  obtain ⟨t', hin⟩ := hk.woken t r (hparked t ▸ hp) (hother t ht ▸ hw) hold
  refine ⟨t', ?_⟩
  rw [hother t']
  · exact hin
  rintro rfl
  rw [hnil] at hin
  cases hin

theorem step (hk : Rendezvous k) (hl : l.rendezvous = true) (hok : k.wakesBeforePark l = false)
    (hs : k.step l = some k') : Rendezvous k' := by
  have hst' := hk.steady.step (Label.steady_of_rendezvous hl) hs
  have hflow := flow_step hk.steady.placement (hk.steady.delegatesReply l) hs
  have haff' := hflow.affine hk.affine
  obtain ⟨hacc, hnext⟩ := hk.steady.exchange_step hs
  rcases step_cases hs with ⟨h, now, s, rest, rfl, ht, hexec⟩ | ⟨-, hnil, hk'⟩
  · have hrdv := hk.sections _ s (by rw [ht]; exact mem_cons_self)
    have hm := hk.steady.meet hrdv ht hexec
    have hr := hk.steady.ran ht hexec
    have hearly : ∀ id, s = .wake id → ∀ r, (k.todo id).getLast? ≠ some (.park r) := by
      rintro id rfl r hlast
      simp [wakesBeforePark, ht, hlast] at hok
    have hw' := hk.steady.duties_exec hk.within hk.senders hr hflow hm
    have hq' := hk.senders_exec hr hm
    refine ⟨hst', haff', fun t x hx => ?_, ?_, hw', ?_, hq', hk.receivers_exec hr hm, hk.messages_exec hr hm,
      hk.mailbox_exec hr hm, hk.stashing_exec hr hm, hk.woken_exec hr hm hearly⟩
    · rcases hr.mem_todo hx with hx | hx
      · exact hr.emits.rendezvous hrdv x hx
      · exact hk.sections t x hx
    · rw [timeouts_exec hrdv hexec]
      exact hk.timeouts
    refine hflow.openCalls haff' hk.openCalls hacc hnext fun c j hw => ?_
    refine (hk.steady.waiting_ran hr hw).imp_right ?_
    rintro ⟨rfl, rfl⟩ p hp
    exact no_token hq' hw' (hk.due_resumed hr hm) hp j
  · exact hk.enter hl hst' haff' hflow hnil hk'

end Rendezvous

theorem Boot.rendezvous (b : Boot n) : Rendezvous b.state where
  steady := b.steady
  affine := b.affine
  sections := fun _ _ hs => by cases hs
  timeouts := fun _ => rfl
  within := by
    intro u t
    have : ∀ q, b.state.duties q = 0 := fun q => by
      cases q with
      | token p => simp [duties, b.authority]
      | _ => rfl
    simp [this]
  openCalls := by
    intro p _ c j hm
    simp [Boot.authority] at hm
  senders := fun _ _ hm => by cases hm
  receivers := fun _ _ hm => by cases hm
  messages := fun _ _ hp => absurd rfl hp
  mailbox := fun _ hp => absurd rfl hp
  stashing := fun _ _ _ hin => by cases hin
  woken := fun _ _ hp => by cases hp

/-- In every run of message exchanges in which no task is woken between its decision to block and its
blocking, no wake is ever lost. -/
theorem no_lost_wake {b : Boot n} {k : State n}
    (hrun : Runs.Reaches step (fun k l => l.rendezvous = true ∧ k.wakesBeforePark l = false) b.state k)
    (t : TaskId) : ¬ k.LostWake t := by
  have hk : Rendezvous k :=
    hrun.invariant (I := Rendezvous) b.rendezvous fun _ _ _ hk hok hs => hk.step hok.1 hok.2 hs
  rintro ⟨hb, ⟨r, hin, hdone⟩, hno⟩
  have htodo := (hk.steady.shaped t).eq_resume hin
  obtain ⟨t', hwake⟩ := hk.woken t r (by rwa [parked_resume htodo]) (by rw [htodo]; rfl) hdone
  exact hno t' hwake

/-- The server of `replyBoot` has stashed its reply to process `2`, which is blocked; the wake comes
next. -/
theorem no_lost_wake_stashed :
    ∃ k : State 1, ¬ k.LostWake 2 ∧ k.sched.isBlocked 2 = true ∧ (k.ipc.replies 2).isSome = true ∧
      k.todo 1 = [.wake 2] ∧
      Runs.Reaches step (fun k l => l.rendezvous = true ∧ k.wakesBeforePark l = false)
        replyBoot.state k := by
  obtain ⟨k, hrun, hb, hrep, htodo⟩ : ∃ k, Runs.Reaches step
      (fun k l => l.rendezvous = true ∧ k.wakesBeforePark l = false) replyBoot.state k ∧
      k.sched.isBlocked 2 = true ∧ (k.ipc.replies 2).isSome = true ∧ k.todo 1 = [.wake 2] :=
    Runs.exists_reaches (moveReply.take 21) (by decide)
  exact ⟨k, no_lost_wake hrun 2, hb, hrep, htodo, hrun⟩

/-! ### A wake that comes too early -/

/-- Two harts: process `2`, on hart `0`, may send to endpoint `0`, and process `3`, on hart `1`,
receives from it. -/
def rendezvousBoot : Boot 2 where
  procs := [
    (0, { slots := [⟨0, .persistent, some ⟨.endpoint 0 0, .send⟩, 1, 0⟩] }),
    (1, { slots := [⟨0, .persistent, some ⟨.endpoint 0 0, .recv⟩, 2, 0⟩] })]
  noReply := by simp
  endpoints := 1
  nextCapId := 3

/-- Process `2` queues up with its message; before it blocks, process `3` takes the message and wakes
it. -/
def earlyWake : List (Label 2) :=
  [.yield 0, .run 0 1, .yield 1, .run 1 1,
    .syscall 0 (.send (.new 0 0) (.replicate 4 7) 0), .run 0 2, .run 0 2,
    .syscall 1 (.receive (.new 0 0)), .run 1 3, .run 1 3, .run 1 3, .run 1 3, .run 0 4]

/-- The sender is blocked for good. -/
theorem early_wake_is_lost :
    ∃ k : State 2, Runs.Reaches step (fun _ l => l.rendezvous = true) rendezvousBoot.state k ∧
      k.LostWake 2 := by
  obtain ⟨k, hrun, hb, htodo, hsend, hnext, hno⟩ : ∃ k, Runs.Reaches step (fun _ l => l.rendezvous = true)
      rendezvousBoot.state k ∧ k.sched.isBlocked 2 = true ∧ k.todo 2 = [.resume (.sent 0)] ∧ k.senders 0 = [] ∧
      k.sched.nextTaskId = 4 ∧ ∀ t : TaskId, t < 4 → .wake 2 ∉ k.todo t :=
    Runs.exists_reaches earlyWake (by decide)
  refine ⟨k, hrun, hb, ⟨.sent 0, by simp [htodo], by simp [Done, hsend]⟩, fun t hin => ?_⟩
  by_cases ht : t < 4
  · exact hno t ht hin
  rw [unborn_of_reaches hrun t (by rw [hnext]; exact Nat.le_of_not_lt ht)] at hin
  cases hin

end SnitchOs.Kernel
