import SnitchOs.Kernel.Meet

/-!
# Who owes whom a wake

A task that has queued up on an endpoint, or has made a call, is owed one wake: by the queue it stands in, then by
whoever took its message or holds the token of its call, last by the wake section itself. Over all places a parked
task is owed one wake at most and any other none, so no wake comes that was not meant for what the task waits for.
-/

namespace SnitchOs.Kernel

open Cap Ipc Notify Sched Function List Option State Prod
open Budget
open Multiset (count_add count_zero coe_add coe_count map_le_map singleton_add coe_singleton)

variable {n : Nat}

/-! ### Parked tasks -/

/-- The task is about to block, or is blocked. -/
def State.parked (k : State n) (t : TaskId) : Bool :=
  match (k.todo t).getLast? with
  | some (.park _) => true
  | some (.resume _) => k.sched.isBlocked t
  | _ => false

variable {r : Resume} {t : TaskId} {ep : EndpointId} {d : Delivered}

section Parked

variable {k k' : State n} {h : Fin n} {now : Nat} {s : Sec n} {new rest : List (Sec n)} {t : TaskId}

theorem State.waiting_of_parked (hp : k.parked t = true) : ∃ r, waiting (k.todo t) = some r := by
  unfold parked at hp
  unfold waiting
  split at hp
  · next r hr => exact ⟨r, by rw [hr]; rfl⟩
  · next r hr => exact ⟨r, by rw [hr]; rfl⟩
  · cases hp

theorem State.not_parked (hw : waiting (k.todo t) = none) : k.parked t = false := by
  by_contra hp
  obtain ⟨r, hr⟩ := waiting_of_parked (by simpa using hp)
  rw [hw] at hr
  cases hr

theorem State.parked_resume (ht : k.todo t = [.resume r]) : k.parked t = k.sched.isBlocked t := by
  simp [parked, ht]

theorem State.parked_of_waiting (hsh : Shaped (k.todo t)) (hw : waiting (k.todo t) = some r)
    (hne : k.todo t ≠ [.resume r]) : k.parked t = true := by
  obtain ⟨s, hs, hsr⟩ := bind_eq_some_iff.mp hw
  cases s with
  | park r' => simp [parked, hs]
  | resume r' =>
    cases hsr
    exact absurd (hsh.eq_resume (mem_of_getLast? hs)) hne
  | _ => cases hsr

theorem Steady.not_parked_resume (hst : Steady k) (ht : k.todo (k.sched.current h) = .resume r :: rest) :
    k.parked (k.sched.current h) = false := by
  have hnil := (ht ▸ hst.shaped _ : Shaped _).rest_nil rfl
  subst hnil
  rw [parked_resume ht, hst.placement.current_not_blocked]

theorem Steady.parked_exec (hst : Steady k) (hr : Ran k k' h now s new rest) (hs : s ≠ .wake t)
    (hp : k.parked t = true) : k'.parked t = true := by
  have hblock := hst.isBlocked_exec hr.head hr.exec t
  have hsh : Shaped (s :: rest) := hr.head ▸ hst.shaped _
  by_cases htm : t = k.sched.current h
  · subst htm
    obtain ⟨r, hw⟩ := waiting_of_parked hp
    have hnres : s ≠ .resume r := by
      rintro rfl
      rw [hst.not_parked_resume hr.head] at hp
      cases hp
    rw [hr.head] at hw
    have hw' : waiting (new ++ rest) = some r :=
      (waiting_emits hsh hr.emits hw).resolve_right fun he => hnres he.1
    by_cases hne : new ++ rest = [.resume r]
    · rw [parked_resume (r := r) (by rw [hr.todo_me, hne]), hblock]
      -- only `park` goes on with a resume
      rcases append_eq_singleton_iff.mp hne with ⟨-, hrest⟩ | ⟨hnew, -⟩
      · exact absurd hrest (hsh.rest_ne_resume r)
      rw [hr.emits.eq_park (r := r) (by simp [hnew])]
      simp [Steady.blockedAfter]
    · rw [← hr.todo_me] at hw' hne
      exact parked_of_waiting (hr.todo_me ▸ hsh.emits hr.emits) hw' hne
  · have hsame : k'.sched.isBlocked t = k.sched.isBlocked t := by
      rw [hblock]
      unfold Steady.blockedAfter
      split
      · rw [if_neg]
        rintro rfl
        exact hs rfl
      · rw [if_neg htm]
      · rfl
    unfold parked at *
    rwa [hr.todo_of_ne htm, hsame]

theorem Steady.parked_back (hst : Steady k) (hr : Ran k k' h now s new rest)
    (hm : Meet k k' (k.sched.current h) s new) (hp : k'.parked t = true) (hw : waiting (k'.todo t) = some r) :
    (k.parked t = true ∧ waiting (k.todo t) = some r) ∨
      (t = k.sched.current h ∧ rest = [] ∧ s.waits = none ∧ waiting new = some r) := by
  have hblock := hst.isBlocked_exec hr.head hr.exec t
  by_cases htm : t = k.sched.current h
  · subst htm
    rw [hr.todo_me] at hw
    by_cases hne : rest = []
    · subst hne
      rw [append_nil] at hw
      cases hsw : s.waits with
      | none => exact .inr ⟨rfl, rfl, rfl, hw⟩
      | some r' =>
        left
        cases s with
        | park r₀ =>
          cases hr.emits
          cases hw
          exact ⟨parked_of_waiting (hst.shaped _) (r := r) (by rw [hr.head]; rfl) (by simp [hr.head]),
            by rw [hr.head]; rfl⟩
        | resume r₀ =>
          have hplain : ∀ s' ∈ new, s'.plain := by
            cases hm with
            | quiet _ hnew | received hnew | called hnew => exact hnew
            | queueSend hs | deliver hs | take hs | queueRecv hs | reply hs => cases hs.2.1
          obtain ⟨x, hx, hxr⟩ := bind_eq_some_iff.mp hw
          rw [(hplain x (mem_of_getLast? hx)).2.1] at hxr
          cases hxr
        | _ => cases hsw
    · rw [waiting_append hne, ← waiting_cons (s := s) hne, ← hr.head] at hw
      refine .inl ⟨parked_of_waiting (hst.shaped _) hw ?_, hw⟩
      rw [hr.head]
      intro heq
      exact hne (List.cons.inj heq).2
  · left
    rw [hr.todo_of_ne htm] at hw
    refine ⟨?_, hw⟩
    by_cases hres : k.todo t = [.resume r]
    · rw [parked_resume hres]
      rw [parked_resume (r := r) (by rw [hr.todo_of_ne htm, hres]), hblock] at hp
      unfold Steady.blockedAfter at hp
      split at hp
      · split at hp
        · cases hp
        · exact hp
      · rwa [if_neg htm] at hp
      · exact hp
    · exact parked_of_waiting (hst.shaped t) hw hres

end Parked

/-! ### Duties -/

def Sec.wakes : Sec n → Multiset TaskId
  | .sched (.wake id) => {id}
  | _ => 0

def wakesIn (l : List (Sec n)) : Multiset TaskId := (l.map Sec.wakes).sum

@[simp] theorem wakesIn_nil : wakesIn ([] : List (Sec n)) = 0 := rfl

@[simp] theorem wakesIn_cons (s : Sec n) (l : List (Sec n)) : wakesIn (s :: l) = s.wakes + wakesIn l := by
  simp [wakesIn]

@[simp] theorem wakesIn_append (l l' : List (Sec n)) : wakesIn (l ++ l') = wakesIn l + wakesIn l' := by
  simp [wakesIn]

theorem Sec.wakes_of_plain {s : Sec n} (hs : s.plain) : s.wakes = 0 := by
  cases s with
  | sched s =>
    cases s with
    | wake id => exact absurd rfl (hs.2.2 id)
    | _ => rfl
  | _ => rfl

variable {l tail : List (Sec n)} {k' : State n} {peer : TaskId} {queue : List TaskId}

theorem wakesIn_of_plain (hl : ∀ s ∈ l, s.plain) : wakesIn l = 0 := by
  refine sum_eq_zero fun x hx => ?_
  obtain ⟨s, hs, rfl⟩ := mem_map.mp hx
  exact Sec.wakes_of_plain (hl s hs)

theorem mem_wakesIn_of_mem (hm : .wake t ∈ l) : t ∈ wakesIn l := by
  obtain ⟨l₁, l₂, rfl⟩ := append_of_mem hm
  simp [Sec.wakes]

/-- The places a duty to wake a task can be in. -/
inductive Duty
  | token (p : Place)
  | wakes (t : TaskId)
  | senders (ep : EndpointId)
  | receivers (ep : EndpointId)
deriving DecidableEq

namespace State

variable (k : State n)

/-- Tokens that stand for no duty of their own: spent ones, and those of callers still in a queue,
which the queue accounts for. -/
def hidden : Place → Bool
  | .accepted => true
  | .pending ep t => decide (t ∈ k.senders ep)
  | _ => false

def duties : Duty → Multiset TaskId
  | .token p => (if k.hidden p then 0 else k.authority p).map fst
  | .wakes t => wakesIn (k.todo t)
  | .senders ep => ↑(k.senders ep)
  | .receivers ep => ↑(k.receivers ep)

/-- How many wakes a task may be owed. -/
def due (t : TaskId) : ℕ := if k.parked t then 1 else 0

variable {k}

theorem due_le_one (t : TaskId) : k.due t ≤ 1 := by
  unfold due
  split <;> simp

theorem due_of_parked (hp : k.parked t = true) : k.due t = 1 := if_pos hp

theorem due_of_not_parked (hp : k.parked t = false) : k.due t = 0 := by
  rw [due, hp]
  rfl

theorem due_mono (h : k.parked t = true → k'.parked t = true) : k.due t ≤ k'.due t := by
  cases hp : k.parked t with
  | true => rw [due_of_parked (h hp)]; exact due_le_one t
  | false => rw [due_of_not_parked hp]; exact Nat.zero_le _

end State

section Within

variable {k k' : State n} {h : Fin n} {now : Nat} {s : Sec n} {new rest : List (Sec n)}

theorem duties_moves (hw : Within k.due k.duties) (hm : Moves k.authority k'.authority)
    (hacc : k'.procs.accepted = k.procs.accepted) (hsend : k'.senders = k.senders)
    (hrecv : k'.receivers = k.receivers) (hpend : ∀ ep t, t ∈ k.senders ep → k'.pending ep t = k.pending ep t)
    (hother : ∀ t, t ≠ me → k'.todo t = k.todo t)
    (hme : ∀ t, (wakesIn (k'.todo me)).count t + k.due t ≤ (wakesIn (k.todo me)).count t + k'.due t) :
    Within k'.due k'.duties := by
  have hhid : k'.hidden = k.hidden := funext fun p => by cases p <;> simp [State.hidden, hsend]
  have hkeep : ∀ p, k.hidden p = true → k'.authority p = k.authority p := by
    intro p hp
    cases p with
    | accepted => simp [authority, hacc]
    | pending ep t =>
      have : k'.ipc.pendingAt ep t = k.ipc.pendingAt ep t := hpend ep t (by simpa [State.hidden] using hp)
      simp [authority, this]
    | _ => cases hp
  obtain ⟨u, hu, hoff⟩ := hm.mask k.hidden hkeep
  simp only at hu
  have hsum : ∀ j : State n, ∑ q ∈ insert (Duty.wakes me) (u.image Duty.token), j.duties q =
      wakesIn (j.todo me) + (∑ p ∈ u, if j.hidden p then 0 else j.authority p).map fst := by
    intro j
    rw [Finset.sum_insert (by simp), Finset.sum_image (by simp)]
    exact congrArg _ (sum_map fst u _)
  refine hw.step (insert (Duty.wakes me) (u.image Duty.token)) (fun q hq => ?_) fun t => ?_
  · cases q with
    | token p =>
      simp only [duties, hhid]
      exact map_le_map (hoff p (by simpa using hq))
    | wakes t => simp [duties, hother t fun he => hq (by simp [he])]
    | senders ep => simp [duties, hsend]
    | receivers ep => simp [duties, hrecv]
  · have hle := Multiset.count_le_of_le t (map_le_map (f := fst) hu)
    have := hme t
    rw [hsum k', hsum k, hhid, count_add, count_add]
    omega

variable (hr : Ran k k' h now s new rest)
include hr

theorem duties_wakes : k'.duties (.wakes (k.sched.current h)) = wakesIn new + wakesIn rest := by
  simp [duties, hr.todo_me]

theorem duties_wakes_of_ne (hne : t ≠ k.sched.current h) : k'.duties (.wakes t) = k.duties (.wakes t) := by
  simp [duties, hr.todo_of_ne hne]

theorem duties_wakes_head : k.duties (.wakes (k.sched.current h)) = s.wakes + wakesIn rest := by
  simp [duties, hr.head]

theorem duties_handler : k'.duties (.token (.handler (k.sched.current h))) =
      (sections new).map fst + (sections rest).map fst := by
  simp [duties, State.hidden, authority, hr.todo_me]

theorem duties_handler_of_ne (hne : t ≠ k.sched.current h) :
    k'.duties (.token (.handler t)) = k.duties (.token (.handler t)) := by
  simp [duties, State.hidden, authority, hr.todo_of_ne hne]

theorem duties_handler_head : k.duties (.token (.handler (k.sched.current h))) =
      s.authority.map fst + (sections rest).map fst := by
  simp [duties, State.hidden, authority, hr.head]

omit hr

theorem duties_kept (hprocs : k'.procs = k.procs) (hrep : k'.ipc.replies = k.ipc.replies)
    (hp : ∀ t, p ≠ .handler t) (hp' : ∀ ep t, p ≠ .pending ep t) : k'.duties (.token p) = k.duties (.token p) := by
  cases p with
  | handler t => exact absurd rfl (hp t)
  | pending ep t => exact absurd rfl (hp' ep t)
  | _ => simp [duties, State.hidden, authority, hprocs, hrep]

theorem duties_pending (hpend : k'.pending ep t = k.pending ep t) (hsend : t ∈ k'.senders ep ↔ t ∈ k.senders ep) :
    k'.duties (.token (.pending ep t)) = k.duties (.token (.pending ep t)) := by
  have : k'.ipc.pendingAt ep t = k.ipc.pendingAt ep t := hpend
  simp [duties, State.hidden, authority, this, hsend]

theorem duties_off (hr : Ran k k' h now s new rest) (hprocs : k'.procs = k.procs)
    (hrep : k'.ipc.replies = k.ipc.replies) (hwakes : q ≠ .wakes (k.sched.current h))
    (hhandler : q ≠ .token (.handler (k.sched.current h))) (hpend : ∀ ep t, q = .token (.pending ep t) →
      k'.duties (.token (.pending ep t)) ≤ k.duties (.token (.pending ep t)))
    (hsend : ∀ ep, q = .senders ep → k'.senders ep = k.senders ep)
    (hrecv : ∀ ep, q = .receivers ep → k'.receivers ep = k.receivers ep) : k'.duties q ≤ k.duties q := by
  cases q with
  | token p =>
    cases p with
    | handler t => exact (duties_handler_of_ne hr fun he => hhandler (by rw [he])).le
    | pending ep t => exact hpend ep t rfl
    | _ => exact (duties_kept hprocs hrep (by simp) (by simp)).le
  | wakes t => exact (duties_wakes_of_ne hr fun he => hwakes (by rw [he])).le
  | senders ep => simp [duties, hsend ep rfl]
  | receivers ep => simp [duties, hrecv ep rfl]

end Within

theorem Flow.moves (hf : Flow me k k') (hn : k'.ipc.nextCall = k.ipc.nextCall) : Moves k.authority k'.authority := by
  rcases hf with ⟨hm, -⟩ | ⟨p, -, -, hc⟩
  · exact hm
  rw [hn] at hc
  exact absurd hc.symm (Nat.succ_ne_self _)

theorem sections_eq_zero (hl : ∀ s ∈ l, s.authority = 0) : sections l = 0 := by
  refine sum_eq_zero fun x hx => ?_
  obtain ⟨s, hs, rfl⟩ := mem_map.mp hx
  exact hl s hs

/-! ### Every section keeps the account -/

/-- A queued sender has its message on the endpoint: a one-way message, or its own call. -/
def State.QueuedSenders (k : State n) : Prop :=
  ∀ ep t, t ∈ k.senders ep → ∃ d, k.pending ep t = some d ∧
    (d.replyTo = none ∧ waiting (k.todo t) = some (.sent ep) ∨
      d.replyTo = some t ∧ waiting (k.todo t) = some (.called d.call))

section Account

variable {k k' : State n} {h : Fin n} {now : Nat} {s : Sec n} {new rest : List (Sec n)}

theorem Steady.due_begin (hst : Steady k) (ht : k.todo (k.sched.current h) = s :: rest) (hs : s.plain)
    (hpark : s.mayPark = true) : rest = [] ∧ waiting (k.todo (k.sched.current h)) = none ∧ k.due (k.sched.current h) = 0 := by
  have hnil := (ht ▸ hst.shaped _ : Shaped _).rest_nil hpark
  have hw : waiting (k.todo (k.sched.current h)) = none := by
    rw [ht, hnil, waiting_singleton, hs.2.1]
  exact ⟨hnil, hw, due_of_not_parked (not_parked hw)⟩

theorem State.due_waiting (hsh : Shaped (k.todo t)) (hw : waiting (k.todo t) = some r)
    (hne : k.todo t ≠ [.resume r]) : k.due t = 1 :=
  due_of_parked (parked_of_waiting hsh hw hne)

theorem count_fst_message (d : Delivered) (t : TaskId) :
    ((messageAuthority d).map fst).count t = if d.replyTo = some t then 1 else 0 := by
  unfold messageAuthority
  cases d.replyTo with
  | none => simp
  | some c =>
    by_cases hc : c = t
    · simp [hc]
    · simp [hc, Ne.symm hc]

theorem Steady.duties_still (hst : Steady k) (hw : Within k.due k.duties)
    (hr : Ran k k' h now s new rest) (hf : Flow (k.sched.current h) k k') (hnew : wakesIn new = 0)
    (hcall : NoCall k k') (hsend : k'.senders = k.senders) (hrecv : k'.receivers = k.receivers)
    (hpend : ∀ ep t, t ∈ k.senders ep → k'.pending ep t = k.pending ep t) : Within k'.due k'.duties := by
  refine duties_moves hw (hf.moves hcall.nextCall) hcall.accepted hsend hrecv hpend (fun t hne => hr.todo_of_ne hne) fun t => ?_
  rw [hr.todo_me, wakesIn_append, hnew, hr.head, wakesIn_cons, count_add, count_add, count_zero]
  by_cases hs : s = .wake t
  · subst hs
    have := k.due_le_one t
    simp only [Sec.wakes, Multiset.count_singleton_self]
    omega
  · have := due_mono (hst.parked_exec hr hs)
    omega

theorem duties_off_plain (hr : Ran k k' h now s new rest) (hprocs : k'.procs = k.procs)
    (hrep : k'.ipc.replies = k.ipc.replies) (hwakes : wakesIn new = 0) (hsec : sections new = 0)
    (hpend : ∀ ep t, q = .token (.pending ep t) → k'.duties (.token (.pending ep t)) ≤ k.duties (.token (.pending ep t)))
    (hsend : ∀ ep, q = .senders ep → k'.senders ep = k.senders ep)
    (hrecv : ∀ ep, q = .receivers ep → k'.receivers ep = k.receivers ep) : k'.duties q ≤ k.duties q := by
  by_cases hw : q = .wakes (k.sched.current h)
  · rw [hw, duties_wakes hr, duties_wakes_head hr, hwakes, zero_add]
    exact Multiset.le_add_left _ _
  by_cases hh : q = .token (.handler (k.sched.current h))
  · rw [hh, duties_handler hr, duties_handler_head hr, hsec, Multiset.map_zero, zero_add]
    exact Multiset.le_add_left _ _
  exact duties_off hr hprocs hrep hw hh hpend hsend hrecv

variable (hst : Steady k)
include hst

theorem Steady.due_mono_plain (hr : Ran k k' h now s new rest) (hs : s.plain) (t : TaskId) : k.due t ≤ k'.due t :=
  due_mono (hst.parked_exec hr (hs.2.2 t))

theorem Steady.due_park (hr : Ran k k' h now s new rest) (hnil : rest = [])
    (hw : waiting new = some r) (hne : new ≠ [.resume r]) : k'.due (k.sched.current h) = 1 := by
  subst hnil
  have htodo := hr.todo_me
  rw [append_nil] at htodo
  refine due_waiting (r := r) ?_ (by rw [htodo, hw]) (by rwa [htodo])
  rw [hr.todo_me]
  exact (hr.head ▸ hst.shaped _ : Shaped _).emits hr.emits

variable (hw : Within k.due k.duties) (hs : s.plain) (hpark : s.mayPark = true)
  (hrep : k'.ipc.replies = k.ipc.replies) (hprocs : k'.procs = k.procs)
include hw hs hpark hrep hprocs

theorem Steady.duties_queueSend (hr : Ran k k' h now s [.park r] rest)
    (hsend : k'.senders = update k.senders ep (k.senders ep ++ [k.sched.current h])) (hrecv : k'.receivers = k.receivers)
    (hpend : k'.pending = update k.pending ep (update (k.pending ep) (k.sched.current h) (some d))) :
    Within k'.due k'.duties := by
  obtain ⟨hnil, -, hme⟩ := hst.due_begin hr.head hs hpark
  refine hw.issue (.senders ep) (x := k.sched.current h) (fun q hq => ?_) ?_ ?_ (hst.due_mono_plain hr hs)
  · refine duties_off_plain hr hprocs hrep rfl rfl (fun ep' t _ => ?_) (fun ep' hqe => ?_) (fun ep' _ => by rw [hrecv])
    · by_cases hhit : ep' = ep ∧ t = k.sched.current h
      · -- the queue accounts for the message of a queued sender
        simp [duties, State.hidden, hsend, hhit]
      · refine (duties_pending (by rw [pending_apply hpend, if_neg hhit]) ?_).le
        rw [hsend, update_apply]
        split <;> simp_all
    · have hep : ep' ≠ ep := fun e => hq (by rw [hqe, e])
      rw [hsend, update_of_ne hep]
  · simp only [duties, hsend, update_self, ← coe_add, coe_singleton]
    rw [add_comm, singleton_add]
  · rw [hme, hst.due_park hr hnil rfl (by simp)]

theorem Steady.duties_queueRecv (hr : Ran k k' h now s [.park (.received ep)] rest) (hsend : k'.senders = k.senders)
    (hrecv : k'.receivers = update k.receivers ep (k.receivers ep ++ [k.sched.current h]))
    (hpend : k'.pending = k.pending) : Within k'.due k'.duties := by
  obtain ⟨hnil, -, hme⟩ := hst.due_begin hr.head hs hpark
  refine hw.issue (.receivers ep) (x := k.sched.current h) (fun q hq => ?_) ?_ ?_ (hst.due_mono_plain hr hs)
  · refine duties_off_plain hr hprocs hrep rfl rfl (fun ep' t _ => ?_) (fun ep' _ => by rw [hsend]) (fun ep' hqe => ?_)
    · exact (duties_pending (by rw [hpend]) (by rw [hsend])).le
    have hep : ep' ≠ ep := fun e => hq (by rw [hqe, e])
    rw [hrecv, update_of_ne hep]
  · simp only [duties, hrecv, update_self, ← coe_add, coe_singleton]
    rw [add_comm, singleton_add]
  · rw [hme, hst.due_park hr hnil rfl (by simp)]

theorem Steady.duties_deliver (hr : Ran k k' h now s (.wake peer :: tail) rest)
    (hd : d.replyTo = none ∧ tail = [] ∨ d.replyTo = some (k.sched.current h) ∧ tail = [.park (.called d.call)])
    (hpeer : k.receivers ep = peer :: queue) (hsend : k'.senders = k.senders) (hrecv : k'.receivers = update k.receivers ep queue)
    (hpend : k'.pending = update k.pending ep (update (k.pending ep) peer (some d))) : Within k'.due k'.duties := by
  obtain ⟨hnil, -, hme⟩ := hst.due_begin hr.head hs hpark
  have htail : wakesIn tail = 0 ∧ Kernel.sections tail = 0 := by
    rcases hd with ⟨-, rfl⟩ | ⟨-, rfl⟩ <;> exact ⟨rfl, rfl⟩
  -- a call's message is a duty to the caller, which is due from now on
  have hdue : ∀ t, (if d.replyTo = some t then 1 else 0) + k.due t ≤ k'.due t := by
    intro t
    have hmono := hst.due_mono_plain hr hs t
    rcases hd with ⟨hone, -⟩ | ⟨hcall, htl⟩
    · simpa [hone] using hmono
    by_cases htm : t = k.sched.current h
    · subst htm
      rw [hme, hst.due_park (r := .called d.call) hr hnil (by rw [htl]; rfl) (by simp), if_pos hcall]
    · rw [if_neg (by rw [hcall]; simpa using Ne.symm htm), zero_add]
      exact hmono
  have hmsg : k'.duties (.token (.pending ep peer)) = (messageAuthority d).map fst := by
    have hpd : k'.ipc.pendingAt ep peer = some d := by
      change k'.pending ep peer = some d
      simp [hpend]
    have hns : k'.senders ep = [] := by
      rw [hsend]
      exact k.senders_eq_nil (t := peer) (by simp [hpeer])
    simp [duties, State.hidden, authority, hpd, hns]
  refine hw.three (l := .receivers ep) (m := .wakes (k.sched.current h)) (n := .token (.pending ep peer))
    (by simp) (by simp) (by simp) (fun q hq hqw hqp => ?_) fun t => ?_
  · by_cases hh : q = .token (.handler (k.sched.current h))
    · rw [hh, duties_handler hr, duties_handler_head hr, sections_cons, htail.2]
      simp [Sec.authority]
    refine duties_off hr hprocs hrep hqw hh (fun ep' t hqe => ?_) (fun ep' _ => by rw [hsend]) (fun ep' hqe => ?_)
    · have hne : ¬ (ep' = ep ∧ t = peer) := fun e => hqp (by rw [hqe, e.1, e.2])
      exact (duties_pending (by rw [pending_apply hpend, if_neg hne]) (by rw [hsend])).le
    · have hep : ep' ≠ ep := fun e => hq (by rw [hqe, e])
      rw [hrecv, update_of_ne hep]
  · have := hdue t
    rw [hmsg, count_fst_message, duties_wakes hr, duties_wakes_head hr, wakesIn_cons, htail.1, Sec.wakes_of_plain hs]
    simp only [duties, hrecv, hpeer, update_self, Sec.wakes, coe_count,
      count_add, count_zero, Multiset.count_singleton, count_cons, beq_iff_eq,
      eq_comm (a := peer)]
    omega

omit hst hw hs hpark hrep hprocs

/-- Whoever takes a queued message owes its sender a wake now, or holds the token of its call. -/
theorem State.QueuedSenders.count_taken (hq : k.QueuedSenders) (hmem : peer ∈ k.senders ep)
    (hd : d = (k.pending ep peer).getD {}) (t : TaskId) :
    (wakesIn (n := n) (if d.replyTo.isNone then [.wake peer] else [])).count t +
      ((messageAuthority d).map fst).count t = ({peer} : Multiset TaskId).count t := by
  obtain ⟨d', hd', hcase⟩ := hq ep peer hmem
  rw [hd', getD_some] at hd
  subst hd
  rw [count_fst_message]
  rcases hcase with ⟨hone, -⟩ | ⟨hcall, -⟩
  · simp [hone, Sec.wakes]
  · simp [hcall, Multiset.count_singleton, eq_comm]

include hst hw hs hrep hprocs in
theorem Steady.duties_take (hq : k.QueuedSenders)
    (hr : Ran k k' h now s ((if d.replyTo.isNone then [Sec.wake peer] else []) ++ [Sec.caps (.replyHandleFor d)]) rest)
    (hd : d = (k.pending ep peer).getD {}) (hpeer : k.senders ep = peer :: queue)
    (hsend : k'.senders = update k.senders ep queue) (hrecv : k'.receivers = k.receivers)
    (hpend : k'.pending = update k.pending ep (update (k.pending ep) peer none)) : Within k'.due k'.duties := by
  refine hw.three (l := .senders ep) (m := .wakes (k.sched.current h))
    (n := .token (.handler (k.sched.current h))) (by simp) (by simp) (by simp)
    (fun q hqs hqw hqh => ?_) fun t => ?_
  · refine duties_off hr hprocs hrep hqw hqh (fun ep' t hqe => ?_) (fun ep' hqe => ?_) (fun ep' _ => by rw [hrecv])
    · by_cases hhit : ep' = ep ∧ t = peer
      · have hnone : k'.ipc.pendingAt ep' t = none := (pending_apply hpend ep' t).trans (if_pos hhit)
        simp [duties, authority, hnone]
      · refine (duties_pending (by rw [pending_apply hpend, if_neg hhit]) ?_).le
        rw [hsend, update_apply]
        split <;> simp_all
    · have hep : ep' ≠ ep := fun e => hqs (by rw [hqe, e])
      rw [hsend, update_of_ne hep]
  · have hdue := hst.due_mono_plain hr hs t
    have htaken := hq.count_taken (by simp [hpeer]) hd t
    have hsec : Kernel.sections ((if d.replyTo.isNone then [Sec.wake peer] else []) ++
        [Sec.caps (.replyHandleFor d)] : List (Sec n)) = messageAuthority d := by
      cases d.replyTo.isNone <;> simp [Sec.authority]
    rw [duties_wakes hr, duties_wakes_head hr, duties_handler hr, duties_handler_head hr, wakesIn_append, hsec]
    simp only [duties, hsend, hpeer, update_self, coe_count, count_cons,
      count_add, wakesIn_cons, wakesIn_nil, Sec.wakes, count_zero, Multiset.count_singleton,
      beq_iff_eq, eq_comm (a := peer)] at htaken ⊢
    omega

theorem Steady.duties_reply (hst : Steady k) (hw : Within k.due k.duties) {t t' : CapTable} {r : StashedReply}
    (hr : Ran k k' h now s (.ipc (.stashReply caller r) :: .wake caller :: tail) rest)
    (hs : s.plain) (htab : k.procs.tables (k.sched.current h) = some t)
    (hauth : tableAuthority t = {(caller, r.call)} + (replyAuthority r + tableAuthority t'))
    (htab' : k'.procs.tables = update k.procs.tables (k.sched.current h) (some t'))
    (htail : ∀ s' ∈ tail, s'.plain ∧ s'.authority = 0) (hipc : k'.ipc = k.ipc) : Within k'.due k'.duties := by
  have hwakes : wakesIn (.ipc (.stashReply caller r) :: .wake caller :: tail) = {caller} := by
    rw [wakesIn_cons, wakesIn_cons, wakesIn_of_plain fun s' hs' => (htail s' hs').1]
    rfl
  have hsec : Kernel.sections (.ipc (.stashReply caller r) :: .wake caller :: tail) = replyAuthority r := by
    rw [sections_cons, sections_cons, sections_eq_zero fun s' hs' => (htail s' hs').2]
    simp [Sec.authority]
  have hold : k.duties (.token (.table (k.sched.current h))) = (tableAuthority t).map fst := by
    simp [duties, State.hidden, authority, htab]
  have hnow : k'.duties (.token (.table (k.sched.current h))) = (tableAuthority t').map fst := by
    simp [duties, State.hidden, authority, htab']
  refine hw.three (l := .token (.table (k.sched.current h))) (m := .wakes (k.sched.current h))
    (n := .token (.handler (k.sched.current h))) (by simp) (by simp) (by simp)
    (fun q hqt hqw hqh => ?_) fun t => ?_
  · cases q with
    | token p =>
      cases p with
      | table x =>
        have hx : x ≠ k.sched.current h := fun e => hqt (by rw [e])
        simp [duties, State.hidden, authority, htab', hx]
      | handler x => exact (duties_handler_of_ne hr fun e => hqh (by rw [e])).le
      | pending ep x => exact (duties_pending (by simp [pending, hipc]) (by simp [senders, hipc])).le
      | mailbox x => simp [duties, State.hidden, authority, hipc]
      | accepted => simp [duties, State.hidden]
    | wakes x => exact (duties_wakes_of_ne hr fun e => hqw (by rw [e])).le
    | senders ep => simp [duties, senders, hipc]
    | receivers ep => simp [duties, receivers, hipc]
  · have hdue := hst.due_mono_plain hr hs t
    rw [hold, hnow, duties_wakes hr, duties_wakes_head hr, duties_handler hr, duties_handler_head hr, hauth, hwakes, hsec]
    simp only [Multiset.map_add, count_add, Multiset.map_singleton]
    omega

theorem Steady.duties_exec (hst : Steady k) (hw : Within k.due k.duties) (hq : k.QueuedSenders)
    (hr : Ran k k' h now s new rest) (hf : Flow (k.sched.current h) k k')
    (hm : Meet k k' (k.sched.current h) s new) : Within k'.due k'.duties := by
  cases hm with
  | quiet _ hnew hstill =>
    exact hst.duties_still hw hr hf (wakesIn_of_plain hnew) hstill.toNoCall hstill.senders hstill.receivers
      fun ep t _ => by rw [hstill.pending]
  | wake hstill | park hstill =>
    exact hst.duties_still hw hr hf rfl hstill.toNoCall hstill.senders hstill.receivers fun ep t _ => by rw [hstill.pending]
  | queueSend hs hpark _ _ hsend hrecv hpend hrep hprocs =>
    exact hst.duties_queueSend hw hs hpark hrep hprocs hr hsend hrecv hpend
  | deliver hs hpark hd hpeer hsend hrecv hpend hrep hprocs =>
    exact hst.duties_deliver hw hs hpark hrep hprocs hr hd hpeer hsend hrecv hpend
  | take hs _ hd hpeer hsend hrecv hpend hrep hprocs =>
    exact hst.duties_take hw hs hrep hprocs hq hr hd hpeer hsend hrecv hpend
  | queueRecv hs hpark _ hsend hrecv hpend hrep hprocs =>
    exact hst.duties_queueRecv hw hs hpark hrep hprocs hr hsend hrecv hpend
  | reply hs htab hauth htab' htail hipc =>
    exact hst.duties_reply hw hr hs htab hauth htab' htail hipc
  | stash hep hrep hcall =>
    exact hst.duties_still hw hr hf rfl hcall (senders_of_endpoints hep) (receivers_of_endpoints hep)
      fun ep t _ => by rw [pending_of_endpoints hep]
  | @received ep _ hnew hsend hrecv hpend hrep hcall =>
    refine hst.duties_still hw hr hf (wakesIn_of_plain hnew) hcall hsend hrecv fun ep' t ht => ?_
    -- a task that resumes is owed nothing, so it is not the sender whose message this is
    have hne : t ≠ k.sched.current h := by
      rintro rfl
      exact hw.not_mem (due_of_not_parked (hst.not_parked_resume hr.head)) (.senders ep') ht
    rw [pending_apply hpend, if_neg fun e => hne e.2]
  | called hnew hep hrep hcall =>
    exact hst.duties_still hw hr hf (wakesIn_of_plain hnew) hcall (senders_of_endpoints hep)
      (receivers_of_endpoints hep) fun ep t _ => by rw [pending_of_endpoints hep]

end Account

end SnitchOs.Kernel
