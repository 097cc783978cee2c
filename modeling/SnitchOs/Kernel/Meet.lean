import SnitchOs.Kernel.Exchange

/-!
# Rendezvous

What the sections of `Send`, `Receive`, `Call` and `Reply` do to the queues and messages of endpoints
and to the mailbox, one constructor for each kind of meeting.
-/

namespace SnitchOs.Kernel

open Cap Ipc Notify Sched Function State
open Budget

variable {n : Nat}

/-! ### The labels and their sections -/

def Syscall.rendezvous : Syscall n → Bool
  | .send .. | .call .. | .receive _ | .reply .. | .replyRecv .. | .yield => true
  | .endpointCreate | .mintBadged .. => true
  | _ => false

/-- Messages are exchanged through endpoints only. -/
def Label.rendezvous : Label n → Bool
  | .syscall _ sys => sys.rendezvous
  | .fault _ | .killCheck _ => false
  | _ => true

theorem Label.steady_of_rendezvous {l : Label n} (hl : l.rendezvous = true) : l.steady = true := by
  cases l with
  | syscall h sys =>
    cases sys with
    | _ => first | rfl | exact hl
  | _ => first | rfl | exact hl

def Resume.rendezvous : Resume → Bool
  | .sent _ | .received _ | .called _ => true
  | _ => false

def Sec.rendezvous : Sec n → Bool
  | .sched (.wake _) | .sched .yieldNow => true
  | .ipc (.cancelEndpoints _) | .ipc (.cancelReplies _) => false
  | .ipc _ => true
  | .caps (.invokeSend ..) | .caps (.invokeRecv _) | .caps (.replyViaCap ..) => true
  | .caps (.replyHandleFor _) | .caps (.insertMoved _) => true
  | .caps (.mintBadged ..) | .caps (.insertRoot _) => true
  | .park r | .resume r => r.rendezvous
  | _ => false

theorem Emits.rendezvous (he : Emits s new) (hs : s.rendezvous = true) : ∀ s' ∈ new, s'.rendezvous = true := by
  suffices hall : new.all Sec.rendezvous = true from List.all_eq_true.mp hall
  cases he with
  | park r => exact (Bool.and_true _).trans hs
  | _ => first | exact Bool.noConfusion hs | rfl

/-! ### Endpoints, seen from outside -/

variable {ep : EndpointId} {k k' : State n} {e : Endpoint} {me : TaskId}

namespace State

variable (k : State n)

def senders (ep : EndpointId) : List TaskId := (k.ipc.endpoints ep).state.senders

def receivers (ep : EndpointId) : List TaskId := (k.ipc.endpoints ep).state.receivers

def pending (ep : EndpointId) (t : TaskId) : Option Delivered := (k.ipc.endpoints ep).pending t

theorem senders_eq_nil (ht : t ∈ k.receivers ep) : k.senders ep = [] :=
  EndpointState.senders_nil_of_mem_receivers ht

end State

/-- No call starts and no reply is accepted. -/
structure NoCall (k k' : State n) : Prop where
  nextCall : k'.ipc.nextCall = k.ipc.nextCall
  accepted : k'.procs.accepted = k.procs.accepted

/-- Nothing happens to endpoints, mailbox and calls. -/
structure Still (k k' : State n) : Prop extends NoCall k k' where
  senders : k'.senders = k.senders
  receivers : k'.receivers = k.receivers
  pending : k'.pending = k.pending
  replies : k'.ipc.replies = k.ipc.replies

section Endpoints

variable (he : k'.ipc.endpoints = k.ipc.endpoints)

include he

theorem senders_of_endpoints : k'.senders = k.senders := funext fun _ => by simp [senders, he]

theorem receivers_of_endpoints : k'.receivers = k.receivers := funext fun _ => by simp [receivers, he]

theorem pending_of_endpoints : k'.pending = k.pending := funext fun _ => funext fun _ => by simp [pending, he]

theorem Still.of_endpoints (hr : k'.ipc.replies = k.ipc.replies) (hn : k'.ipc.nextCall = k.ipc.nextCall)
    (ha : k'.procs.accepted = k.procs.accepted) : Still k k' :=
  ⟨⟨hn, ha⟩, senders_of_endpoints he, receivers_of_endpoints he, pending_of_endpoints he, hr⟩

end Endpoints

variable (he : k'.ipc.endpoints = update k.ipc.endpoints ep e)
include he

theorem senders_set : k'.senders = update k.senders ep e.state.senders := by
  funext ep'
  by_cases h : ep' = ep <;> simp [senders, he, h]

theorem receivers_set : k'.receivers = update k.receivers ep e.state.receivers := by
  funext ep'
  by_cases h : ep' = ep <;> simp [receivers, he, h]

theorem pending_set : k'.pending = update k.pending ep e.pending := by
  funext ep' t
  by_cases h : ep' = ep <;> simp [pending, he, h]

omit he

theorem pending_apply (hpend : k'.pending = update k.pending ep (update (k.pending ep) x v))
    (ep' : EndpointId) (t : TaskId) : k'.pending ep' t = if ep' = ep ∧ t = x then v else k.pending ep' t := by
  rw [hpend, update_apply]
  by_cases hep : ep' = ep
  · simp [hep, update_apply]
  · simp [hep]

/-! ### Inversion -/

inductive Meet (k k' : State n) (me : TaskId) : Sec n → List (Sec n) → Prop
  | quiet {s : Sec n} {new : List (Sec n)} (hs : s.plain ∨ ∃ ep, s = .resume (.sent ep))
      (hnew : ∀ s' ∈ new, s'.plain) (hstill : Still k k') : Meet k k' me s new
  | wake {id : TaskId} (hstill : Still k k') : Meet k k' me (.wake id) []
  | park {r : Resume} (hstill : Still k k') : Meet k k' me (.park r) [.resume r]
  /-- A sender finds no receiver and queues up with its message. -/
  | queueSend {s : Sec n} {ep : EndpointId} {d : Delivered} {r : Resume} (hs : s.plain)
      (hpark : s.mayPark = true)
      (hd : d.replyTo = none ∧ r = .sent ep ∨ d.replyTo = some me ∧ r = .called d.call)
      (hidle : k.receivers ep = [])
      (hsend : k'.senders = update k.senders ep (k.senders ep ++ [me]))
      (hrecv : k'.receivers = k.receivers)
      (hpend : k'.pending = update k.pending ep (update (k.pending ep) me (some d)))
      (hrep : k'.ipc.replies = k.ipc.replies) (hprocs : k'.procs = k.procs) : Meet k k' me s [.park r]
  /-- A sender hands its message to the first receiver in the queue; a caller goes on to park. -/
  | deliver {s : Sec n} {ep : EndpointId} {peer : TaskId} {queue : List TaskId} {d : Delivered}
      {tail : List (Sec n)} (hs : s.plain) (hpark : s.mayPark = true)
      (hd : d.replyTo = none ∧ tail = [] ∨ d.replyTo = some me ∧ tail = [.park (.called d.call)])
      (hpeer : k.receivers ep = peer :: queue) (hsend : k'.senders = k.senders)
      (hrecv : k'.receivers = update k.receivers ep queue)
      (hpend : k'.pending = update k.pending ep (update (k.pending ep) peer (some d)))
      (hrep : k'.ipc.replies = k.ipc.replies) (hprocs : k'.procs = k.procs) :
      Meet k k' me s (.wake peer :: tail)
  /-- A receiver takes the message of the first sender in the queue. -/
  | take {s : Sec n} {ep : EndpointId} {peer : TaskId} {queue : List TaskId} {d : Delivered}
      (hs : s.plain) (hpark : s.mayPark = true) (hd : d = (k.pending ep peer).getD {})
      (hpeer : k.senders ep = peer :: queue)
      (hsend : k'.senders = update k.senders ep queue) (hrecv : k'.receivers = k.receivers)
      (hpend : k'.pending = update k.pending ep (update (k.pending ep) peer none))
      (hrep : k'.ipc.replies = k.ipc.replies) (hprocs : k'.procs = k.procs) :
      Meet k k' me s ((if d.replyTo.isNone then [.wake peer] else []) ++ [.caps (.replyHandleFor d)])
  /-- A receiver finds no sender and queues up. -/
  | queueRecv {s : Sec n} {ep : EndpointId} (hs : s.plain) (hpark : s.mayPark = true)
      (hidle : k.senders ep = []) (hsend : k'.senders = k.senders)
      (hrecv : k'.receivers = update k.receivers ep (k.receivers ep ++ [me]))
      (hpend : k'.pending = k.pending) (hrep : k'.ipc.replies = k.ipc.replies)
      (hprocs : k'.procs = k.procs) : Meet k k' me s [.park (.received ep)]
  /-- A reply spends a token of the table and goes on to wake the caller. -/
  | reply {s : Sec n} {t t' : CapTable} {caller : TaskId} {r : StashedReply} {tail : List (Sec n)}
      (hs : s.plain) (htab : k.procs.tables me = some t)
      (hauth : tableAuthority t = {(caller, r.call)} + (replyAuthority r + tableAuthority t'))
      (htab' : k'.procs.tables = update k.procs.tables me (some t'))
      (htail : ∀ s' ∈ tail, s'.plain ∧ s'.authority = 0) (hipc : k'.ipc = k.ipc) :
      Meet k k' me s (.ipc (.stashReply caller r) :: .wake caller :: tail)
  | stash {caller : TaskId} {r : StashedReply} (hep : k'.ipc.endpoints = k.ipc.endpoints)
      (hrep : k'.ipc.replies = update k.ipc.replies caller (some r)) (hcall : NoCall k k') :
      Meet k k' me (.ipc (.stashReply caller r)) []
  | received {ep : EndpointId} {new : List (Sec n)} (hnew : ∀ s' ∈ new, s'.plain)
      (hsend : k'.senders = k.senders) (hrecv : k'.receivers = k.receivers)
      (hpend : k'.pending = update k.pending ep (update (k.pending ep) me none))
      (hrep : k'.ipc.replies = k.ipc.replies) (hcall : NoCall k k') :
      Meet k k' me (.resume (.received ep)) new
  | called {call : CallNo} {new : List (Sec n)} (hnew : ∀ s' ∈ new, s'.plain)
      (hep : k'.ipc.endpoints = k.ipc.endpoints)
      (hrep : k'.ipc.replies = update k.ipc.replies me none) (hcall : NoCall k k') :
      Meet k k' me (.resume (.called call)) new

theorem State.meet_ipc (hs : (Sec.ipc s : Sec n).rendezvous = true)
    (hi : k'.ipc = (k.ipc.exec (n := n) me s).1) (hp : k'.procs = k.procs) : Meet k k' me (.ipc s) (k.ipc.exec me s).2 := by
  cases s with
  | sendBegin ep msg parent badge =>
    simp only [IpcState.exec, IpcState.sendBegin] at hi ⊢
    rcases (k.ipc.endpoints ep).begin_cases me { msg, parent, sender := me, replyTo := none, badge } with
      ⟨peer, queue, state, hpeer, hr, hsd, hb⟩ | ⟨state, hidle, hr, hsd, hb⟩
    all_goals
      rw [hb] at hi ⊢
      have hep := congrArg IpcState.endpoints hi
    · refine .deliver ⟨rfl, rfl, by simp⟩ rfl (.inl ⟨rfl, rfl⟩) hpeer ?_ ?_ (pending_set hep) (by rw [hi]; rfl) hp
      · simp [senders_set hep, hsd, senders]
      · simp [receivers_set hep, hr]
    · refine .queueSend ⟨rfl, rfl, by simp⟩ rfl (.inl ⟨rfl, rfl⟩) hidle ?_ ?_ (pending_set hep) (by rw [hi]; rfl) hp
      · simp [senders_set hep, hsd, senders]
      · simp [receivers_set hep, hr, receivers, ← hidle]
  | callBegin ep msg parent badge =>
    simp only [IpcState.exec, IpcState.callBegin] at hi ⊢
    rcases (k.ipc.endpoints ep).begin_cases me
      { msg, parent, sender := me, replyTo := some me, badge, call := k.ipc.nextCall } with
      ⟨peer, queue, state, hpeer, hr, hsd, hb⟩ | ⟨state, hidle, hr, hsd, hb⟩
    all_goals
      rw [hb] at hi ⊢
      have hep := congrArg IpcState.endpoints hi
    · refine .deliver ⟨rfl, rfl, by simp⟩ rfl (.inr ⟨rfl, rfl⟩) hpeer ?_ ?_ (pending_set hep) (by rw [hi]; rfl) hp
      · simp [senders_set hep, hsd, senders]
      · simp [receivers_set hep, hr]
    · refine .queueSend ⟨rfl, rfl, by simp⟩ rfl (.inr ⟨rfl, rfl⟩) hidle ?_ ?_ (pending_set hep) (by rw [hi]; rfl) hp
      · simp [senders_set hep, hsd, senders]
      · simp [receivers_set hep, hr, receivers, ← hidle]
  | receiveBegin ep =>
    simp only [IpcState.exec, IpcState.receiveBegin] at hi ⊢
    rcases (k.ipc.endpoints ep).receiveBegin_cases me with
      ⟨peer, queue, state, hpeer, hsd, hr, hb⟩ | ⟨state, hidle, hsd, hr, hb⟩
    all_goals
      rw [hb] at hi ⊢
      have hep := congrArg IpcState.endpoints hi
    · refine .take ⟨rfl, rfl, by simp⟩ rfl rfl hpeer ?_ ?_ (pending_set hep) (by rw [hi]; rfl) hp
      · simp [senders_set hep, hsd]
      · simp [receivers_set hep, hr, receivers]
    · refine .queueRecv ⟨rfl, rfl, by simp⟩ rfl hidle ?_ ?_ ?_ (by rw [hi]; rfl) hp
      · simp [senders_set hep, hsd, senders, ← hidle]
      · simp [receivers_set hep, hr, receivers]
      rw [pending_set hep]
      exact update_eq_self ep k.pending
  | stashReply caller r => exact .stash (by rw [hi]; rfl) (by rw [hi]; rfl) ⟨by rw [hi]; rfl, by rw [hp]⟩
  | createEndpoint =>
    exact .quiet (.inl ⟨rfl, rfl, by simp⟩) (by simp [IpcState.exec, Sec.plain, Sec.stashesFor, Sec.waits])
      (.of_endpoints (by rw [hi]; rfl) (by rw [hi]; rfl) (by rw [hi]; rfl) (by rw [hp]))
  | cancelEndpoints target | cancelReplies target => cases hs

theorem State.meet_caps (hi : k'.ipc = k.ipc)
    (hp : k'.procs = (k.procs.exec me s).1) : Meet k k' me (.caps s) (k.procs.exec me s).2 := by
  have hplain : (Sec.caps s : Sec n).plain := ⟨rfl, rfl, by simp⟩
  rcases k.procs.exec_cases me s with ⟨hacc, hnew⟩ | ⟨t, t', caller, call, msg, moved, tail, hr⟩
  · exact .quiet (.inl hplain) hnew (.of_endpoints (by rw [hi]) (by rw [hi]) (by rw [hi]) (by rw [hp, hacc]))
  rw [hr.exec] at hp ⊢
  exact .reply hplain hr.table hr.authority (by rw [hp]; rfl) hr.tail hi

theorem Steady.meet (hst : Steady k) (hs : s.rendezvous = true) (ht : k.todo (k.sched.current h) = s :: rest)
    (hexec : k.exec h now rest s = some k') : Meet k k' (k.sched.current h) s (k.emitted h now s) := by
  obtain ⟨-, -, hi, -, hp, -⟩ := executed hexec
  have still : k'.ipc = k.ipc → k'.procs = k.procs → Still k k' := fun hi hp =>
    .of_endpoints (by rw [hi]) (by rw [hi]) (by rw [hi]) (by rw [hp])
  cases s with
  | sched s =>
    cases s with
    | wake id => exact .wake (still hi hp)
    | yieldNow => exact .quiet (.inl ⟨rfl, rfl, by simp⟩) (by simp [emitted]) (still hi hp)
    | _ => cases hs
  | ipc s => exact meet_ipc hs hi hp
  | caps s => exact meet_caps hi hp
  | park r => exact .park (still hi hp)
  | resume r =>
    have he : Emits (.resume r) (k.emitted h now (.resume r)) := hst.emits ht
    generalize k.emitted h now (.resume r) = new at he
    cases r with
    | sent ep =>
      cases he
      exact .quiet (.inr ⟨ep, rfl⟩) (by simp) (still hi hp)
    | received ep =>
      have hplain : ∀ s' ∈ new, s'.plain := by
        cases he
        simp [Sec.plain, Sec.stashesFor, Sec.waits]
      have hep : k'.ipc.endpoints = update k.ipc.endpoints ep
          ((k.ipc.endpoints ep).takeDelivered (k.sched.current h)).2 := by rw [hi]; rfl
      refine .received hplain ?_ ?_ (pending_set hep) (by rw [hi]; rfl) ⟨by rw [hi]; rfl, by rw [hp]; rfl⟩
      · rw [senders_set hep]
        exact update_eq_self ep k.senders
      · rw [receivers_set hep]
        exact update_eq_self ep k.receivers
    | called call =>
      have hplain : ∀ s' ∈ new, s'.plain := by
        cases he <;> simp [Sec.plain, Sec.stashesFor, Sec.waits]
      exact .called hplain (by rw [hi]; rfl) (by rw [hi]; rfl) ⟨by rw [hi]; rfl, by rw [hp]; rfl⟩
    | _ => cases hs
  | _ => cases hs

end SnitchOs.Kernel
