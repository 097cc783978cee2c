import SnitchOs.Cap.Object

/-!
# Endpoints

The pure rendezvous state machine and, over it, one kernel endpoint: the state with the messages of
blocked tasks. A message is filed under the id of the task that is blocked, whether that is a sender
whose message waits to be taken or a receiver it has been delivered to.
-/

namespace SnitchOs.Ipc

open Function

/-- A queue of waiting tasks, front first; never empty. -/
structure WaitQueue where
  ids : List TaskId
  ne : ids ≠ []
deriving DecidableEq

inductive EndpointState
  | idle
  | sendersWaiting (queue : WaitQueue)
  | receiversWaiting (queue : WaitQueue)
deriving DecidableEq

inductive RendezvousAction
  | block
  | rendezvous (peer : TaskId)
deriving DecidableEq

namespace EndpointState

/-- The waiting state around `ids`, collapsing to `idle` when nobody is left. -/
def rebuild (waiting : WaitQueue → EndpointState) (ids : List TaskId) : EndpointState :=
  if h : ids = [] then .idle else waiting ⟨ids, h⟩

end EndpointState

def drainFront (queue : WaitQueue) (waiting : WaitQueue → EndpointState) : EndpointState × TaskId :=
  (.rebuild waiting queue.ids.tail, queue.ids.head queue.ne)

def without (queue : WaitQueue) (me : TaskId) (waiting : WaitQueue → EndpointState) : EndpointState :=
  .rebuild waiting (queue.ids.filter (· ≠ me))

def onSend (state : EndpointState) (me : TaskId) : EndpointState × RendezvousAction :=
  match state with
  | .receiversWaiting queue =>
    let (next, peer) := drainFront queue .receiversWaiting
    (next, .rendezvous peer)
  | .idle => (.sendersWaiting ⟨[me], by simp⟩, .block)
  | .sendersWaiting queue => (.sendersWaiting ⟨queue.ids ++ [me], by simp⟩, .block)

def onReceive (state : EndpointState) (me : TaskId) : EndpointState × RendezvousAction :=
  match state with
  | .sendersWaiting queue =>
    let (next, peer) := drainFront queue .sendersWaiting
    (next, .rendezvous peer)
  | .idle => (.receiversWaiting ⟨[me], by simp⟩, .block)
  | .receiversWaiting queue => (.receiversWaiting ⟨queue.ids ++ [me], by simp⟩, .block)

def onCancel (state : EndpointState) (me : TaskId) : EndpointState :=
  match state with
  | .idle => .idle
  | .sendersWaiting queue => without queue me .sendersWaiting
  | .receiversWaiting queue => without queue me .receiversWaiting

/-! ### The two queues of a state -/

namespace EndpointState

def senders : EndpointState → List TaskId
  | .sendersWaiting queue => queue.ids
  | _ => []

def receivers : EndpointState → List TaskId
  | .receiversWaiting queue => queue.ids
  | _ => []

@[simp] theorem senders_sendersWaiting (q : WaitQueue) : (sendersWaiting q).senders = q.ids := rfl

@[simp] theorem senders_receiversWaiting (q : WaitQueue) : (receiversWaiting q).senders = [] := rfl

@[simp] theorem receivers_sendersWaiting (q : WaitQueue) : (sendersWaiting q).receivers = [] := rfl

@[simp] theorem receivers_receiversWaiting (q : WaitQueue) :
    (receiversWaiting q).receivers = q.ids := rfl

theorem senders_or_receivers (st : EndpointState) : st.senders = [] ∨ st.receivers = [] := by
  cases st with
  | idle | receiversWaiting queue => exact .inl rfl
  | sendersWaiting queue => exact .inr rfl

variable {st : EndpointState}

theorem ext (hs : st.senders = st'.senders) (hr : st.receivers = st'.receivers) : st = st' := by
  cases st with
  | idle =>
    cases st' with
    | idle => rfl
    | sendersWaiting q => exact absurd hs.symm q.ne
    | receiversWaiting q => exact absurd hr.symm q.ne
  | sendersWaiting q =>
    cases st' with
    | sendersWaiting q' =>
      obtain ⟨ids, hne⟩ := q
      cases hs
      rfl
    | idle | receiversWaiting q' => exact absurd hs q.ne
  | receiversWaiting q =>
    cases st' with
    | receiversWaiting q' =>
      obtain ⟨ids, hne⟩ := q
      cases hr
      rfl
    | idle | sendersWaiting q' => exact absurd hr q.ne

theorem senders_nil_of_mem_receivers (ht : t ∈ st.receivers) : st.senders = [] :=
  st.senders_or_receivers.resolve_right fun hr => List.not_mem_nil (hr ▸ ht)

theorem receivers_nil_of_mem_senders (ht : t ∈ st.senders) : st.receivers = [] :=
  st.senders_or_receivers.resolve_left fun hs => List.not_mem_nil (hs ▸ ht)

variable (ids : List TaskId)
include ids

@[simp] theorem senders_rebuild_senders :
    (rebuild .sendersWaiting ids).senders = ids := by
  unfold rebuild
  split
  · next h => exact h.symm
  · rfl

@[simp] theorem receivers_rebuild_senders :
    (rebuild .sendersWaiting ids).receivers = [] := by
  unfold rebuild
  split <;> rfl

@[simp] theorem receivers_rebuild_receivers :
    (rebuild .receiversWaiting ids).receivers = ids := by
  unfold rebuild
  split
  · next h => exact h.symm
  · rfl

@[simp] theorem senders_rebuild_receivers :
    (rebuild .receiversWaiting ids).senders = [] := by
  unfold rebuild
  split <;> rfl

end EndpointState

open EndpointState

variable (st : EndpointState)
include st

theorem onSend_cases (me : TaskId) : (∃ peer rest, st.receivers = peer :: rest ∧ (onSend st me).2 = .rendezvous peer ∧
      (onSend st me).1.receivers = rest ∧ (onSend st me).1.senders = st.senders) ∨
    (st.receivers = [] ∧ (onSend st me).2 = .block ∧ (onSend st me).1.receivers = [] ∧
      (onSend st me).1.senders = st.senders ++ [me]) := by
  cases st with
  | idle | sendersWaiting queue => exact .inr ⟨rfl, rfl, rfl, rfl⟩
  | receiversWaiting queue =>
    left
    obtain ⟨ids, hne⟩ := queue
    cases ids with
    | nil => exact absurd rfl hne
    | cons peer rest =>
      exact ⟨peer, rest, rfl, rfl, by simp [onSend, drainFront], by simp [onSend, drainFront]⟩

theorem onReceive_cases (me : TaskId) : (∃ peer rest, st.senders = peer :: rest ∧ (onReceive st me).2 = .rendezvous peer ∧
      (onReceive st me).1.senders = rest ∧ (onReceive st me).1.receivers = st.receivers) ∨
    (st.senders = [] ∧ (onReceive st me).2 = .block ∧ (onReceive st me).1.senders = [] ∧
      (onReceive st me).1.receivers = st.receivers ++ [me]) := by
  cases st with
  | idle | receiversWaiting queue => exact .inr ⟨rfl, rfl, rfl, rfl⟩
  | sendersWaiting queue =>
    left
    obtain ⟨ids, hne⟩ := queue
    cases ids with
    | nil => exact absurd rfl hne
    | cons peer rest =>
      exact ⟨peer, rest, rfl, rfl, by simp [onReceive, drainFront], by simp [onReceive, drainFront]⟩

theorem senders_onCancel (me : TaskId) : (onCancel st me).senders = st.senders.filter (· ≠ me) := by
  cases st with
  | idle => rfl
  | sendersWaiting queue | receiversWaiting queue => simp [onCancel, without]

theorem receivers_onCancel (me : TaskId) : (onCancel st me).receivers = st.receivers.filter (· ≠ me) := by
  cases st with
  | idle => rfl
  | sendersWaiting queue | receiversWaiting queue => simp [onCancel, without]

omit st

/-! ### One kernel endpoint -/

abbrev Message := Vector UInt64 4

abbrev SpanId := UInt64

/-- A delivered payload and its metadata; `call` is the ghost number of the call it belongs to. -/
structure Delivered where
  msg : Message := .replicate 4 0
  parent : SpanId := 0
  sender : TaskId := 0
  replyTo : Option TaskId := none
  badge : UInt64 := 0
  call : CallNo := 0
deriving DecidableEq

/-- The rendezvous state and the messages of blocked tasks, by the blocked task. -/
structure Endpoint where
  state : EndpointState := .idle
  pending : TaskId → Option Delivered := fun _ => none

inductive SendStep
  | deliver (wake : TaskId)
  | block
deriving DecidableEq

inductive RecvStep
  | deliver (delivered : Delivered) (wake : TaskId)
  | block
deriving DecidableEq

namespace Endpoint

/-- `send_begin` and `call_begin`: `d` is the sender's message with its metadata. -/
def begin (e : Endpoint) (me : TaskId) (d : Delivered) : SendStep × Endpoint :=
  match onSend e.state me with
  | (state, .rendezvous peer) => (.deliver peer, { state, pending := update e.pending peer (some d) })
  | (state, .block) => (.block, { state, pending := update e.pending me (some d) })

def receiveBegin (e : Endpoint) (me : TaskId) : RecvStep × Endpoint :=
  match onReceive e.state me with
  | (state, .rendezvous peer) =>
    (.deliver ((e.pending peer).getD {}) peer, { state, pending := update e.pending peer none })
  | (state, .block) => (.block, { e with state })

def takeDelivered (e : Endpoint) (me : TaskId) : Delivered × Endpoint :=
  ((e.pending me).getD {}, { e with pending := update e.pending me none })

/-- What killing `target` does to an endpoint. -/
def cancelWait (e : Endpoint) (target : TaskId) : Endpoint where
  state := onCancel e.state target
  pending := update e.pending target none

theorem cancelWait_cancelWait (e : Endpoint) (t : TaskId) : (e.cancelWait t).cancelWait t = e.cancelWait t := by
  have hstate : onCancel (onCancel e.state t) t = onCancel e.state t :=
    EndpointState.ext (by simp [senders_onCancel]) (by simp [receivers_onCancel])
  simp [cancelWait, hstate]

theorem begin_cases (e : Endpoint) (me : TaskId) (d : Delivered) :
    (∃ peer rest state, e.state.receivers = peer :: rest ∧ state.receivers = rest ∧ state.senders = e.state.senders ∧
      e.begin me d = (.deliver peer, { state, pending := update e.pending peer (some d) })) ∨
    (∃ state, e.state.receivers = [] ∧ state.receivers = [] ∧ state.senders = e.state.senders ++ [me] ∧
      e.begin me d = (.block, { state, pending := update e.pending me (some d) })) := by
  unfold begin
  rcases h : onSend e.state me with ⟨state, action⟩
  rcases onSend_cases e.state me with ⟨peer, rest, hr, ha, hr', hs'⟩ | ⟨hr, ha, hr', hs'⟩
  · rw [h] at ha hr' hs'
    simp only at ha hr' hs'
    subst ha
    exact .inl ⟨peer, rest, state, hr, hr', hs', rfl⟩
  · rw [h] at ha hr' hs'
    simp only at ha hr' hs'
    subst ha
    exact .inr ⟨state, hr, hr', hs', rfl⟩

theorem receiveBegin_cases (e : Endpoint) (me : TaskId) :
    (∃ peer rest state, e.state.senders = peer :: rest ∧ state.senders = rest ∧
      state.receivers = e.state.receivers ∧ e.receiveBegin me = (.deliver ((e.pending peer).getD {}) peer,
        { state, pending := update e.pending peer none })) ∨
    (∃ state, e.state.senders = [] ∧ state.senders = [] ∧ state.receivers = e.state.receivers ++ [me] ∧
      e.receiveBegin me = (.block, { e with state })) := by
  unfold receiveBegin
  rcases h : onReceive e.state me with ⟨state, action⟩
  rcases onReceive_cases e.state me with ⟨peer, rest, hs, ha, hs', hr'⟩ | ⟨hs, ha, hs', hr'⟩
  · rw [h] at ha hr' hs'
    simp only at ha hr' hs'
    subst ha
    exact .inl ⟨peer, rest, state, hs, hs', hr', rfl⟩
  · rw [h] at ha hr' hs'
    simp only at ha hr' hs'
    subst ha
    exact .inr ⟨state, hs, hs', hr', rfl⟩

end Endpoint

end SnitchOs.Ipc
