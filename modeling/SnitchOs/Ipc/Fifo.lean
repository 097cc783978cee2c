import SnitchOs.Ipc.Endpoint

/-!
# One endpoint under any sequence of steps

The senders, callers and receivers of one endpoint. A task acts as its syscall handler does: after a step that
returned `Block` it is out until a `Deliver` names it (a caller: until its reply), and a woken receiver goes on with
`take_delivered`. Ghost logs record what was begun, who asked, and what went to whom.
-/

namespace SnitchOs.Ipc.Fifo

open Function List Option EndpointState

/-- Where a task stands in its handler. -/
inductive Phase
  | free
  /-- A one-way send returned `Block`. -/
  | sending
  /-- A call returned `Block`. -/
  | calling
  /-- The blocked call's message was taken; its reply has not come. -/
  | awaitingReply
  /-- A receive returned `Block`. -/
  | receiving
  /-- A `Deliver` named the blocked receiver. -/
  | woken
deriving DecidableEq

inductive Label
  | send (me : TaskId) (msg : Message) (parent : SpanId) (badge : UInt64)
  | call (me : TaskId) (msg : Message) (parent : SpanId) (badge : UInt64)
  | receive (me : TaskId)
  | take (me : TaskId)
  | reply (caller : TaskId)

structure State where
  ep : Endpoint := {}
  phase : TaskId → Phase := fun _ => .free
  /-- The messages begun, in order. -/
  begun : List Delivered := []
  /-- The tasks that executed `receive_begin`, in order. -/
  asked : List TaskId := []
  /-- The rendezvous, in order: which message went to which receiver. -/
  paired : List (Delivered × TaskId) := []
  /-- What the receivers were given, in order. -/
  obtained : List (Delivered × TaskId) := []
  /-- Paired messages staged for a receiver that has not taken them yet. -/
  staged : List (Delivered × TaskId) := []
  /-- A receiver ran into `unwrap_or_default`. -/
  defaulted : Bool := false

def delivered (me : TaskId) (msg : Message) (parent : SpanId) (badge : UInt64)
    (replyTo : Option TaskId) : Delivered :=
  { msg, parent, sender := me, replyTo, badge }

def stepBegin (s : State) (me : TaskId) (d : Delivered) (blocked : Phase) : State :=
  match s.ep.begin me d with
  | (.deliver peer, ep) =>
    { s with
      ep
      phase := update s.phase peer .woken
      begun := s.begun ++ [d]
      paired := s.paired ++ [(d, peer)]
      staged := s.staged ++ [(d, peer)] }
  | (.block, ep) => { s with ep, phase := update s.phase me blocked, begun := s.begun ++ [d] }

/-- A taken message frees a one-way sender and leaves a caller waiting for its reply. -/
def Phase.afterTaken : Phase → Phase
  | .calling => .awaitingReply
  | _ => .free

def stepReceive (s : State) (me : TaskId) : State :=
  match s.ep.receiveBegin me with
  | (.deliver d peer, ep) =>
    { s with
      ep
      phase := update s.phase peer (s.phase peer).afterTaken
      asked := s.asked ++ [me]
      paired := s.paired ++ [(d, me)]
      obtained := s.obtained ++ [(d, me)]
      defaulted := s.defaulted || (s.ep.pending peer).isNone }
  | (.block, ep) =>
    { s with ep, phase := update s.phase me .receiving, asked := s.asked ++ [me] }

def stepTake (s : State) (me : TaskId) : State :=
  let (d, ep) := s.ep.takeDelivered me
  { s with
    ep
    phase := update s.phase me .free
    obtained := s.obtained ++ [(d, me)]
    staged := s.staged.erase (d, me)
    defaulted := s.defaulted || (s.ep.pending me).isNone }

/-- One step; a task that is not in the right phase does nothing. -/
def step (s : State) : Label → State
  | .send me msg parent badge =>
    if s.phase me = .free then stepBegin s me (delivered me msg parent badge none) .sending else s
  | .call me msg parent badge =>
    if s.phase me = .free then stepBegin s me (delivered me msg parent badge (some me)) .calling else s
  | .receive me => if s.phase me = .free then stepReceive s me else s
  | .take me => if s.phase me = .woken then stepTake s me else s
  | .reply caller =>
    if s.phase caller = .awaitingReply then { s with phase := update s.phase caller .free }
    else s

def run (ls : List Label) : State := ls.foldl step {}

/-! ### The invariant -/

/-- A sender's phase while its message waits at the endpoint. -/
def Phase.isQueued : Phase → Bool
  | .sending | .calling => true
  | _ => false

/-- Queues, pending map, phases and logs agree. -/
structure Inv (s : State) : Prop where
  sender_iff : ∀ t, t ∈ s.ep.state.senders ↔ (s.phase t).isQueued
  receiver_iff : ∀ t, t ∈ s.ep.state.receivers ↔ s.phase t = .receiving
  senders_nodup : s.ep.state.senders.Nodup
  receivers_nodup : s.ep.state.receivers.Nodup
  /-- What was begun and not paired is filed under the blocked senders, in queue order. -/
  begun_eq : ∃ ms, s.ep.state.senders.map s.ep.pending = ms.map some ∧
    s.begun = s.paired.map Prod.fst ++ ms
  asked_eq : s.asked = s.paired.map Prod.snd ++ s.ep.state.receivers
  /-- A staged message is filed under its woken receiver. -/
  staged_iff : ∀ d t, (d, t) ∈ s.staged ↔ s.phase t = .woken ∧ s.ep.pending t = some d
  woken_some : ∀ t, s.phase t = .woken → (s.ep.pending t).isSome
  /-- Only queued senders and woken receivers have an entry. -/
  pending_of : ∀ t, (s.ep.pending t).isSome → (s.phase t).isQueued ∨ s.phase t = .woken
  staged_nodup : (s.staged.map Prod.snd).Nodup
  paired_perm : s.paired.Perm (s.obtained ++ s.staged)
  defaulted : s.defaulted = false

theorem Inv.init : Inv {} where
  sender_iff t := by simp [senders, Phase.isQueued]
  receiver_iff t := by simp [receivers]
  senders_nodup := nodup_nil
  receivers_nodup := nodup_nil
  begun_eq := ⟨[], rfl, rfl⟩
  asked_eq := rfl
  staged_iff d t := by simp
  woken_some t h := by simp at h
  pending_of t h := by simp at h
  staged_nodup := nodup_nil
  paired_perm := .nil
  defaulted := rfl

/-! ### Steps keep it -/

section Steps

variable (h : Inv s)

include h

theorem Inv.begun_of_senders_nil (hs : s.ep.state.senders = []) : s.begun = s.paired.map Prod.fst := by
  obtain ⟨ms, hms, hb⟩ := h.begun_eq
  rw [hs, map_nil, eq_comm, map_eq_nil_iff] at hms
  rw [hb, hms, append_nil]

theorem Inv.pending_none (hq : (s.phase t).isQueued = false) (hw : s.phase t ≠ .woken) : s.ep.pending t = none := by
  by_contra hp
  rcases h.pending_of t (isSome_iff_ne_none.mpr hp) with hq' | hw'
  · rw [hq] at hq'
    exact Bool.noConfusion hq'
  · exact hw hw'

theorem Inv.not_staged (hw : s.phase t ≠ .woken) (d : Delivered) : (d, t) ∉ s.staged :=
  fun hm => hw ((h.staged_iff d t).mp hm).1

theorem Inv.deliver (hr : s.ep.state.receivers = peer :: rest) (hr' : state.receivers = rest)
    (hs' : state.senders = s.ep.state.senders) : Inv { s with
      ep := { state, pending := update s.ep.pending peer (some d) }
      phase := update s.phase peer .woken
      begun := s.begun ++ [d]
      paired := s.paired ++ [(d, peer)]
      staged := s.staged ++ [(d, peer)] } := by
  have hpeer : s.phase peer = .receiving := (h.receiver_iff peer).mp (by simp [hr])
  have hnil : s.ep.state.senders = [] := senders_nil_of_mem_receivers (t := peer) (by simp [hr])
  have hnodup : peer ∉ rest ∧ rest.Nodup := nodup_cons.mp (hr ▸ h.receivers_nodup)
  have hfresh : ∀ d', (d', peer) ∉ s.staged := h.not_staged (by simp [hpeer])
  refine ⟨fun t => ?_, fun t => ?_, ?_, ?_, ⟨[], ?_, ?_⟩, ?_, fun d' t => ?_, fun t => ?_, fun t => ?_, ?_, ?_, h.defaulted⟩
  · by_cases ht : t = peer
    · subst ht
      simp [hs', hnil, Phase.isQueued]
    · simp only [hs', update_of_ne ht]
      exact h.sender_iff t
  · by_cases ht : t = peer
    · subst ht
      simp [hr', hnodup.1]
    · have := h.receiver_iff t
      simp only [hr, mem_cons, ht, false_or] at this
      simpa only [hr', update_of_ne ht] using this
  · simp [hs', hnil]
  · simpa only [hr'] using hnodup.2
  · simp [hs', hnil]
  · simp [h.begun_of_senders_nil hnil]
  · simp [h.asked_eq, hr, hr']
  · by_cases ht : t = peer
    · subst ht
      simp [hfresh, eq_comm]
    · simp only [mem_append, mem_singleton, Prod.mk.injEq, ht, and_false, or_false, update_of_ne ht]
      exact h.staged_iff d' t
  · by_cases ht : t = peer
    · subst ht
      simp
    · simp only [update_of_ne ht]
      exact h.woken_some t
  · by_cases ht : t = peer
    · subst ht
      simp
    · simp only [update_of_ne ht]
      exact h.pending_of t
  · have hm : peer ∉ s.staged.map Prod.snd := by simpa using hfresh
    simp only [map_append, map_cons, map_nil]
    exact nodup_append.mpr ⟨h.staged_nodup, nodup_singleton peer, fun a ha b hb =>
      mem_singleton.mp hb ▸ ne_of_mem_of_not_mem ha hm⟩
  · simpa only [append_assoc] using h.paired_perm.append_right [(d, peer)]

theorem Inv.park (hme : s.phase me = .free) (hb : blocked.isQueued) (hr : s.ep.state.receivers = [])
    (hr' : state.receivers = []) (hs' : state.senders = s.ep.state.senders ++ [me]) : Inv { s with
      ep := { state, pending := update s.ep.pending me (some d) }
      phase := update s.phase me blocked
      begun := s.begun ++ [d] } := by
  have hnew : me ∉ s.ep.state.senders := by
    rw [h.sender_iff, hme]
    exact Bool.false_ne_true
  have hfresh : ∀ d', (d', me) ∉ s.staged := h.not_staged (by simp [hme])
  have hnw : blocked ≠ .woken := by
    rintro rfl
    exact Bool.noConfusion hb
  have hnr : blocked ≠ .receiving := by
    rintro rfl
    exact Bool.noConfusion hb
  obtain ⟨ms, hms, hbegun⟩ := h.begun_eq
  refine ⟨fun t => ?_, fun t => ?_, ?_, ?_, ⟨ms ++ [d], ?_, ?_⟩, ?_, fun d' t => ?_, fun t => ?_,
    fun t => ?_, h.staged_nodup, h.paired_perm, h.defaulted⟩
  · by_cases ht : t = me
    · subst ht
      simp [hs', hb]
    · simp only [hs', mem_append, mem_singleton, ht, or_false, update_of_ne ht]
      exact h.sender_iff t
  · by_cases ht : t = me
    · subst ht
      simp [hr', hnr]
    · have := h.receiver_iff t
      rw [hr] at this
      simpa only [hr', update_of_ne ht] using this
  · simp only [hs']
    exact nodup_append.mpr ⟨h.senders_nodup, nodup_singleton me, fun a ha b hb =>
      mem_singleton.mp hb ▸ ne_of_mem_of_not_mem ha hnew⟩
  · simp [hr']
  · -- the queue's other entries are not touched, since `me` is new to it
    have hold : s.ep.state.senders.map (update s.ep.pending me (some d)) =
        s.ep.state.senders.map s.ep.pending :=
      map_congr_left fun t ht => update_of_ne (ne_of_mem_of_not_mem ht hnew) _ _
    simp [hs', hold, hms]
  · simp [hbegun]
  · simp [h.asked_eq, hr, hr']
  · by_cases ht : t = me
    · subst ht
      simp [hfresh, hnw]
    · simp only [update_of_ne ht]
      exact h.staged_iff d' t
  · by_cases ht : t = me
    · subst ht
      simp
    · simp only [update_of_ne ht]
      exact h.woken_some t
  · by_cases ht : t = me
    · subst ht
      simp [hb]
    · simp only [update_of_ne ht]
      exact h.pending_of t

theorem Inv.begin (d : Delivered) (hme : s.phase me = .free) (hb : blocked.isQueued) : Inv (stepBegin s me d blocked) := by
  unfold stepBegin
  rcases s.ep.begin_cases me d with ⟨peer, rest, state, hr, hr', hs', he⟩ | ⟨state, hr, hr', hs', he⟩
  · simp only [he]
    exact h.deliver hr hr' hs'
  · simp only [he]
    exact h.park hme hb hr hr' hs'

theorem Inv.taken (hs : s.ep.state.senders = peer :: rest) (hs' : state.senders = rest)
    (hr' : state.receivers = s.ep.state.receivers) : Inv { s with
      ep := { state, pending := update s.ep.pending peer none }
      phase := update s.phase peer (s.phase peer).afterTaken
      asked := s.asked ++ [me]
      paired := s.paired ++ [((s.ep.pending peer).getD {}, me)]
      obtained := s.obtained ++ [((s.ep.pending peer).getD {}, me)]
      defaulted := s.defaulted || (s.ep.pending peer).isNone } := by
  have hnil : s.ep.state.receivers = [] :=
    receivers_nil_of_mem_senders (t := peer) (by simp [hs])
  have hnodup : peer ∉ rest ∧ rest.Nodup := nodup_cons.mp (hs ▸ h.senders_nodup)
  have hqueued : (s.phase peer).isQueued := (h.sender_iff peer).mp (by simp [hs])
  have hafter : (s.phase peer).afterTaken.isQueued = false ∧
      (s.phase peer).afterTaken ≠ .receiving ∧ (s.phase peer).afterTaken ≠ .woken := by
    revert hqueued
    cases s.phase peer <;> simp [Phase.isQueued, Phase.afterTaken]
  have hfresh : ∀ d', (d', peer) ∉ s.staged := h.not_staged fun hw => by simp [hw, Phase.isQueued] at hqueued
  obtain ⟨ms, hms, hbegun⟩ := h.begun_eq
  rw [hs] at hms
  -- the front sender's message is the oldest one not yet paired
  obtain ⟨d, ms, rfl⟩ : ∃ d ms', ms = d :: ms' := by
    cases ms with
    | nil => simp at hms
    | cons d ms => exact ⟨d, ms, rfl⟩
  simp only [map_cons, List.cons.injEq] at hms
  obtain ⟨hd, hms⟩ := hms
  simp only [hd, getD_some, isNone_some, Bool.or_false]
  refine ⟨fun t => ?_, fun t => ?_, ?_, ?_, ⟨ms, ?_, ?_⟩, ?_, fun d' t => ?_, fun t => ?_,
    fun t => ?_, h.staged_nodup, ?_, h.defaulted⟩
  · by_cases ht : t = peer
    · subst ht
      simp [hs', hnodup.1, hafter.1]
    · have := h.sender_iff t
      simp only [hs, mem_cons, ht, false_or] at this
      simpa only [hs', update_of_ne ht] using this
  · by_cases ht : t = peer
    · subst ht
      simp [hr', hnil, hafter.2.1]
    · simp only [hr', update_of_ne ht]
      exact h.receiver_iff t
  · simpa only [hs'] using hnodup.2
  · simpa only [hr'] using h.receivers_nodup
  · rw [← hms]
    simp only [hs']
    exact map_congr_left fun t ht => update_of_ne (ne_of_mem_of_not_mem ht hnodup.1) _ _
  · simp [hbegun]
  · simp [h.asked_eq, hr', hnil]
  · by_cases ht : t = peer
    · subst ht
      simp [hfresh]
    · simp only [update_of_ne ht]
      exact h.staged_iff d' t
  · by_cases ht : t = peer
    · subst ht
      simp [hafter.2.2]
    · simp only [update_of_ne ht]
      exact h.woken_some t
  · by_cases ht : t = peer
    · subst ht
      simp
    · simp only [update_of_ne ht]
      exact h.pending_of t
  · refine (h.paired_perm.append_right [(d, me)]).trans ?_
    simpa only [append_assoc] using perm_append_comm.append_left s.obtained

theorem Inv.wait (hme : s.phase me = .free) (hs : s.ep.state.senders = [])
    (hs' : state.senders = []) (hr' : state.receivers = s.ep.state.receivers ++ [me]) : Inv { s with
      ep := { s.ep with state }
      phase := update s.phase me .receiving
      asked := s.asked ++ [me] } := by
  have hnew : me ∉ s.ep.state.receivers := by simp [h.receiver_iff, hme]
  have hnone : s.ep.pending me = none := h.pending_none (by simp [hme, Phase.isQueued]) (by simp [hme])
  refine ⟨fun t => ?_, fun t => ?_, ?_, ?_, ⟨[], ?_, ?_⟩, ?_, fun d' t => ?_, fun t => ?_,
    fun t => ?_, h.staged_nodup, h.paired_perm, h.defaulted⟩
  · by_cases ht : t = me
    · subst ht
      simp [hs', Phase.isQueued]
    · have := h.sender_iff t
      rw [hs] at this
      simpa only [hs', update_of_ne ht] using this
  · by_cases ht : t = me
    · subst ht
      simp [hr']
    · simp only [hr', mem_append, mem_singleton, ht, or_false, update_of_ne ht]
      exact h.receiver_iff t
  · simp [hs']
  · simp only [hr']
    exact nodup_append.mpr ⟨h.receivers_nodup, nodup_singleton me, fun a ha b hb =>
      mem_singleton.mp hb ▸ ne_of_mem_of_not_mem ha hnew⟩
  · simp [hs']
  · simp [h.begun_of_senders_nil hs]
  · simp [h.asked_eq, hr']
  · by_cases ht : t = me
    · subst ht
      simp [h.not_staged (t := t) (by simp [hme])]
    · simp only [update_of_ne ht]
      exact h.staged_iff d' t
  · by_cases ht : t = me
    · subst ht
      simp
    · simp only [update_of_ne ht]
      exact h.woken_some t
  · by_cases ht : t = me
    · subst ht
      simp [hnone]
    · simp only [update_of_ne ht]
      exact h.pending_of t

theorem Inv.receive (hme : s.phase me = .free) : Inv (stepReceive s me) := by
  unfold stepReceive
  rcases s.ep.receiveBegin_cases me with ⟨peer, rest, state, hs, hs', hr', he⟩ | ⟨state, hs, hs', hr', he⟩
  · simp only [he]
    exact h.taken hs hs' hr'
  · simp only [he]
    exact h.wait hme hs hs' hr'

theorem Inv.take (hme : s.phase me = .woken) : Inv (stepTake s me) := by
  obtain ⟨d, hd⟩ := isSome_iff_exists.mp (h.woken_some me hme)
  have hmem : (d, me) ∈ s.staged := (h.staged_iff d me).mpr ⟨hme, hd⟩
  have hnodup : s.staged.Nodup := h.staged_nodup.of_map _
  have hns : me ∉ s.ep.state.senders := by simp [h.sender_iff, hme, Phase.isQueued]
  simp only [stepTake, Endpoint.takeDelivered, hd, getD_some, isNone_some, Bool.or_false]
  obtain ⟨ms, hms, hbegun⟩ := h.begun_eq
  refine ⟨fun t => ?_, fun t => ?_, h.senders_nodup, h.receivers_nodup, ⟨ms, ?_, hbegun⟩, h.asked_eq,
    fun d' t => ?_, fun t => ?_, fun t => ?_, ?_, ?_, h.defaulted⟩
  · by_cases ht : t = me
    · subst ht
      simp [hns, Phase.isQueued]
    · simp only [update_of_ne ht]
      exact h.sender_iff t
  · by_cases ht : t = me
    · subst ht
      simp [h.receiver_iff, hme]
    · simp only [update_of_ne ht]
      exact h.receiver_iff t
  · rw [← hms]
    exact map_congr_left fun t ht => update_of_ne (ne_of_mem_of_not_mem ht hns) _ _
  · simp only [hnodup.mem_erase_iff, h.staged_iff]
    by_cases ht : t = me
    · subst ht
      simp only [update_self, hd, some.injEq]
      constructor
      · rintro ⟨hne, -, rfl⟩
        exact absurd rfl hne
      · exact fun ⟨hw, _⟩ => Phase.noConfusion hw
    · simp [ht]
  · by_cases ht : t = me
    · subst ht
      simp
    · simp only [update_of_ne ht]
      exact h.woken_some t
  · by_cases ht : t = me
    · subst ht
      simp
    · simp only [update_of_ne ht]
      exact h.pending_of t
  · exact h.staged_nodup.sublist (erase_sublist.map _)
  have herase : s.staged.Perm ((d, me) :: s.staged.erase (d, me)) := perm_cons_erase hmem
  simpa only [append_assoc, singleton_append] using h.paired_perm.trans (herase.append_left s.obtained)

theorem Inv.reply (hc : s.phase caller = .awaitingReply) : Inv { s with phase := update s.phase caller .free } := by
  have hsame : ∀ t, (update s.phase caller .free t).isQueued = (s.phase t).isQueued ∧
      (update s.phase caller .free t = .receiving ↔ s.phase t = .receiving) ∧
      (update s.phase caller .free t = .woken ↔ s.phase t = .woken) := by
    intro t
    by_cases ht : t = caller
    · subst ht
      simp [hc, Phase.isQueued]
    · simp [ht]
  exact {
    sender_iff := fun t => by simpa only [(hsame t).1] using h.sender_iff t
    receiver_iff := fun t => by simpa only [(hsame t).2.1] using h.receiver_iff t
    senders_nodup := h.senders_nodup
    receivers_nodup := h.receivers_nodup
    begun_eq := h.begun_eq
    asked_eq := h.asked_eq
    staged_iff := fun d t => by simpa only [(hsame t).2.2] using h.staged_iff d t
    woken_some := fun t => by simpa only [(hsame t).2.2] using h.woken_some t
    pending_of := fun t => by simpa only [(hsame t).1, (hsame t).2.2] using h.pending_of t
    staged_nodup := h.staged_nodup
    paired_perm := h.paired_perm
    defaulted := h.defaulted }

theorem Inv.step (l : Label) : Inv (step s l) := by
  cases l with
  | send me msg parent badge | call me msg parent badge =>
    simp only [Fifo.step]
    split
    · next hme => exact h.begin _ hme rfl
    · exact h
  | receive me =>
    simp only [Fifo.step]
    split
    · next hme => exact h.receive hme
    · exact h
  | take me =>
    simp only [Fifo.step]
    split
    · next hme => exact h.take hme
    · exact h
  | reply caller =>
    simp only [Fifo.step]
    split
    · next hc => exact h.reply hc
    · exact h

end Steps

theorem Inv.run (ls : List Label) : Inv (run ls) :=
  List.foldlRecOn ls Fifo.step Inv.init fun _ hs l _ => hs.step l

/-! ### Conservation and order -/

/-- Messages and receives meet in order, one to one, and nothing else is ever handed out. -/
structure Conserved (s : State) : Prop where
  /-- The `i`-th message begun goes to the `i`-th receive. -/
  in_order : s.paired = s.begun.zip s.asked
  /-- What is paired is obtained once by its receiver, or still staged for it. -/
  once : s.paired.Perm (s.obtained ++ s.staged)
  staged : ∀ p ∈ s.staged, s.phase p.2 = .woken ∧ s.ep.pending p.2 = some p.1
  /-- A message not yet paired is filed under its blocked sender, in queue order. -/
  queued : (s.begun.drop s.paired.length).map some = s.ep.state.senders.map s.ep.pending
  /-- A receive not yet paired stands in the queue, in order. -/
  blocked : s.asked.drop s.paired.length = s.ep.state.receivers
  no_default : s.defaulted = false

theorem messages_conserved_fifo (ls : List Label) : Conserved (run ls) := by
  have h : Inv (run ls) := Inv.run ls
  obtain ⟨ms, hms, hbegun⟩ := h.begun_eq
  have hpaired : (run ls).begun.zip (run ls).asked =
      (run ls).paired ++ ms.zip (run ls).ep.state.receivers := by
    rw [hbegun, h.asked_eq, zip_append (by simp), zip_map']
    simp
  have hunmatched : ms.zip (run ls).ep.state.receivers = [] := by
    rcases (run ls).ep.state.senders_or_receivers with hs | hr
    · rw [hs, map_nil, eq_comm, map_eq_nil_iff] at hms
      rw [hms, zip_nil_left]
    · rw [hr, zip_nil_right]
  exact {
    in_order := by rw [hpaired, hunmatched, append_nil]
    once := h.paired_perm
    staged := fun p hp => (h.staged_iff p.1 p.2).mp hp
    queued := by rw [hms, hbegun, drop_left' (by simp)]
    blocked := by rw [h.asked_eq, drop_left' (by simp)]
    no_default := h.defaulted }

end SnitchOs.Ipc.Fifo
