import SnitchOs.Kernel.Placement

/-!
# Reply authority

A call puts one token into the kernel: the right to answer it. It waits with the message on an endpoint, is handed to
the receiver as a reply capability, may be moved on by a reply that transfers it, and ends in the log of accepted
replies. Each section moves tokens or drops them, except that `call_begin` issues one and that delegating a reply
capability to a child copies it. Delegation refuses a `Once` slot, but a reply that moves a capability re-inserts it
persistent.
-/

namespace SnitchOs.Kernel

open Cap Ipc Notify Sched Function List State IpcState Processes
open Budget

variable {n : Nat}

/-! ### Tokens -/

/-- The right to answer a call: the caller and the number of the call. -/
abbrev Token := TaskId × CallNo

/-- Where tokens are. -/
inductive Place
  | pending (ep : EndpointId) (t : TaskId)
  | handler (t : TaskId)
  | table (t : TaskId)
  | mailbox (t : TaskId)
  | accepted
deriving DecidableEq

def capAuthority : Capability → Multiset Token
  | ⟨.reply caller call, _⟩ => {(caller, call)}
  | _ => 0

def slotAuthority (s : Slot) : Multiset Token := s.cap.elim 0 capAuthority

def tableAuthority (t : CapTable) : Multiset Token := (t.live.map slotAuthority).sum

def messageAuthority (d : Delivered) : Multiset Token := d.replyTo.elim 0 fun c => {(c, d.call)}

def replyAuthority (r : StashedReply) : Multiset Token := r.moved.elim 0 fun m => capAuthority m.cap

def handedAuthority (l : List Moved) : Multiset Token := (l.map fun m => capAuthority m.cap).sum

/-- The tokens a section carries as data. -/
def Sec.authority : Sec n → Multiset Token
  | .caps (.replyHandleFor d) => messageAuthority d
  | .caps (.insertMoved m) => capAuthority m.cap
  | .caps (.insertRoot cap) => capAuthority cap
  | .caps (.publish handed) => handedAuthority handed
  | .sched (.spawn _ handed) => handedAuthority handed
  | .ipc (.stashReply _ reply) => replyAuthority reply
  | _ => 0

def sections (l : List (Sec n)) : Multiset Token := (l.map Sec.authority).sum

@[simp] theorem sections_nil : sections ([] : List (Sec n)) = 0 := rfl

@[simp] theorem sections_cons (s : Sec n) (l : List (Sec n)) :
    sections (s :: l) = s.authority + sections l := by
  simp [sections]

@[simp] theorem sections_append (l l' : List (Sec n)) : sections (l ++ l') = sections l + sections l' := by
  simp [sections]

def IpcState.pendingAt (i : IpcState) (ep : EndpointId) (t : TaskId) : Option Delivered :=
  (i.endpoints ep).pending t

def answerToken (a : Answer) : Token := (a.1, a.2.1)

def State.authority (k : State n) : Place → Multiset Token
  | .pending ep t => (k.ipc.pendingAt ep t).elim 0 messageAuthority
  | .handler t => sections (k.todo t)
  | .table t => (k.procs.tables t).elim 0 tableAuthority
  | .mailbox t => (k.ipc.replies t).elim 0 replyAuthority
  | .accepted => ↑(k.procs.accepted.map answerToken)

/-! ### Tables -/

theorem tableAuthority_grant (t : CapTable) (cap : Capability) (m : Multiplicity) (id par : Nat) :
    tableAuthority (t.grant cap m id par).2 = capAuthority cap + tableAuthority t := by
  unfold tableAuthority
  rw [((t.live_grant_perm cap m id par).map slotAuthority).sum_eq]
  simp [slotAuthority]

variable {t : CapTable} {x : TaskId} {e : Endpoint} {ep : EndpointId} {s : Sec n}
  {v : Option Delivered} {p : Place} {d : Delivered} {handed : List Moved}

theorem tableAuthority_freeAt {s : Slot} (hl : t.lookup h = .ok (s, cap)) :
    tableAuthority t = capAuthority cap + tableAuthority (t.freeAt h.index.toNat) := by
  obtain ⟨hs, -, hcap⟩ := CapTable.lookup_eq_ok_iff.mp hl
  unfold tableAuthority
  rw [((CapTable.live_freeAt_perm hs (by rw [hcap]; rfl)).map slotAuthority).sum_eq]
  simp [slotAuthority, hcap]

theorem tableAuthority_consume_le (t : CapTable) (h : Handle) : tableAuthority (t.consume h).2 ≤ tableAuthority t := by
  rcases t.consume_cases h with ⟨s, cap, hl, he⟩ | ⟨-, he⟩
  · rw [he, tableAuthority_freeAt hl]
    exact Multiset.le_add_left _ _
  · rw [he]

theorem tableAuthority_replyViaCap (hr : replyViaCap t h transfer = .ok ((caller, call), moved, t')) :
    tableAuthority t = {(caller, call)} + ((moved.elim 0 fun m => capAuthority m.cap) + tableAuthority t') := by
  obtain ⟨s, rights, hl, ⟨rfl, rfl⟩ | ⟨th, s', cap, -, hl', rfl, rfl⟩⟩ := replyViaCap_eq_ok hr
  · rw [tableAuthority_freeAt hl]
    simp [capAuthority]
  · rw [tableAuthority_freeAt hl, tableAuthority_freeAt hl']
    simp [capAuthority]

theorem capAuthority_mintBadged (hm : mintBadged parent badge rights = .ok child) : capAuthority child = 0 := by
  obtain ⟨object, r⟩ := parent
  unfold mintBadged at hm
  repeat' split at hm
  all_goals cases hm
  rfl

theorem Processes.tables_grantIn (p : Processes) (me : TaskId) (t : CapTable) (cap : Capability)
    (m : Multiplicity) (par : Nat) : (p.grantIn me t cap m par).tables =
      update p.tables me (some (t.grant cap m p.drawId par).2) := rfl

theorem Processes.publish_tables (p : Processes) (me : TaskId) (handed : List Moved) :
    ∃ t, (p.publish me handed).tables = update p.tables me (some t) ∧
      tableAuthority t = handedAuthority handed ∧ (p.publish me handed).accepted = p.accepted := by
  have hfold : ∀ (l : List Moved) (q : Processes) (t : CapTable), q.tables me = some t →
      ∃ t', (l.foldl (fun p (m : Moved) =>
            p.grantIn me ((p.tables me).getD .new) m.cap .persistent m.parentCapId) q).tables =
          update q.tables me (some t') ∧ tableAuthority t' = handedAuthority l + tableAuthority t ∧
        (l.foldl (fun p (m : Moved) =>
            p.grantIn me ((p.tables me).getD .new) m.cap .persistent m.parentCapId) q).accepted =
          q.accepted := by
    intro l
    induction l with
    | nil =>
      intro q t hq
      exact ⟨t, by simp [← hq], by simp [handedAuthority], rfl⟩
    | cons m l ih =>
      intro q t hq
      have hq' : (q.grantIn me t m.cap .persistent m.parentCapId).tables me =
          some (t.grant m.cap .persistent q.drawId m.parentCapId).2 := by
        simp [tables_grantIn]
      obtain ⟨t', ht', ha, hacc⟩ := ih _ _ hq'
      refine ⟨t', ?_, ?_, ?_⟩
      · rw [foldl_cons, hq]
        simpa [tables_grantIn] using ht'
      · rw [ha, tableAuthority_grant]
        simp only [handedAuthority, map_cons, sum_cons]
        abel
      · rw [foldl_cons, hq]
        exact hacc
  obtain ⟨t, ht, ha, hacc⟩ := hfold (System.bootstrap ++ handed) (p.setTable me .new) .new (by simp [setTable])
  refine ⟨t, by simpa [publish, setTable] using ht, ?_, hacc⟩
  rw [ha]
  simp [handedAuthority, System.bootstrap, capAuthority, tableAuthority, CapTable.new, CapTable.live]

/-! ### What a step does to the tokens -/

/-- A step of `me` moves and drops tokens, or issues the one of the next call, with `me` as caller. -/
def Flow (me : TaskId) (k k' : State n) : Prop :=
  (Moves k.authority k'.authority ∧ k'.ipc.nextCall = k.ipc.nextCall) ∨
    ∃ p, (∀ q, q ≠ p → k'.authority q ≤ k.authority q) ∧
      k'.authority p ≤ (me, k.ipc.nextCall) ::ₘ k.authority p ∧ k'.ipc.nextCall = k.ipc.nextCall + 1

section Handlers

variable {k k' : State n} {me : TaskId} {s : Sec n} {g rest : List (Sec n)}
  (ht : k.todo me = s :: rest) (ht' : k'.todo = update k.todo me (g ++ rest))

include ht'

theorem authority_handler : k'.authority (.handler me) = sections g + sections rest := by
  simp [authority, ht']

theorem authority_handler_of_ne {t : TaskId} (hne : t ≠ me) : k'.authority (.handler t) = k.authority (.handler t) := by
  simp [authority, ht', hne]

include ht

theorem moves_handler (q : Place) (hq : ∀ t, q ≠ .handler t) (hsum : sections g + k'.authority q ≤ s.authority + k.authority q)
    (hoff : ∀ p, (∀ t, p ≠ .handler t) → p ≠ q → k'.authority p ≤ k.authority p) : Moves k.authority k'.authority := by
  refine .two (hq me).symm ?_ fun p hp hpq => ?_
  · have hhead : k.authority (.handler me) = s.authority + sections rest := by simp [authority, ht]
    rw [authority_handler ht', hhead, add_right_comm, add_right_comm s.authority]
    exact Multiset.add_le_add_right hsum
  · cases p with
    | handler t => exact (authority_handler_of_ne ht' fun he => hp (by rw [he])).le
    | _ => exact hoff _ (by simp) hpq

theorem moves_drop (hnew : sections g ≤ s.authority)
    (hoff : ∀ p, (∀ t, p ≠ .handler t) → k'.authority p ≤ k.authority p) : Moves k.authority k'.authority :=
  moves_handler ht ht' .accepted (by simp) (add_le_add hnew (hoff _ (by simp))) fun p hp _ => hoff p hp

end Handlers

theorem sections_map_wake (l : List TaskId) : sections (l.map (Sec.wake (n := n))) = 0 := by
  induction l with
  | nil => rfl
  | cons t l ih => rw [map_cons, sections_cons, ih]; rfl

/-! ### Endpoints and the mailbox -/

theorem messageAuthority_getD (o : Option Delivered) : messageAuthority (o.getD {}) = o.elim 0 messageAuthority := by
  cases o <;> rfl

theorem replyAuthority_getD (o : Option StashedReply) : replyAuthority (o.getD {}) = o.elim 0 replyAuthority := by
  cases o <;> rfl

theorem IpcState.pendingAt_set (i : IpcState) (he : e.pending = update (i.endpoints ep).pending x v)
    (ep' : EndpointId) (t : TaskId) : (i.set ep e).pendingAt ep' t = if ep' = ep ∧ t = x then v else i.pendingAt ep' t := by
  unfold pendingAt set
  by_cases hep : ep' = ep
  · subst hep
    by_cases ht : t = x <;> simp [he, ht]
  · simp [hep]

section Ipc

variable {k k' : State n} {me : TaskId} {g rest : List (Sec n)}
  (ht : k.todo me = s :: rest) (ht' : k'.todo = update k.todo me (g ++ rest))

theorem authority_set (hep : k'.ipc.endpoints = (k.ipc.set ep e).endpoints)
    (he : e.pending = update (k.ipc.endpoints ep).pending x v) (hr : k'.ipc.replies = k.ipc.replies)
    (hp : k'.procs = k.procs) (hne : ∀ t, p ≠ .handler t) :
    k'.authority p = if p = .pending ep x then v.elim 0 messageAuthority else k.authority p := by
  cases p with
  | handler t => exact absurd rfl (hne t)
  | pending ep' t =>
    have hpend : k'.ipc.pendingAt ep' t = (k.ipc.set ep e).pendingAt ep' t := by
      simp [pendingAt, hep]
    simp only [authority, hpend, k.ipc.pendingAt_set he, Place.pending.injEq]
    split <;> rfl
  | _ => simp [authority, hr, hp]

include ht ht'

theorem flow_send (hi : k'.ipc = k.ipc.set ep e)
    (he : e.pending = update (k.ipc.endpoints ep).pending x (some d)) (hp : k'.procs = k.procs)
    (hd : messageAuthority d = 0) (hnew : sections g = 0) : Flow me k k' := by
  refine .inl ⟨moves_drop ht ht' (by simp [hnew]) fun p hne => ?_, by rw [hi]; rfl⟩
  rw [authority_set (by rw [hi]) he (by rw [hi]; rfl) hp hne]
  split
  · simp [hd]
  · exact le_rfl

theorem flow_call (hi : k'.ipc = { k.ipc with nextCall := k.ipc.nextCall + 1 }.set ep e)
    (he : e.pending = update (k.ipc.endpoints ep).pending x (some d)) (hp : k'.procs = k.procs)
    (hd : messageAuthority d = {(me, k.ipc.nextCall)}) (hnew : sections g = 0) : Flow me k k' := by
  have hset : ∀ p, (∀ t, p ≠ .handler t) →
      k'.authority p = if p = .pending ep x then messageAuthority d else k.authority p := fun p hne =>
    authority_set (by rw [hi]; rfl) he (by rw [hi]; rfl) hp hne
  refine .inr ⟨.pending ep x, fun q hq => ?_, ?_, by rw [hi]; rfl⟩
  · cases q with
    | handler t =>
      by_cases htm : t = me
      · subst htm
        rw [authority_handler ht', hnew]
        simp [authority, ht]
      · exact (authority_handler_of_ne ht' htm).le
    | _ =>
      rw [hset _ (by simp), if_neg hq]
  · rw [hset _ (by simp), if_pos rfl, hd, ← Multiset.singleton_add]
    exact Multiset.le_add_right _ _

theorem flow_take (hi : k'.ipc = k.ipc.set ep e)
    (he : e.pending = update (k.ipc.endpoints ep).pending x none) (hp : k'.procs = k.procs) (hnew : sections g = messageAuthority ((k.ipc.pendingAt ep x).getD {})) :
    Flow me k k' := by
  have hset : ∀ p, (∀ t, p ≠ .handler t) →
      k'.authority p = if p = .pending ep x then 0 else k.authority p := fun p hne =>
    authority_set (v := none) (by rw [hi]) he (by rw [hi]; rfl) hp hne
  refine .inl ⟨moves_handler ht ht' (.pending ep x) (by simp) ?_ fun p hne hpq => ?_, by rw [hi]; rfl⟩
  · rw [hset _ (by simp), if_pos rfl, hnew, messageAuthority_getD, add_zero]
    exact Multiset.le_add_left _ _
  · rw [hset _ hne, if_neg hpq]

theorem flow_mail {v : Option StashedReply} (hep : k'.ipc.endpoints = k.ipc.endpoints)
    (hr : k'.ipc.replies = update k.ipc.replies x v) (hc : k'.ipc.nextCall = k.ipc.nextCall) (hp : k'.procs = k.procs)
    (hsum : sections g + v.elim 0 replyAuthority ≤ s.authority + k.authority (.mailbox x)) : Flow me k k' := by
  refine .inl ⟨moves_handler ht ht' (.mailbox x) (by simp) ?_ fun p hne hpq => ?_, hc⟩
  · rwa [show k'.authority (.mailbox x) = v.elim 0 replyAuthority by simp [authority, hr]]
  cases p with
  | handler t => exact absurd rfl (hne t)
  | mailbox t => simp [authority, hr, show t ≠ x from fun he => hpq (by rw [he])]
  | pending ep t => simp [authority, pendingAt, hep]
  | _ => simp [authority, hp]

theorem flow_quiet (hep : k'.ipc.endpoints = k.ipc.endpoints) (hr : k'.ipc.replies = k.ipc.replies)
    (hc : k'.ipc.nextCall = k.ipc.nextCall) (htab : k'.procs.tables = k.procs.tables)
    (hacc : k'.procs.accepted = k.procs.accepted) (hnew : sections g = 0) : Flow me k k' := by
  refine .inl ⟨moves_drop ht ht' (by simp [hnew]) fun p hne => ?_, hc⟩
  cases p with
  | handler t => exact absurd rfl (hne t)
  | pending ep t => simp [authority, pendingAt, hep]
  | _ => simp [authority, hr, htab, hacc]

end Ipc

theorem State.flow_ipc {s : IpcSec}
    (ht : k.todo (k.sched.current h) = .ipc s :: rest) (hs : k.exec h now rest (.ipc s) = some k') :
    Flow (k.sched.current h) k k' := by
  cases hs
  cases s with
  | sendBegin ep msg parent badge =>
    simp only [IpcState.exec, sendBegin]
    rcases (k.ipc.endpoints ep).begin_cases (k.sched.current h)
      { msg, parent, sender := k.sched.current h, replyTo := none, badge } with
      ⟨peer, _, state, -, -, -, hb⟩ | ⟨state, -, -, -, hb⟩
    all_goals
      rw [hb]
      exact flow_send ht rfl rfl rfl rfl rfl rfl
  | callBegin ep msg parent badge =>
    simp only [IpcState.exec, callBegin]
    rcases (k.ipc.endpoints ep).begin_cases (k.sched.current h)
      { msg, parent, sender := k.sched.current h, replyTo := some (k.sched.current h), badge,
        call := k.ipc.nextCall } with
      ⟨peer, _, state, -, -, -, hb⟩ | ⟨state, -, -, -, hb⟩
    all_goals
      rw [hb]
      exact flow_call ht rfl rfl rfl rfl rfl rfl
  | receiveBegin ep =>
    simp only [IpcState.exec, receiveBegin]
    rcases (k.ipc.endpoints ep).receiveBegin_cases (k.sched.current h) with
      ⟨peer, _, state, -, -, -, hb⟩ | ⟨state, -, -, -, hb⟩
    · rw [hb]
      refine flow_take (x := peer) ht rfl rfl rfl rfl ?_
      simp only [sections_append]
      split <;> simp [Sec.authority, pendingAt]
    rw [hb]
    refine .inl ⟨moves_drop (g := [.park (.received ep)]) ht rfl (by simp [Sec.authority]) ?_, rfl⟩
    intro p hne
    cases p with
    | pending ep' t =>
      by_cases hep : ep' = ep
      · subst hep
        simp [authority, goOn, pendingAt, IpcState.set]
      · simp [authority, goOn, pendingAt, IpcState.set, hep]
    | handler t => exact absurd rfl (hne t)
    | _ => exact le_rfl
  | stashReply caller reply =>
    exact flow_mail (x := caller) (v := some reply) ht rfl rfl rfl rfl rfl (by simp [Sec.authority, IpcState.exec])
  | cancelEndpoints target =>
    refine .inl ⟨moves_drop (g := []) ht rfl (by simp) fun p hne => ?_, rfl⟩
    cases p with
    | handler t => exact absurd rfl (hne t)
    | pending ep t =>
      by_cases htt : t = target
      · simp [authority, goOn, pendingAt, IpcState.exec, Endpoint.cancelWait, htt]
      · simp [authority, goOn, pendingAt, IpcState.exec, Endpoint.cancelWait, htt]
    | _ => exact le_rfl
  | cancelReplies target =>
    exact flow_mail (x := target) (v := none) ht rfl rfl rfl rfl rfl (by simp [IpcState.exec])
  | createEndpoint => exact flow_quiet ht rfl rfl rfl rfl rfl rfl rfl

/-! ### Capability tables -/

section Caps

variable {k k' : State n} {me : TaskId} {g rest : List (Sec n)}
  (ht : k.todo me = s :: rest) (ht' : k'.todo = update k.todo me (g ++ rest))

theorem authority_tables {v : Option CapTable} (hi : k'.ipc = k.ipc) (htab : k'.procs.tables = update k.procs.tables x v)
    (hacc : k'.procs.accepted = k.procs.accepted) (hne : ∀ t, p ≠ .handler t) :
    k'.authority p = if p = .table x then v.elim 0 tableAuthority else k.authority p := by
  cases p with
  | handler t => exact absurd rfl (hne t)
  | table t => by_cases htx : t = x <;> simp [authority, htab, htx]
  | _ => simp [authority, hi, hacc]

include ht ht' in
theorem flow_grant (hi : k'.ipc = k.ipc) (htab : k'.procs.tables = update k.procs.tables x (some t))
    (hacc : k'.procs.accepted = k.procs.accepted) (hnew : sections g = 0)
    (hle : tableAuthority t ≤ s.authority + k.authority (.table x)) : Flow me k k' := by
  have hset : ∀ p, (∀ t, p ≠ .handler t) →
      k'.authority p = if p = .table x then tableAuthority t else k.authority p := fun p hne =>
    authority_tables hi htab hacc hne
  refine .inl ⟨moves_handler ht ht' (.table x) (by simp) ?_ fun p hne hpq => ?_, by rw [hi]⟩
  · rw [hset _ (by simp), if_pos rfl, hnew, zero_add]
    exact hle
  · rw [hset _ hne, if_neg hpq]

end Caps

def persistentReply (t : CapTable) (h : Handle) : Bool :=
  match t.lookup h with
  | .ok (s, ⟨.reply _ _, _⟩) => s.multiplicity == .persistent
  | _ => false

theorem handedAuthority_delegate (hno : handles.any (persistentReply t) = false) (hd : delegateFromUser t handles = .ok handed) :
    handedAuthority handed = 0 := by
  refine sum_eq_zero fun x hx => ?_
  obtain ⟨m, hm, rfl⟩ := mem_map.mp hx
  obtain ⟨h, hh, s, hl, hmult, -⟩ := delegateFromUser_mem hd hm
  obtain ⟨⟨object, rights⟩, par⟩ := m
  cases object with
  | reply caller call =>
    have := any_eq_false.mp hno h hh
    simp [persistentReply, hl, hmult] at this
  | _ => rfl

theorem State.flow_execOn {s : CapsSec n} (htab : k.procs.tables me = some t) (ht : k.todo me = .caps s :: rest)
    (hk' : k' = { k with procs := (k.procs.execOn me t s).1 }.goOn me ((k.procs.execOn me t s).2 ++ rest))
    (hno : ∀ hart handles, s = .delegateFromUser hart handles → handles.any (persistentReply t) = false) : Flow me k k' := by
  have hmine : k.authority (.table me) = tableAuthority t := by simp [authority, htab]
  cases s with
  | invokeSend h msg parent call =>
    simp only [execOn] at hk'
    split at hk'
    · subst hk'
      exact flow_quiet ht rfl rfl rfl rfl rfl rfl (by cases call <;> rfl)
    · subst hk'
      exact flow_quiet ht rfl rfl rfl rfl rfl rfl rfl
  | replyViaCap h msg transfer recv =>
    simp only [execOn] at hk'
    split at hk'
    · next caller call moved t' hr =>
      subst hk'
      have hsplit := tableAuthority_replyViaCap hr
      refine .inl ⟨.three (l := .handler me) (m := .table me) (o := .accepted) (by simp) (by simp) (by simp) ?_ ?_, rfl⟩
      · rw [hmine, hsplit]
        apply le_of_eq
        cases recv
        all_goals
          simp only [authority, goOn, setTable, update_self, Option.elim_some,
            sections_append, sections_cons, sections_nil, ht, Sec.authority, map_append,
            ← Multiset.coe_add, replyAuthority, map_cons, map_nil, Multiset.coe_singleton,
            answerToken]
          abel
      · intro p hp hpt hpa
        cases p with
        | handler x => simp [authority, goOn, show x ≠ me from fun he => hp (by rw [he])]
        | table x =>
          simp [authority, goOn, setTable, show x ≠ me from fun he => hpt (by rw [he])]
        | accepted => exact absurd rfl hpa
        | _ => exact le_rfl
    · subst hk'
      exact flow_quiet ht rfl rfl rfl rfl rfl rfl rfl
  | replyHandleFor d =>
    simp only [execOn] at hk'
    split at hk'
    · next caller hc =>
      subst hk'
      refine flow_grant ht rfl rfl (tables_grantIn ..) rfl rfl ?_
      rw [tableAuthority_grant, hmine]
      simp [Sec.authority, capAuthority, messageAuthority, hc]
    · subst hk'
      exact flow_quiet ht rfl rfl rfl rfl rfl rfl rfl
  | insertMoved m | insertRoot cap | mintProcessCap child =>
    subst hk'
    refine flow_grant ht rfl rfl (tables_grantIn ..) rfl rfl ?_
    rw [tableAuthority_grant, hmine]
    rfl
  | consume h =>
    subst hk'
    refine flow_grant (t := (t.consume h).2) ht rfl rfl rfl rfl rfl ?_
    rw [hmine]
    exact (tableAuthority_consume_le t h).trans (Multiset.le_add_left _ _)
  | mintBadged h badge rights =>
    simp only [execOn] at hk'
    split at hk'
    · next out t' hm =>
      subst hk'
      obtain ⟨s, cap, child, -, hmint, hout⟩ := handleMintBadged_eq_ok hm
      have ht' : t' = (t.insertWithId child k.procs.drawId s.capId).2 := by rw [← hout]
      refine flow_grant (t := t') ht rfl rfl rfl rfl rfl ?_
      rw [ht', CapTable.insertWithId, tableAuthority_grant, hmine, capAuthority_mintBadged hmint]
      rfl
    · subst hk'
      exact flow_quiet ht rfl rfl rfl rfl rfl rfl rfl
  | delegateFromUser hart handles =>
    simp only [execOn] at hk'
    split at hk'
    · next handed hd =>
      subst hk'
      refine flow_quiet ht rfl rfl rfl rfl rfl rfl ?_
      simpa [Sec.authority] using handedAuthority_delegate (hno hart handles rfl) hd
    · subst hk'
      exact flow_quiet ht rfl rfl rfl rfl rfl rfl rfl
  | publish handed | dropProcess child =>
    subst hk'
    exact flow_quiet ht rfl rfl rfl rfl rfl rfl rfl
  | _ =>
    simp only [execOn] at hk'
    split at hk'
    all_goals
      subst hk'
      exact flow_quiet ht rfl rfl rfl rfl rfl rfl rfl

/-! ### Every step -/

section Steps

variable {k k' : State n} {h : Fin n} {now : Nat} {rest : List (Sec n)}

theorem State.flow_spawn (hp : Placement k.sched) (ht : k.todo (k.sched.current h) = .sched (.spawn hart handed) :: rest)
    (hs : k.exec h now rest (.sched (.spawn hart handed)) = some k') : Flow (k.sched.current h) k k' := by
  cases hs
  have hne : k.sched.nextTaskId ≠ k.sched.current h := (hp.current_lt h).ne'
  refine .inl ⟨.two (l := .handler (k.sched.current h)) (m := .handler k.sched.nextTaskId)
    (by simpa using hne.symm) ?_ fun p hpme hpch => ?_, rfl⟩
  · simp only [authority, goOn, update_self, update_of_ne hne, sections_cons, sections_nil, ht, Sec.authority, zero_add, add_zero]
    rw [add_comm]
    exact Multiset.le_add_right _ _
  · cases p with
    | handler t =>
      have htm : t ≠ k.sched.current h := fun he => hpme (by rw [he])
      have htc : t ≠ k.sched.nextTaskId := fun he => hpch (by rw [he])
      simp [authority, goOn, htm, htc]
    | _ => exact le_rfl

/-- The section does nothing to the places of tokens, and hands on none. -/
def Sec.tokenless : Sec n → Bool
  | .sched (.spawn ..) | .sched .exitNow | .notify .create | .ipc _ | .caps _ => false
  | .resume (.received _) | .resume (.called _) => false
  | _ => true

theorem Emits.sections_tokenless (he : Emits s new) (hs : s.tokenless = true) : sections new = 0 := by
  cases he with
  | kill handle target isSelf remote o => cases o <;> rfl
  | _ => first | rfl | cases hs

theorem State.flow_tokenless (ht : k.todo (k.sched.current h) = s :: rest)
    (hs : k.exec h now rest s = some k') (hq : s.tokenless = true) : Flow (k.sched.current h) k k' := by
  have hx := executed hs
  obtain ⟨hi, hp, ho⟩ : k'.ipc = k.ipc ∧ k'.procs = k.procs ∧ k.others s = k.todo := by
    rw [hx.ipc, hx.procs]
    unfold Sec.tokenless at hq
    split at hq <;> simp_all [ipcAfter, procsAfter, others]
  rcases k.emits_emitted h now s with rfl | he
  · cases hq
  have ht' := hx.todo
  rw [ho, he.leaves] at ht'
  exact flow_quiet ht ht' (by rw [hi]) (by rw [hi]) (by rw [hi]) (by rw [hp]) (by rw [hp]) (he.sections_tokenless hq)

theorem State.flow_exit (hs : k.exec h now rest (.sched .exitNow) = some k') : Flow (k.sched.current h) k k' := by
  obtain ⟨s', -, rfl⟩ := Option.map_eq_some_iff.mp hs
  refine .inl ⟨.of_le fun p => ?_, rfl⟩
  cases p with
  | handler t => by_cases htm : t = k.sched.current h <;> simp [authority, goOn, htm]
  | _ => exact le_rfl

theorem State.flow_resume {r : Resume} (ht : k.todo (k.sched.current h) = .resume r :: rest)
    (hs : k.exec h now rest (.resume r) = some k') : Flow (k.sched.current h) k k' := by
  cases r with
  | received ep =>
    cases hs
    exact flow_take (x := k.sched.current h) ht rfl rfl rfl rfl
      (by simp [takeDelivered, Endpoint.takeDelivered, Sec.authority, pendingAt])
  | called call =>
    cases hs
    refine flow_mail (x := k.sched.current h) (v := none) ht rfl rfl rfl rfl rfl ?_
    have hnew : sections (n := n) (k.ipc.takeReply (k.sched.current h) call).2 =
        replyAuthority ((k.ipc.replies (k.sched.current h)).getD {}) := by
      simp only [takeReply, replyAuthority]
      split
      · next m hm => simp [hm, Sec.authority]
      · next hm => simp [hm]
    rw [hnew, replyAuthority_getD]
    simp [Sec.authority, authority]
  | _ => exact flow_tokenless ht hs rfl

theorem State.flow_caps {s : CapsSec n} (ht : k.todo (k.sched.current h) = .caps s :: rest)
    (hs : k.exec h now rest (.caps s) = some k') (hno : ∀ hart handles t, s = .delegateFromUser hart handles →
      k.procs.tables (k.sched.current h) = some t → handles.any (persistentReply t) = false) : Flow (k.sched.current h) k k' := by
  cases hs
  by_cases hpub : ∃ handed, s = .publish handed
  · obtain ⟨handed, rfl⟩ := hpub
    obtain ⟨t, htab, ha, hacc⟩ := k.procs.publish_tables (k.sched.current h) handed
    refine flow_grant (g := []) ht rfl rfl htab hacc rfl ?_
    rw [ha]
    exact Multiset.le_add_right _ _
  by_cases hdrop : ∃ child, s = .dropProcess child
  · obtain ⟨child, rfl⟩ := hdrop
    refine .inl ⟨moves_drop (g := []) ht rfl (by simp) fun p hne => ?_, rfl⟩
    cases p with
    | handler t => exact absurd rfl (hne t)
    | table t =>
      by_cases htc : t = child <;> simp [authority, goOn, Processes.exec, htc]
    | _ => exact le_rfl
  cases htab : k.procs.tables (k.sched.current h) with
  | none =>
    have hexec : k.procs.exec (k.sched.current h) s = (k.procs, []) := by
      cases s with
      | publish handed => exact absurd ⟨handed, rfl⟩ hpub
      | dropProcess child => exact absurd ⟨child, rfl⟩ hdrop
      | _ => simp [Processes.exec, htab]
    simp only [hexec]
    exact flow_quiet (g := []) ht rfl rfl rfl rfl rfl rfl rfl
  | some t =>
    have hexec : k.procs.exec (k.sched.current h) s = k.procs.execOn (k.sched.current h) t s := by
      cases s with
      | publish handed => exact absurd ⟨handed, rfl⟩ hpub
      | dropProcess child => exact absurd ⟨child, rfl⟩ hdrop
      | _ => simp [Processes.exec, htab]
    simp only [hexec]
    exact flow_execOn htab ht rfl fun hart handles he => hno hart handles t he htab

/-- The step is a delegation whose array names a persistent reply capability. -/
def State.delegatesReply (k : State n) : Label n → Bool
  | .run h _ =>
    match k.todo (k.sched.current h), k.procs.tables (k.sched.current h) with
    | .caps (.delegateFromUser _ handles) :: _, some t => handles.any (persistentReply t)
    | _, _ => false
  | _ => false

theorem State.sections_entry (k : State n) (l : Label n) : sections (k.entry l) = 0 := by
  cases l with
  | syscall h sys =>
    cases sys with
    | replyRecv ep prevReply msg =>
      simp only [entry, Syscall.entry]
      split <;> rfl
    | _ => rfl
  | timer h now preempt =>
    simp only [entry, sections_append, sections_map_wake]
    split <;> rfl
  | _ => rfl

theorem State.flow_step {l : Label n} (hp : Placement k.sched) (hok : k.delegatesReply l = false)
    (hs : k.step l = some k') : Flow (k.sched.current l.hart) k k' := by
  rcases step_cases hs with ⟨h, now, s, rest, rfl, ht, hexec⟩ | ⟨-, hnil, rfl⟩
  · change Flow (k.sched.current h) k k'
    cases s with
    | sched s =>
      cases s with
      | spawn hart handed => exact flow_spawn hp ht hexec
      | exitNow => exact flow_exit hexec
      | _ => exact flow_tokenless ht hexec rfl
    | ipc s => exact flow_ipc ht hexec
    | notify s =>
      cases s with
      | create =>
        cases hexec
        exact flow_quiet ht rfl rfl rfl rfl rfl rfl rfl
      | _ => exact flow_tokenless ht hexec rfl
    | caps s =>
      refine flow_caps ht hexec fun hart handles t he htab => ?_
      subst he
      simpa only [delegatesReply, ht, htab] using hok
    | reap s | timeout s | park r => exact flow_tokenless ht hexec rfl
    | resume r => exact flow_resume ht hexec
  · refine .inl ⟨.of_le fun p => ?_, rfl⟩
    cases p with
    | handler t =>
      by_cases htm : t = k.sched.current l.hart
      · simp [authority, goOn, htm, sections_entry]
      · simp [authority, goOn, htm]
    | _ => exact le_rfl

end Steps

end SnitchOs.Kernel
