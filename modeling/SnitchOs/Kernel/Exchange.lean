import SnitchOs.Kernel.Affine
import SnitchOs.Kernel.Steady

/-!
# Calls, replies and the mailbox

What a section does to the reply mailbox and to the two logs, and the first consequence: while a
call's token is on its way, the caller waits for that call.
-/

namespace SnitchOs.Kernel

open Cap Ipc Notify Sched List Processes State
open Budget

variable {n : Nat}

/-! ### Inversion -/

/-- The section `s` of `me` goes on with `new`. Four kinds of section matter to an exchange: the start
of a call, an accepted reply, the stash that delivers it, and the return of the call. -/
inductive Exchange (k k' : State n) (me : TaskId) : Sec n → List (Sec n) → Prop
  | quiet {s : Sec n} {new : List (Sec n)} (hs : s.stashesFor = none) (hres : ∀ j, s ≠ .resume (.called j))
      (hnew : ∀ s' ∈ new, s'.stashesFor = none) (hr : k'.ipc.replies = k.ipc.replies)
      (hret : k'.ipc.returned = k.ipc.returned) (hacc : k'.procs.accepted = k.procs.accepted)
      (hnext : k'.ipc.nextCall = k.ipc.nextCall) : Exchange k k' me s new
  | call {ep : EndpointId} {msg : Message} {parent : SpanId} {badge : UInt64} {new : List (Sec n)}
      (hnew : ∀ s' ∈ new, s'.stashesFor = none) (hr : k'.ipc.replies = k.ipc.replies)
      (hret : k'.ipc.returned = k.ipc.returned) (hacc : k'.procs.accepted = k.procs.accepted)
      (hlast : waiting new = some (.called k.ipc.nextCall)) :
      Exchange k k' me (.ipc (.callBegin ep msg parent badge)) new
  | reply {h : Handle} {msg : Message} {transfer recv : Option Handle} {caller : TaskId} {call : CallNo}
      {moved : Option Moved} {tail : List (Sec n)} (hheld : (caller, call) ∈ k.authority (.table me))
      (htail : ∀ s' ∈ tail, s'.stashesFor = none) (hr : k'.ipc.replies = k.ipc.replies)
      (hret : k'.ipc.returned = k.ipc.returned)
      (hacc : k'.procs.accepted = k.procs.accepted ++ [(caller, call, msg)])
      (hnext : k'.ipc.nextCall = k.ipc.nextCall) :
      Exchange k k' me (.caps (.replyViaCap h msg transfer recv))
        (.ipc (.stashReply caller { msg, moved, call }) :: .wake caller :: tail)
  | stash {caller : TaskId} {reply : StashedReply}
      (hr : k'.ipc.replies = Function.update k.ipc.replies caller (some reply))
      (hret : k'.ipc.returned = k.ipc.returned) (hacc : k'.procs.accepted = k.procs.accepted)
      (hnext : k'.ipc.nextCall = k.ipc.nextCall) : Exchange k k' me (.ipc (.stashReply caller reply)) []
  | ret {call : CallNo} {new : List (Sec n)} (hnew : ∀ s' ∈ new, s'.stashesFor = none)
      (hr : k'.ipc.replies = Function.update k.ipc.replies me none)
      (hret : k'.ipc.returned = k.ipc.returned ++ [(me, call, ((k.ipc.replies me).getD {}).msg)])
      (hacc : k'.procs.accepted = k.procs.accepted) (hnext : k'.ipc.nextCall = k.ipc.nextCall) :
      Exchange k k' me (.resume (.called call)) new

/-- A section that wakes nobody, stashes nothing and waits for nothing. -/
def Sec.plain (s : Sec n) : Prop := s.stashesFor = none ∧ s.waits = none ∧ ∀ id, s ≠ .wake id

variable {s : CapsSec n} {k k' : State n} {me c : TaskId} {h : Fin n}

theorem Emits.noStash {s : Sec n} (he : Emits s new)
    (hs : ∀ h msg transfer recv, s ≠ .caps (.replyViaCap h msg transfer recv)) : ∀ s' ∈ new, s'.stashesFor = none := by
  cases he with
  | reply | replyRecv => exact absurd rfl (hs _ _ _ _)
  | kill handle target isSelf remote o => exact fun s' hs' => (mayPark_afterKill handle target o s' hs').2
  | _ => repeat first | exact List.forall_mem_nil _ | refine List.forall_mem_cons.2 ⟨rfl, ?_⟩

theorem Processes.accepted_execOn (p : Processes) (me : TaskId) (t : CapTable)
    (hs : ∀ h msg transfer recv, s ≠ .replyViaCap h msg transfer recv) : (p.execOn me t s).1.accepted = p.accepted := by
  cases s with
  | replyViaCap h msg transfer recv => exact absurd rfl (hs _ _ _ _)
  | _ =>
    simp only [execOn]
    repeat' split
    all_goals rfl

theorem Processes.accepted_exec (p : Processes) (me : TaskId)
    (hs : ∀ h msg transfer recv, s ≠ .replyViaCap h msg transfer recv) : (p.exec me s).1.accepted = p.accepted := by
  unfold exec
  split
  · next handed =>
    obtain ⟨t, -, -, hacc⟩ := p.publish_tables me handed
    exact hacc
  · rfl
  split
  · exact p.accepted_execOn _ _ hs
  · rfl

theorem Emits.plain_of_caps (he : Emits (.caps s) new)
    (hs : ∀ h msg transfer recv, s ≠ .replyViaCap h msg transfer recv) : ∀ s' ∈ new, s'.plain := by
  cases he with
  | reply | replyRecv => exact absurd rfl (hs _ _ _ _)
  | _ =>
    repeat first | exact List.forall_mem_nil _ | refine List.forall_mem_cons.2 ⟨⟨rfl, rfl, fun _ h => by cases h⟩, ?_⟩

/-- What an accepted reply of `me` does: it spends a token of the table and goes on to wake the caller. -/
structure Replied (p : Processes) (me : TaskId) (s : CapsSec n) (t t' : CapTable) (caller : TaskId) (call : CallNo)
    (msg : Message) (moved : Option Moved) (tail : List (Sec n)) : Prop where
  isReply : ∃ h transfer recv, s = .replyViaCap h msg transfer recv
  table : p.tables me = some t
  authority : tableAuthority t = {(caller, call)} + (replyAuthority { msg, moved, call } + tableAuthority t')
  exec : p.exec me s = ({ p.setTable me t' with accepted := p.accepted ++ [(caller, call, msg)] },
    .ipc (.stashReply caller { msg, moved, call }) :: .wake caller :: tail)
  tail : ∀ s' ∈ tail, s'.plain ∧ s'.authority = 0

/-- The sections on tables accept no reply and go on plainly, but for a reply that is accepted. -/
theorem Processes.exec_cases (p : Processes) (me : TaskId) (s : CapsSec n) :
    ((p.exec me s).1.accepted = p.accepted ∧ ∀ s' ∈ (p.exec me s).2, s'.plain) ∨
      ∃ t t' caller call msg moved tail, Replied p me s t t' caller call msg moved tail := by
  by_cases hrep : ∃ c msg transfer recv, s = .replyViaCap c msg transfer recv
  · obtain ⟨c, msg, transfer, recv, rfl⟩ := hrep
    cases htab : p.tables me with
    | none => exact .inl (by simp [exec, htab])
    | some t =>
      cases hr : replyViaCap t c transfer with
      | error e => exact .inl (by simp [exec, htab, execOn, hr])
      | ok out =>
        obtain ⟨⟨caller, call⟩, moved, t'⟩ := out
        refine .inr ⟨t, t', caller, call, msg, moved, recv.toList.map fun ep => .caps (.invokeRecv ep),
          ⟨c, transfer, recv, rfl⟩, htab, tableAuthority_replyViaCap hr, ?_, ?_⟩
        · simp only [exec, htab, execOn, hr]
          cases recv <;> rfl
        · simp [Sec.plain, Sec.stashesFor, Sec.waits, Sec.authority]
  · have hne : ∀ c msg transfer recv, s ≠ .replyViaCap c msg transfer recv := fun c msg transfer recv e =>
      hrep ⟨c, msg, transfer, recv, e⟩
    exact .inl ⟨p.accepted_exec me hne, (p.exec_emits me s).plain_of_caps hne⟩

theorem State.exchange_caps (hi : k'.ipc = k.ipc) (hp : k'.procs = (k.procs.exec me s).1) :
    Exchange k k' me (.caps s) (k.procs.exec me s).2 := by
  rcases k.procs.exec_cases me s with ⟨hacc, hplain⟩ | ⟨t, t', caller, call, msg, moved, tail, hr⟩
  · exact .quiet rfl (by simp) (fun s' hs' => (hplain s' hs').1) (by rw [hi]) (by rw [hi]) (by rw [hp, hacc]) (by rw [hi])
  obtain ⟨h, transfer, recv, rfl⟩ := hr.isReply
  rw [hr.exec] at hp ⊢
  exact .reply (by simp [authority, hr.table, hr.authority]) (fun s' hs' => (hr.tail s' hs').1.1)
    (by rw [hi]) (by rw [hi]) (by rw [hp]) (by rw [hi])

/-! ### The mailbox and the calls -/

/-- The sections that put a reply into the mailbox or take one out. -/
def IpcSec.mails : IpcSec → Bool
  | .stashReply .. | .cancelReplies _ => true
  | _ => false

theorem IpcState.replies_exec (i : IpcState) (me : TaskId) {s : IpcSec} (hs : s.mails = false) :
    (i.exec (n := n) me s).1.replies = i.replies := by
  cases s with
  | sendBegin | callBegin | receiveBegin =>
    simp only [exec, sendBegin, callBegin, receiveBegin]
    split <;> rfl
  | stashReply | cancelReplies => cases hs
  | _ => rfl

theorem IpcState.returned_exec (i : IpcState) (me : TaskId) (s : IpcSec) : (i.exec (n := n) me s).1.returned = i.returned := by
  cases s with
  | sendBegin | callBegin | receiveBegin =>
    simp only [exec, sendBegin, callBegin, receiveBegin]
    split <;> rfl
  | _ => rfl

theorem IpcState.nextCall_exec (i : IpcState) (me : TaskId) {s : IpcSec}
    (hs : ∀ ep msg parent badge, s ≠ .callBegin ep msg parent badge) : (i.exec (n := n) me s).1.nextCall = i.nextCall := by
  cases s with
  | callBegin => exact absurd rfl (hs _ _ _ _)
  | sendBegin | receiveBegin =>
    simp only [exec, sendBegin, receiveBegin]
    split <;> rfl
  | _ => rfl

theorem Steady.exchange {s : Sec n} (hst : Steady k) (ht : k.todo (k.sched.current h) = s :: rest)
    (hexec : k.exec h now rest s = some k') : Exchange k k' (k.sched.current h) s (k.emitted h now s) := by
  have hs := hst.head_steady ht
  have he : Emits s (k.emitted h now s) := hst.emits ht
  obtain ⟨-, -, hi, -, hp, -⟩ := executed hexec
  cases s with
  | caps s => exact exchange_caps hi hp
  | ipc s =>
    have hnew := he.noStash (by simp)
    have hret : k'.ipc.returned = k.ipc.returned := hi ▸ k.ipc.returned_exec _ s
    cases s with
    | callBegin ep msg parent badge =>
      refine .call hnew (hi ▸ k.ipc.replies_exec _ rfl) hret (by rw [hp]; rfl) ?_
      simp only [emitted, IpcState.exec, IpcState.callBegin]
      split <;> rfl
    | stashReply caller reply => exact .stash (by rw [hi]; rfl) hret (by rw [hp]; rfl) (by rw [hi]; rfl)
    | cancelEndpoints | cancelReplies => cases hs
    | _ =>
      exact .quiet rfl (by simp) hnew (hi ▸ k.ipc.replies_exec _ rfl) hret (by rw [hp]; rfl)
        (hi ▸ k.ipc.nextCall_exec _ (by simp))
  | resume r =>
    have hnew := he.noStash (by simp)
    cases r with
    | called call =>
      exact .ret hnew (by rw [hi]; rfl) (by rw [hi]; rfl) (by rw [hp]; rfl) (by rw [hi]; rfl)
    | _ =>
      exact .quiet rfl (by simp) hnew (by rw [hi]; rfl) (by rw [hi]; rfl) (by rw [hp]; rfl) (by rw [hi]; rfl)
  | _ =>
    exact .quiet rfl (by simp) (he.noStash (by simp)) (by rw [hi]; rfl) (by rw [hi]; rfl) (by rw [hp]; rfl) (by rw [hi]; rfl)

/-! ### Waiting goes on until the handler resumes -/

theorem waiting_emits {s : Sec n} (hsh : Shaped (s :: rest)) (he : Emits s new)
    (hw : waiting (s :: rest) = some r) : waiting (new ++ rest) = some r ∨ (s = .resume r ∧ rest = []) := by
  by_cases hne : rest = []
  · subst hne
    cases s with
    | park r' =>
      cases hw
      cases he
      exact .inl rfl
    | resume r' =>
      cases hw
      exact .inr ⟨rfl, rfl⟩
    | _ => cases hw
  · left
    rwa [waiting_append hne, ← waiting_cons hne]

theorem Steady.waiting_ran {s : Sec n} (hst : Steady k) (hr : Ran k k' h now s new rest)
    (hw : waiting (k.todo t) = some r) : waiting (k'.todo t) = some r ∨ (t = k.sched.current h ∧ s = .resume r) := by
  by_cases ht : t = k.sched.current h
  · subst ht
    rw [hr.head] at hw
    rw [hr.todo_me]
    exact (waiting_emits (hr.head ▸ hst.shaped _) hr.emits hw).imp_right fun hx => ⟨rfl, hx.1⟩
  · rw [hr.todo_of_ne ht]
    exact .inl hw

theorem Steady.waiting_step (hst : Steady k) (hs : k.step l = some k') (hw : waiting (k.todo c) = some r) :
    waiting (k'.todo c) = some r ∨ ∃ h now, l = .run h now ∧ c = k.sched.current h ∧ k.todo c = [.resume r] := by
  rcases step_cases hs with ⟨h, now, s, rest, rfl, ht, hexec⟩ | ⟨-, hnil, rfl⟩
  · refine (hst.waiting_ran (hst.ran ht hexec) hw).imp_right ?_
    rintro ⟨rfl, rfl⟩
    exact ⟨h, now, rfl, rfl, (hst.shaped _).eq_resume (by rw [ht]; exact mem_cons_self)⟩
  left
  have hc : c ≠ k.sched.current l.hart := by
    rintro rfl
    rw [hnil] at hw
    cases hw
  simpa [goOn, hc] using hw

/-! ### Open calls -/

/-- While a token is anywhere but in the log of accepted replies, its caller waits for the call. -/
def State.OpenCalls (k : State n) : Prop :=
  ∀ p, p ≠ .accepted → ∀ c j, (c, j) ∈ k.authority p → waiting (k.todo c) = some (.called j)

theorem State.Affine.place_eq (ha : k.Affine) (hp : (c, j) ∈ k.authority p) (hq : (c', j) ∈ k.authority q) : p = q :=
  ha.place_unique (issued_le_one _ j) (Multiset.mem_map.mpr ⟨_, hp, rfl⟩) (Multiset.mem_map.mpr ⟨_, hq, rfl⟩)

theorem State.mem_accepted (ha : a ∈ k.procs.accepted) : (a.1, a.2.1) ∈ k.authority .accepted :=
  mem_map.mpr ⟨a, ha, rfl⟩

theorem Flow.openCalls (hf : Flow me k k') (ha' : k'.Affine) (ho : k.OpenCalls) (hacc : k.procs.accepted ⊆ k'.procs.accepted)
    (hnext : k'.ipc.nextCall = k.ipc.nextCall ∨ waiting (k'.todo me) = some (.called k.ipc.nextCall))
    (hwait : ∀ c j, waiting (k.todo c) = some (.called j) → waiting (k'.todo c) = some (.called j) ∨ ∀ p, p ≠ .accepted → (c, j) ∉ k'.authority p) :
    k'.OpenCalls := by
  intro p hp c j hm
  have old : ∀ q, (c, j) ∈ k.authority q → waiting (k'.todo c) = some (.called j) := by
    intro q hq
    -- a logged token stays in the log, so it is not the one at `p`
    have hqa : q ≠ .accepted := by
      rintro rfl
      obtain ⟨a, hain, hatok⟩ := mem_map.mp (Multiset.mem_coe.mp hq)
      have hin := mem_accepted (hacc hain)
      rw [show (a.1, a.2.1) = (c, j) from hatok] at hin
      exact hp (ha'.place_eq hm hin)
    exact (hwait c j (ho q hqa c j hq)).resolve_right fun hno => hno p hp hm
  rcases hf with ⟨hmv, -⟩ | ⟨p₀, hoff, hp₀, hc⟩
  · obtain ⟨q, hq⟩ := hmv.mem hm
    exact old q hq
  by_cases hpp : p = p₀
  · subst hpp
    rcases Multiset.mem_cons.mp (Multiset.mem_of_le hp₀ hm) with heq | hq
    · cases heq
      refine hnext.resolve_left fun heq => ?_
      rw [hc] at heq
      exact Nat.succ_ne_self _ heq
    · exact old p hq
  · exact old p (Multiset.mem_of_le (hoff p hpp) hm)

theorem Steady.delegatesReply (hst : Steady k) (l : Label n) : k.delegatesReply l = false := by
  cases l with
  | run h now =>
    simp only [State.delegatesReply]
    split
    · next hart handles rest t ht _ => cases hst.head_steady ht
    · rfl
  | _ => rfl

/-- The log of accepted replies grows, and a call is numbered when its caller starts to wait. -/
theorem Steady.exchange_step (hst : Steady k) (hs : k.step l = some k') :
    k.procs.accepted ⊆ k'.procs.accepted ∧ (k'.ipc.nextCall = k.ipc.nextCall ∨
      waiting (k'.todo (k.sched.current l.hart)) = some (.called k.ipc.nextCall)) := by
  rcases step_cases hs with ⟨h, now, s, rest, rfl, ht, hexec⟩ | ⟨-, -, rfl⟩
  · have hr := hst.ran ht hexec
    have hx := hst.exchange ht hexec
    generalize k.emitted h now s = new at hr hx
    cases hx with
    | quiet _ _ _ _ _ hacc hnext | stash _ _ hacc hnext | ret _ _ _ hacc hnext =>
      exact ⟨by rw [hacc]; exact fun _ => id, .inl hnext⟩
    | call _ _ _ hacc hlast =>
      refine ⟨by rw [hacc]; exact fun _ => id, .inr ?_⟩
      have hnil : rest = [] := (ht ▸ hst.shaped _ : Shaped _).rest_nil rfl
      change waiting (k'.todo (k.sched.current h)) = _
      rw [hr.todo_me, hnil, append_nil, hlast]
    | reply _ _ _ _ hacc hnext => exact ⟨by rw [hacc]; exact subset_append_left _ _, .inl hnext⟩
  · exact ⟨fun _ => id, .inl rfl⟩

end SnitchOs.Kernel
