import SnitchOs.Kernel.Emits

/-!
# Spans carried by messages

A message carries the span its sender was in. The kernel makes no span up on the way: what waits on an
endpoint or is being delivered was put there by a send or a call, or is `0`, the span of the message a
receiver is given when it is woken without one.
-/

namespace SnitchOs.Kernel

open Cap Ipc Notify Sched Function List Option

variable {n : Nat}

def Sec.span : Sec n → Option SpanId
  | .ipc (.sendBegin _ _ parent _) | .ipc (.callBegin _ _ parent _) => some parent
  | .caps (.invokeSend _ _ parent _) => some parent
  | .caps (.replyHandleFor d) => some d.parent
  | _ => none

def Sec.takes : Sec n → Bool
  | .ipc (.receiveBegin _) | .resume (.received _) => true
  | _ => false

def Label.span : Label n → Option SpanId
  | .syscall _ (.send _ _ parent) | .syscall _ (.call _ _ parent) => some parent
  | _ => none

def IpcState.Holds (i : IpcState) (s : SpanId) : Prop :=
  ∃ ep t d, (i.endpoints ep).pending t = some d ∧ d.parent = s

/-- A message on its way carries `s`. -/
def State.Carries (k : State n) (s : SpanId) : Prop :=
  k.ipc.Holds s ∨ ∃ t, ∃ sec ∈ k.todo t, sec.span = some s

variable {sec s' : Sec n}
  {l : Label n}

theorem Emits.span (he : Emits sec new) (ht : sec.takes = false) : ∀ s' ∈ new, s'.span = none ∨ s'.span = sec.span := by
  cases he with
  | kill handle target isSelf remote o =>
    cases o <;> repeat first | exact forall_mem_nil _ | refine forall_mem_cons.2 ⟨.inl rfl, ?_⟩
  | _ =>
    first
      | exact Bool.noConfusion ht
      | repeat' (first
          | exact forall_mem_nil _ | refine forall_mem_cons.mpr ⟨?_, ?_⟩ | exact .inl rfl | exact .inr rfl)

namespace IpcState

variable {i : IpcState}

theorem holds_set (hs : (i.set ep e).Holds s) : i.Holds s ∨ ∃ t d, e.pending t = some d ∧ d.parent = s := by
  obtain ⟨ep', t, d, hd, hp⟩ := hs
  by_cases he : ep' = ep
  · subst he
    exact .inr ⟨t, d, by simpa [set] using hd, hp⟩
  · exact .inl ⟨ep', t, d, by simpa [set, he] using hd, hp⟩

theorem holds_set_some (hs : (i.set ep { state := st, pending := update (i.endpoints ep).pending t (some d) }).Holds s) :
    i.Holds s ∨ d.parent = s := by
  rcases holds_set hs with hs | ⟨t', d', hd, hp⟩
  · exact .inl hs
  by_cases ht : t' = t
  · simp only [ht, update_self, some.injEq] at hd
    exact .inr (hd ▸ hp)
  · simp only [update_of_ne ht] at hd
    exact .inl ⟨ep, t', d', hd, hp⟩

theorem holds_set_none (hs : (i.set ep { state := st, pending := update (i.endpoints ep).pending t none }).Holds s) :
    i.Holds s := by
  rcases holds_set hs with hs | ⟨t', d', hd, hp⟩
  · exact hs
  by_cases ht : t' = t
  · simp [ht] at hd
  simp only [update_of_ne ht] at hd
  exact ⟨ep, t', d', hd, hp⟩

theorem holds_getD (hs : (((i.endpoints ep).pending t).getD {}).parent = s) : i.Holds s ∨ s = 0 := by
  cases hd : (i.endpoints ep).pending t with
  | none =>
    rw [hd] at hs
    exact .inr hs.symm
  | some d =>
    rw [hd] at hs
    exact .inl ⟨ep, t, d, hd, hs⟩

theorem holds_exec {sec : IpcSec} (hs : (i.exec (n := n) me sec).1.Holds s) :
    i.Holds s ∨ (Sec.ipc sec : Sec n).span = some s := by
  cases sec with
  | sendBegin ep msg parent badge =>
    rcases (i.endpoints ep).begin_cases me { msg, parent, sender := me, replyTo := none, badge } with
      ⟨peer, rest, st, -, -, -, hb⟩ | ⟨st, -, -, -, hb⟩ <;>
    · simp only [exec, sendBegin, hb] at hs
      exact (holds_set_some hs).imp_right (congrArg some)
  | callBegin ep msg parent badge =>
    rcases (i.endpoints ep).begin_cases me
      { msg, parent, sender := me, replyTo := some me, badge, call := i.nextCall } with
      ⟨peer, rest, st, -, -, -, hb⟩ | ⟨st, -, -, -, hb⟩ <;>
    · simp only [exec, callBegin, hb] at hs
      exact (holds_set_some (i := { i with nextCall := i.nextCall + 1 }) hs).imp_right (congrArg some)
  | receiveBegin ep =>
    rcases (i.endpoints ep).receiveBegin_cases me with ⟨peer, rest, st, -, -, -, hb⟩ | ⟨st, -, -, -, hb⟩
    · simp only [exec, receiveBegin, hb] at hs
      exact .inl (holds_set_none hs)
    simp only [exec, receiveBegin, hb] at hs
    rcases holds_set hs with hs | ⟨t, d, hd, hp⟩
    · exact .inl hs
    · exact .inl ⟨ep, t, d, hd, hp⟩
  | cancelEndpoints target =>
    obtain ⟨ep, t, d, hd, hp⟩ := hs
    by_cases ht : t = target
    · simp [exec, Endpoint.cancelWait, ht] at hd
    · exact .inl ⟨ep, t, d, by simpa [exec, Endpoint.cancelWait, ht] using hd, hp⟩
  | stashReply caller reply | cancelReplies target | createEndpoint => exact .inl hs

theorem receiveBegin_span (hm : s' ∈ (i.receiveBegin (n := n) me ep).2) (hs : s'.span = some s) : i.Holds s ∨ s = 0 := by
  rcases (i.endpoints ep).receiveBegin_cases me with ⟨peer, rest, st, -, -, -, hb⟩ | ⟨st, -, -, -, hb⟩
  · simp only [receiveBegin, hb, mem_append, mem_singleton] at hm
    rcases hm with hm | rfl
    · split at hm
      · rw [mem_singleton.mp hm] at hs
        cases hs
      · cases hm
    · exact holds_getD (some.inj hs)
  · simp only [receiveBegin, hb, mem_singleton] at hm
    rw [hm] at hs
    cases hs

end IpcState

namespace State

variable {k k' : State n}

theorem holds_of_exec (hexec : k.exec h now rest sec = some k') (hs : k'.ipc.Holds s) : k.ipc.Holds s ∨ sec.span = some s := by
  rw [(executed hexec).ipc] at hs
  unfold ipcAfter at hs
  split at hs
  · exact IpcState.holds_exec (n := n) hs
  · exact .inl (IpcState.holds_set_none hs)
  · exact .inl hs
  · exact .inl hs

theorem span_of_emitted (he : Emits sec (k.emitted h now sec)) (hm : s' ∈ k.emitted h now sec)
    (hs : s'.span = some s) : sec.span = some s ∨ k.ipc.Holds s ∨ s = 0 := by
  cases htakes : sec.takes with
  | true =>
    unfold Sec.takes at htakes
    split at htakes
    · exact .inr (IpcState.receiveBegin_span hm hs)
    · rw [mem_singleton.mp hm] at hs
      exact .inr (IpcState.holds_getD (some.inj hs))
    · cases htakes
  | false =>
    rcases he.span htakes s' hm with hn | hn
    · exact absurd (hn.symm.trans hs) (some_ne_none _).symm
    · exact .inl (hn ▸ hs)

theorem span_of_entry (hm : s' ∈ k.entry l) (hs : s'.span = some s) : l.span = some s := by
  cases l with
  | syscall h sys =>
    cases sys with
    | replyRecv ep prevReply msg =>
      simp only [entry, Syscall.entry] at hm
      split at hm <;> rw [mem_singleton.mp hm] at hs <;> cases hs
    | exit status =>
      simp only [entry, Syscall.entry, mem_cons, not_mem_nil, or_false] at hm
      rcases hm with rfl | rfl <;> cases hs
    | _ =>
      rw [mem_singleton.mp hm] at hs
      exact hs
  | timer h now preempt =>
    rcases mem_entry_timer hm with ⟨t, rfl⟩ | rfl <;> cases hs
  | yield h =>
    rw [mem_singleton.mp hm] at hs
    cases hs
  | run h now => cases hm
  | fault h | killCheck h =>
    simp only [entry, mem_cons, not_mem_nil, or_false] at hm
    rcases hm with rfl | rfl <;> cases hs

/-- Whatever the handlers do, a message carries the span it was sent with. -/
theorem carries_step (hl : k.step l = some k') (hc : k'.Carries s) : k.Carries s ∨ s = 0 ∨ l.span = some s := by
  have hhead : ∀ {t sec rest}, k.todo t = sec :: rest → sec.span = some s → k.Carries s := fun ht hs =>
    .inr ⟨_, _, by rw [ht]; exact mem_cons_self, hs⟩
  rcases hc with hc | ⟨t, s', hm, hs⟩
  · rcases step_cases hl with ⟨h, now, sec, rest, rfl, ht, hexec⟩ | ⟨-, -, rfl⟩
    · exact .inl ((holds_of_exec hexec hc).elim .inl (hhead ht))
    · exact .inl (.inl hc)
  cases origin hl hm with
  | other _ hm => exact .inl (.inr ⟨t, s', hm, hs⟩)
  | rest _ ht _ hm => exact .inl (.inr ⟨_, s', by rw [ht]; exact mem_cons_of_mem _ hm, hs⟩)
  | emitted _ ht _ he hm =>
    rcases span_of_emitted he hm hs with hn | hn | hn
    · exact .inl (hhead ht hn)
    · exact .inl (.inl hn)
    · exact .inr (.inl hn)
  | entered _ hm => exact .inr (.inr (span_of_entry hm hs))
  | born _ _ _ hx =>
    rw [hx] at hs
    cases hs

end State

end SnitchOs.Kernel
