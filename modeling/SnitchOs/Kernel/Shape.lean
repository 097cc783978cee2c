import SnitchOs.Kernel.Emits

/-!
# The shape of handlers

A handler parks at most once more, at its end: the sections that may lead to `park` stand last, and
one that resumes stands alone. A reply is stashed by the first section of what is left, and the next
one wakes the caller. `waiting` reads off what a handler waits for, from the section that registered
it until it has resumed.
-/

namespace SnitchOs.Kernel

open Cap Ipc Notify Sched Function List Sec

variable {n : Nat}

def Sec.mayPark : Sec n → Bool
  | .caps (.invokeSend ..) | .caps (.invokeRecv _) | .caps (.invokeWait ..) => true
  | .caps (.replyViaCap _ _ _ recv) => recv.isSome
  | .ipc (.sendBegin ..) | .ipc (.callBegin ..) | .ipc (.receiveBegin _) => true
  | .notify (.wait ..) | .reap (.waitFor _) | .reap (.waitForAny _) => true
  | .park _ | .resume _ => true
  | _ => false

def Sec.stashesFor : Sec n → Option TaskId
  | .ipc (.stashReply caller _) => some caller
  | _ => none

/-- What `park` and `resume` wait for. -/
def Sec.waits : Sec n → Option Resume
  | .park r | .resume r => some r
  | _ => none

inductive Shaped : List (Sec n) → Prop
  | nil : Shaped []
  | last {s : Sec n} (hst : s.stashesFor = none) : Shaped [s]
  | cons {s : Sec n} {l : List (Sec n)} (hs : s.mayPark = false) (hl : Shaped l)
      (hres : ∀ r, l ≠ [.resume r]) (hno : ∀ s' ∈ l, s'.stashesFor = none)
      (hst : ∀ c, s.stashesFor = some c → l.head? = some (.wake c)) : Shaped (s :: l)

variable {s : Sec n}

namespace Shaped

variable {s : Sec n} {rest new : List (Sec n)}

variable (h : Shaped (s :: rest))
include h

theorem rest_nil (hs : s.mayPark = true) : rest = [] := by
  cases h with
  | last => rfl
  | cons hp => rw [hs] at hp; cases hp

theorem rest_noStash : ∀ s' ∈ rest, s'.stashesFor = none := by
  cases h with
  | last => simp
  | cons _ _ _ hno => exact hno

theorem rest_ne_resume (r : Resume) : rest ≠ [.resume r] := by
  cases h with
  | last => simp
  | cons _ _ hres => exact hres r

theorem tail : Shaped rest := by
  cases h with
  | last => exact .nil
  | cons _ hl => exact hl

theorem wake_follows (hs : s.stashesFor = some c) : ∃ l, rest = .wake c :: l := by
  cases h with
  | last hst => rw [hs] at hst; cases hst
  | cons _ _ _ _ hst =>
    obtain ⟨l, hl⟩ := head?_eq_some_iff.mp (hst c hs)
    exact ⟨l, hl⟩

omit h

theorem eq_resume (h : Shaped l) (hr : .resume r ∈ l) : l = [.resume r] := by
  induction h with
  | nil => cases hr
  | last => rw [mem_singleton.mp hr]
  | cons hs _ hres _ _ ih =>
    rcases mem_cons.mp hr with rfl | hr
    · cases hs
    · exact absurd (ih hr) (hres r)

theorem eq_stash (h : Shaped l)
    (hm : .ipc (.stashReply c reply) ∈ l) : ∃ l', l = .ipc (.stashReply c reply) :: .wake c :: l' := by
  cases h with
  | nil => cases hm
  | last hst =>
    rw [← mem_singleton.mp hm] at hst
    cases hst
  | cons _ _ _ hno hst =>
    rcases mem_cons.mp hm with rfl | hm
    · obtain ⟨l', rfl⟩ := head?_eq_some_iff.mp (hst c rfl)
      exact ⟨l', rfl⟩
    · cases hno _ hm

theorem append (hnew : ∀ s ∈ new, s.mayPark = false ∧ s.stashesFor = none) (h : Shaped rest)
    (hres : ∀ r, rest ≠ [.resume r]) (hno : ∀ s ∈ rest, s.stashesFor = none) : Shaped (new ++ rest) := by
  induction new with
  | nil => exact h
  | cons s l ih =>
    have hl := fun s hs => hnew s (mem_cons_of_mem _ hs)
    obtain ⟨hp, hst⟩ := hnew s mem_cons_self
    refine .cons hp (ih hl) ?_ ?_ (by simp [hst])
    · cases l with
      | nil => exact hres
      | cons s' l =>
        rintro r hr
        obtain ⟨rfl, -⟩ := List.cons.inj hr
        cases (hl _ mem_cons_self).1
    · intro s' hs'
      rcases mem_append.mp hs' with hs' | hs'
      · exact (hl s' hs').2
      · exact hno s' hs'

end Shaped

/-! ### Steps keep the shape -/

theorem mayPark_afterKill (handle : Handle) (target : TaskId) (o : KillOutcome) :
    ∀ s ∈ (afterKill handle target o : List (Sec n)), s.mayPark = false ∧ s.stashesFor = none := by
  cases o <;>
    repeat' (first
      | exact forall_mem_nil _ | refine forall_mem_cons.mpr ⟨?_, ?_⟩ | exact ⟨rfl, rfl⟩)

variable {rest new : List (Sec n)}

theorem Shaped.stash (h : Shaped rest) (hres : ∀ r, rest ≠ [.resume r])
    (hno : ∀ s ∈ rest, s.stashesFor = none) : Shaped (.ipc (.stashReply caller reply) :: .wake caller :: rest) := by
  refine .cons rfl (.cons rfl h hres hno (by simp [stashesFor])) ?_ ?_ ?_
  · intro r hr
    cases hr
  · intro s hs
    rcases mem_cons.mp hs with rfl | hs
    · rfl
    · exact hno s hs
  · rintro c hc
    cases hc
    rfl

theorem Emits.mayPark (he : Emits s new) (hs : s.mayPark = false) : (∀ s' ∈ new, s'.mayPark = false ∧ s'.stashesFor = none) ∨
      ∃ caller reply, new = [.ipc (.stashReply caller reply), .wake caller] := by
  cases he with
  | reply caller reply => exact .inr ⟨caller, reply, rfl⟩
  | kill handle target isSelf remote o => exact .inl (mayPark_afterKill handle target o)
  | _ =>
    first
      | exact Bool.noConfusion hs
      | left
        repeat' (first
          | exact forall_mem_nil _ | refine forall_mem_cons.mpr ⟨?_, ?_⟩ | exact ⟨rfl, rfl⟩)

theorem Emits.shaped_of_mayPark (he : Emits s new) (hs : s.mayPark = true) : Shaped new := by
  cases he with
  | replyRecv ep caller reply => exact .stash (.last rfl) (by simp) (by simp [stashesFor])
  | _ =>
    first
      | exact .nil
      | exact .last rfl
      | exact Bool.noConfusion hs
      | exact .cons rfl (.last rfl) (by simp) (by simp [stashesFor]) (by simp [stashesFor])

theorem Emits.eq_park (he : Emits s new) (hr : .resume r ∈ new) : s = .park r := by
  cases he with
  | park r' =>
    cases mem_singleton.mp hr
    rfl
  | kill handle target isSelf remote o => cases (mayPark_afterKill handle target o _ hr).1
  | _ => simp at hr

theorem Shaped.emits (h : Shaped (s :: rest)) (he : Emits s new) : Shaped (new ++ rest) := by
  cases hs : s.mayPark with
  | true =>
    rw [h.rest_nil hs, append_nil]
    exact he.shaped_of_mayPark hs
  | false =>
    rcases he.mayPark hs with hnew | ⟨caller, reply, rfl⟩
    · exact .append hnew h.tail h.rest_ne_resume h.rest_noStash
    · exact h.tail.stash h.rest_ne_resume h.rest_noStash

theorem State.shaped_entry (k : State n) (l : Label n) : Shaped (k.entry l) := by
  have hyield : Shaped [(.sched .yieldNow : Sec n)] := .last rfl
  have hend : ∀ t status, Shaped [(.reap (.noteExit t status) : Sec n), .sched .exitNow] := fun t status =>
    .cons rfl (.last rfl) (by simp) (by simp [stashesFor]) (by simp [stashesFor])
  cases l with
  | run h now => exact .nil
  | syscall h sys =>
    cases sys with
    | replyRecv ep prevReply msg =>
      simp only [entry, Syscall.entry]
      split <;> exact .last rfl
    | exit status => exact hend _ _
    | _ => exact .last rfl
  | yield h => exact hyield
  | timer h now preempt =>
    refine .append (by simp [mayPark, stashesFor]) ?_ ?_ ?_
    · split
      · exact hyield
      · exact .nil
    · split <;> simp
    · split <;> simp [stashesFor]
  | fault h | killCheck h => exact hend _ _

theorem State.entry_plain (k : State n) (l : Label n) : ∀ s ∈ k.entry l, s.stashesFor = none ∧ s.waits = none := by
  cases l with
  | syscall h sys =>
    cases sys with
    | replyRecv ep prevReply msg =>
      simp only [entry, Syscall.entry]
      split <;> exact forall_mem_singleton.mpr ⟨rfl, rfl⟩
    | _ =>
      first
        | exact forall_mem_singleton.mpr ⟨rfl, rfl⟩
        | exact forall_mem_cons.mpr ⟨⟨rfl, rfl⟩, forall_mem_singleton.mpr ⟨rfl, rfl⟩⟩
  | timer h now preempt =>
    intro s hs
    rcases mem_entry_timer hs with ⟨t, rfl⟩ | rfl <;> exact ⟨rfl, rfl⟩
  | _ => simp [entry, stashesFor, waits]

theorem shaped_step {k k' : State n} (hsh : ∀ t, Shaped (k.todo t))
    (hs : k.step l = some k') (t : TaskId) : Shaped (k'.todo t) := by
  rcases State.step_cases hs with ⟨h, now, s, rest, rfl, ht, hexec⟩ | ⟨-, -, rfl⟩
  · rw [(State.executed hexec).todo]
    by_cases htm : t = k.sched.current h
    · rw [htm, update_self]
      rcases k.emits_emitted h now s with rfl | he
      · exact .nil
      rw [he.leaves]
      exact (ht ▸ hsh _ : Shaped _).emits he
    · rw [update_of_ne htm]
      unfold State.others
      split
      · by_cases htn : t = k.sched.nextTaskId
        · rw [htn, update_self]
          exact .last rfl
        · rw [update_of_ne htn]
          exact hsh t
      · exact hsh t
  · by_cases htm : t = k.sched.current l.hart
    · simpa [State.goOn, htm] using k.shaped_entry l
    · simpa [State.goOn, htm] using hsh t

/-! ### What a handler waits for -/

def waiting (l : List (Sec n)) : Option Resume := l.getLast?.bind waits

@[simp] theorem waiting_nil : waiting ([] : List (Sec n)) = none := rfl

@[simp] theorem waiting_singleton (s : Sec n) : waiting [s] = s.waits := rfl

theorem waiting_append (hne : rest ≠ []) : waiting (new ++ rest) = waiting rest := by
  obtain ⟨l, x, rfl⟩ := eq_nil_or_concat rest |>.resolve_left hne
  simp [waiting, ← append_assoc]

theorem waiting_cons (hne : rest ≠ []) : waiting (s :: rest) = waiting rest := by
  rw [← singleton_append, waiting_append hne]

/-! ### One section -/

/-- Hart `h` ran the section `s` of its current task, whose handler goes on with `new`. -/
structure Ran (k k' : State n) (h : Fin n) (now : Nat) (s : Sec n) (new rest : List (Sec n)) : Prop where
  head : k.todo (k.sched.current h) = s :: rest
  exec : k.exec h now rest s = some k'
  emits : Emits s new
  todo : k'.todo = update k.todo (k.sched.current h) (new ++ rest)

namespace Ran

variable {k k' : State n} {h : Fin n} {now : Nat} {s : Sec n} {new rest : List (Sec n)}

variable (hr : Ran k k' h now s new rest)
include hr

theorem todo_me : k'.todo (k.sched.current h) = new ++ rest := by
  rw [hr.todo, update_self]

theorem todo_of_ne (hne : t ≠ k.sched.current h) : k'.todo t = k.todo t := by
  rw [hr.todo, update_of_ne hne]

theorem mem_todo (hx : x ∈ k'.todo t) : x ∈ new ∨ x ∈ k.todo t := by
  by_cases ht : t = k.sched.current h
  · subst ht
    rw [hr.todo_me] at hx
    rw [hr.head]
    exact (mem_append.mp hx).imp_right (mem_cons_of_mem _)
  · exact .inr (hr.todo_of_ne ht ▸ hx)

end Ran

end SnitchOs.Kernel
