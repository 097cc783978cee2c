import SnitchOs.Kernel.Exchange

/-!
# Calls return the words of their own replies

The mailbox is keyed by the caller alone and `take_reply` answers zeros if it is empty, so a call returns the right
words only if nothing wakes the caller before its reply is stashed. Wakes that come too early exist: a deadline stays
in the queue of the hart it was registered on when the task is woken on another. In runs without such a wake a call
returns the words of the reply that spent its token.
-/

namespace SnitchOs.Kernel

open Cap Ipc Notify Sched Function List Option State
open Budget

variable {n : Nat}

/-! ### Answers on their way -/

/-- Where the answer of an accepted reply is. -/
inductive Post
  | handler (t : TaskId)
  | mailbox (t : TaskId)
  | returned
deriving DecidableEq

def Sec.answer : Sec n → Multiset Answer
  | .ipc (.stashReply caller reply) => {(caller, reply.call, reply.msg)}
  | _ => 0

def answersIn (l : List (Sec n)) : Multiset Answer := (l.map Sec.answer).sum

@[simp] theorem answersIn_nil : answersIn ([] : List (Sec n)) = 0 := rfl

@[simp] theorem answersIn_cons (s : Sec n) (l : List (Sec n)) :
    answersIn (s :: l) = s.answer + answersIn l := by
  simp [answersIn]

@[simp] theorem answersIn_append (l l' : List (Sec n)) :
    answersIn (l ++ l') = answersIn l + answersIn l' := by
  simp [answersIn]

theorem Sec.answer_of_noStash {s : Sec n} (hs : s.stashesFor = none) : s.answer = 0 := by
  cases s with
  | ipc s =>
    cases s with
    | stashReply caller reply => cases hs
    | _ => rfl
  | _ => rfl

theorem answersIn_of_noStash {l : List (Sec n)} (hl : ∀ s ∈ l, s.stashesFor = none) : answersIn l = 0 := by
  refine sum_eq_zero fun x hx => ?_
  obtain ⟨s, hs, rfl⟩ := mem_map.mp hx
  exact Sec.answer_of_noStash (hl s hs)

def State.answers (k : State n) : Post → Multiset Answer
  | .handler t => answersIn (k.todo t)
  | .mailbox t => (k.ipc.replies t).elim 0 fun r => {(t, r.call, r.msg)}
  | .returned => ↑k.ipc.returned

/-! ### The invariant -/

structure Rpc (k : State n) : Prop where
  steady : Steady k
  affine : k.Affine
  /-- Every answer on its way, or returned, is an accepted reply, and no reply is there twice. -/
  answers : Within (fun a => (k.procs.accepted : Multiset Answer).count a) k.answers
  openCalls : k.OpenCalls
  /-- While an answer is on its way its caller waits for that call. -/
  posted : ∀ p, p ≠ .returned → ∀ c j w, (c, j, w) ∈ k.answers p → waiting (k.todo c) = some (.called j)
  /-- A caller that may run again has its reply. -/
  resumed : ∀ c j, k.todo c = [.resume (.called j)] → k.sched.isBlocked c = false → k.ipc.replies c ≠ none

namespace Rpc

variable {k k' : State n} {h : Fin n} {now : Nat} {s : Sec n} {new rest : List (Sec n)}

variable (hk : Rpc k)
include hk

theorem accepted_nodup : (k.procs.accepted.map (·.2.1)).Nodup := by
  rw [nodup_iff_count_le_one]
  intro j
  have := (hk.affine.count_le .accepted j).trans (issued_le_one _ j)
  simpa [authority, answerToken, Function.comp_def] using this

theorem count_accepted_le (a : Answer) : (k.procs.accepted : Multiset Answer).count a ≤ 1 :=
  Multiset.nodup_iff_count_le_one.mp (Multiset.coe_nodup.mpr hk.accepted_nodup.of_map) a

theorem mem_accepted (ha : a ∈ k.answers p) : a ∈ k.procs.accepted := by
  rw [← Multiset.mem_coe, ← Multiset.one_le_count_iff_mem]
  exact (Multiset.one_le_count_iff_mem.mpr ha).trans (hk.answers.count_le p a)

theorem answer_unique (hp : a ∈ k.answers p) (hq : a' ∈ k.answers q) (hc : a.2.1 = a'.2.1) : p = q := by
  have heq := inj_on_of_nodup_map hk.accepted_nodup (hk.mem_accepted hp) (hk.mem_accepted hq) hc
  exact hk.answers.place_unique (hk.count_accepted_le a) hp (heq ▸ hq)

/-- A caller that resumes finds the reply to its own call. -/
theorem reply_of_resume (ht : k.todo (k.sched.current h) = [.resume (.called j)]) :
    ∃ r, k.ipc.replies (k.sched.current h) = some r ∧ r.call = j := by
  have hsome := hk.resumed _ j ht (hk.steady.placement.current_not_blocked h)
  obtain ⟨r, hr⟩ := ne_none_iff_exists'.mp hsome
  have hm : (k.sched.current h, r.call, r.msg) ∈ k.answers (.mailbox (k.sched.current h)) := by
    simp [State.answers, hr]
  have hw := hk.posted _ (by simp) _ _ _ hm
  rw [ht] at hw
  cases hw
  exact ⟨r, hr, rfl⟩

/-! ### The answers -/

omit hk

variable (hr : Ran k k' h now s new rest) (hx : Exchange k k' (k.sched.current h) s new)
include hr

theorem answers_handler : k'.answers (.handler (k.sched.current h)) = answersIn new + answersIn rest := by
  simp [State.answers, hr.todo_me]

theorem answers_handler_of_ne (hne : t ≠ k.sched.current h) : k'.answers (.handler t) = k.answers (.handler t) := by
  simp [State.answers, hr.todo_of_ne hne]

theorem answers_quiet (hnew : ∀ s' ∈ new, s'.stashesFor = none) (hrep : k'.ipc.replies = k.ipc.replies)
    (hret : k'.ipc.returned = k.ipc.returned) (p : Post) : k'.answers p ≤ k.answers p := by
  cases p with
  | handler t =>
    by_cases htm : t = k.sched.current h
    · subst htm
      rw [answers_handler hr, answersIn_of_noStash hnew]
      simp [State.answers, hr.head]
    · rw [answers_handler_of_ne hr htm]
  | mailbox t => simp [State.answers, hrep]
  | returned => simp [State.answers, hret]

include hk hx

theorem answers_exec : Within (fun a => (k'.procs.accepted : Multiset Answer).count a) k'.answers := by
  cases hx with
  | quiet _ _ hnew hrep hret hacc _ | call hnew hrep hret hacc _ =>
    rw [hacc]
    exact hk.answers.mono (answers_quiet hr hnew hrep hret) fun _ => le_rfl
  | @reply c msg _ _ caller call moved tail _ htail hrep hret hacc _ =>
    refine hk.answers.issue (.handler (k.sched.current h)) (x := (caller, call, msg)) (fun p hp => ?_) ?_ ?_ ?_
    · cases p with
      | handler t => rw [answers_handler_of_ne hr fun he => hp (by rw [he])]
      | mailbox t => simp [State.answers, hrep]
      | returned => simp [State.answers, hret]
    · rw [answers_handler hr]
      simp [State.answers, hr.head, Sec.answer, answersIn_of_noStash htail]
    · rw [hacc, ← Multiset.coe_add, Multiset.count_add]
      simp
    · intro a
      rw [hacc, ← Multiset.coe_add, Multiset.count_add]
      exact Nat.le_add_right _ _
  | @stash caller reply hrep hret hacc _ =>
    rw [hacc]
    refine hk.answers.two (l := .handler (k.sched.current h)) (m := .mailbox caller) (by simp) (fun p hp hq => ?_) fun a => ?_
    · cases p with
      | handler t => rw [answers_handler_of_ne hr fun he => hp (by rw [he])]
      | mailbox t => simp [State.answers, hrep, show t ≠ caller from fun he => hq (by rw [he])]
      | returned => simp [State.answers, hret]
    · rw [answers_handler hr]
      simp only [State.answers, hrep, hr.head, update_self, elim_some, answersIn_nil, zero_add,
        answersIn_cons, Sec.answer, Multiset.count_add]
      omega
  | @ret call _ hnew hrep hret hacc _ =>
    rw [hacc]
    have hnil : rest = [] := (hr.head ▸ hk.steady.shaped _ : Shaped _).rest_nil rfl
    subst hnil
    obtain ⟨r, hmail, rfl⟩ := hk.reply_of_resume hr.head
    refine hk.answers.two (l := .mailbox (k.sched.current h)) (m := .returned) (by simp) (fun p hp hq => ?_) fun a => ?_
    · cases p with
      | handler t =>
        by_cases htm : t = k.sched.current h
        · subst htm
          rw [answers_handler hr, answersIn_of_noStash hnew]
          simp
        · rw [answers_handler_of_ne hr htm]
      | mailbox t => simp [State.answers, hrep, show t ≠ k.sched.current h from fun he => hp (by rw [he])]
      | returned => exact absurd rfl hq
    · simp only [State.answers, hrep, hret, hmail, update_self, elim_some, elim_none,
        getD_some, ← Multiset.coe_add, Multiset.coe_singleton, Multiset.count_add,
        Multiset.count_zero]
      omega

/-! ### The links to the callers -/

omit hx in
theorem waiting_exec (hs : c = k.sched.current h → s ≠ .resume (.called j)) (hw : waiting (k.todo c) = some (.called j)) :
    waiting (k'.todo c) = some (.called j) :=
  (hk.steady.waiting_ran hr hw).resolve_right fun hx => hs hx.1 hx.2

theorem posted_exec (hp : p ≠ .returned) {w : Message} (hm : (c, j, w) ∈ k'.answers p) : waiting (k'.todo c) = some (.called j) := by
  -- the answer was there before, and its caller does not return in this step
  have old : ∀ q, q ≠ .returned → (c, j, w) ∈ k.answers q →
      (c = k.sched.current h → s ≠ .resume (.called j)) → waiting (k'.todo c) = some (.called j) :=
    fun q hq hmq hs => hk.waiting_exec hr hs (hk.posted q hq c j w hmq)
  cases hx with
  | quiet _ hres hnew hrep hret _ _ =>
    exact old p hp (Multiset.mem_of_le (answers_quiet hr hnew hrep hret p) hm) fun _ => hres j
  | call hnew hrep hret _ _ =>
    exact old p hp (Multiset.mem_of_le (answers_quiet hr hnew hrep hret p) hm) (by simp)
  | @reply _ _ _ _ caller call _ tail hheld htail hrep hret _ _ =>
    cases p with
    | handler t =>
      by_cases htm : t = k.sched.current h
      · subst htm
        rw [answers_handler hr, answersIn_cons, answersIn_cons, answersIn_of_noStash htail] at hm
        simp only [Sec.answer, add_zero, Multiset.mem_add, Multiset.mem_singleton] at hm
        rcases hm with heq | hm
        · cases heq
          -- the reply spent the token of a call that is still open
          exact hk.waiting_exec hr (by simp) (hk.openCalls _ (by simp) _ _ hheld)
        · exact old (.handler (k.sched.current h)) (by simp) (by simpa [State.answers, hr.head, Sec.answer] using hm) (by simp)
      · rw [answers_handler_of_ne hr htm] at hm
        exact old _ (by simp) hm (by simp)
    | mailbox t => exact old (.mailbox t) (by simp) (by simpa [State.answers, hrep] using hm) (by simp)
    | returned => exact absurd rfl hp
  | @stash caller reply hrep _ _ _ =>
    cases p with
    | handler t =>
      by_cases htm : t = k.sched.current h
      · subst htm
        rw [answers_handler hr] at hm
        refine old (.handler (k.sched.current h)) (by simp) ?_ (by simp)
        simp only [answersIn_nil, zero_add] at hm
        simp [State.answers, hr.head, hm]
      · rw [answers_handler_of_ne hr htm] at hm
        exact old _ (by simp) hm (by simp)
    | mailbox t =>
      by_cases htc : t = caller
      · subst htc
        refine old (.handler (k.sched.current h)) (by simp) ?_ (by simp)
        simp only [State.answers, hrep, update_self, elim_some] at hm
        simp [State.answers, hr.head, Sec.answer, Multiset.mem_singleton.mp hm]
      · exact old (.mailbox t) (by simp) (by simpa [State.answers, hrep, htc] using hm) (by simp)
    | returned => exact absurd rfl hp
  | @ret call _ hnew hrep _ _ _ =>
    have hnil : rest = [] := (hr.head ▸ hk.steady.shaped _ : Shaped _).rest_nil rfl
    subst hnil
    obtain ⟨r, hmail, rfl⟩ := hk.reply_of_resume hr.head
    have hmine : (k.sched.current h, r.call, r.msg) ∈ k.answers (.mailbox (k.sched.current h)) := by
      simp [State.answers, hmail]
    have hold : (c, j, w) ∈ k.answers p ∧ p ≠ .mailbox (k.sched.current h) := by
      cases p with
      | handler t =>
        by_cases htm : t = k.sched.current h
        · subst htm
          rw [answers_handler hr, answersIn_of_noStash hnew] at hm
          simp at hm
        · exact ⟨by rwa [answers_handler_of_ne hr htm] at hm, by simp⟩
      | mailbox t =>
        by_cases htm : t = k.sched.current h
        · subst htm
          simp [State.answers, hrep] at hm
        · exact ⟨by simpa [State.answers, hrep, htm] using hm, by simpa using htm⟩
      | returned => exact absurd rfl hp
    refine old p hp hold.1 fun hc heq => hold.2 ?_
    -- there is no second answer to the call that returns
    cases heq
    exact hk.answer_unique hold.1 hmine rfl

theorem resumed_exec (hwake : ∀ id, s = .wake id → k.sched.isBlocked id = true → ∀ j, waiting (k.todo id) = some (.called j) →
      k.ipc.replies id ≠ none) (htc : k'.todo c = [.resume (.called j)])
    (hb : k'.sched.isBlocked c = false) : k'.ipc.replies c ≠ none := by
  have hsh : Shaped (s :: rest) := hr.head ▸ hk.steady.shaped _
  rw [hk.steady.isBlocked_exec hr.head hr.exec] at hb
  by_cases hc : c = k.sched.current h
  · -- only `park` goes on with a resume, and it blocks
    subst hc
    rw [hr.todo_me] at htc
    obtain ⟨rfl, rfl⟩ : new = [.resume (.called j)] ∧ rest = [] := by
      rcases append_eq_singleton_iff.mp htc with ⟨-, hrest⟩ | hboth
      · exact absurd hrest (hsh.rest_ne_resume _)
      · exact hboth
    rw [hr.emits.eq_park mem_cons_self] at hb
    simp [Steady.blockedAfter] at hb
  rw [hr.todo_of_ne hc] at htc
  have hkeep : k.ipc.replies c ≠ none → k'.ipc.replies c ≠ none := by
    intro hsome
    cases hx with
    | quiet _ _ _ hrep | call _ hrep | reply _ _ hrep => rwa [hrep]
    | @stash caller reply hrep =>
      rw [hrep]
      by_cases hcc : c = caller
      · simp [hcc]
      · rwa [update_of_ne hcc]
    | ret _ hrep => rwa [hrep, update_of_ne hc]
  cases hbc : k.sched.isBlocked c with
  | false => exact hkeep (hk.resumed c j htc hbc)
  | true =>
    have hs : s = .wake c := by
      unfold Steady.blockedAfter at hb
      split at hb
      · split at hb
        · next heq => rw [heq]
        rw [hbc] at hb
        cases hb
      · rw [if_neg hc, hbc] at hb
        cases hb
      · rw [hbc] at hb
        cases hb
    exact hkeep (hwake c hs hbc j (by rw [htc]; rfl))

end Rpc

/-! ### Every run -/

/-- The step wakes a task that is blocked in a call and has no reply yet. -/
def State.wakesUnanswered (k : State n) : Label n → Bool
  | .run h _ =>
    match k.todo (k.sched.current h) with
    | .sched (.wake id) :: _ =>
      match waiting (k.todo id) with
      | some (.called _) => k.sched.isBlocked id && (k.ipc.replies id).isNone
      | _ => false
    | _ => false
  | _ => false

theorem Rpc.step (hk : Rpc k) (hl : l.steady = true) (hok : k.wakesUnanswered l = false) (hs : k.step l = some k') : Rpc k' := by
  have hst' := hk.steady.step hl hs
  have hflow := State.flow_step hk.steady.placement (hk.steady.delegatesReply l) hs
  have haff' := hflow.affine hk.affine
  obtain ⟨hacc, hnext⟩ := hk.steady.exchange_step hs
  have hopen' : k'.OpenCalls := by
    refine hflow.openCalls haff' hk.openCalls hacc hnext fun c j hw => ?_
    refine (hk.steady.waiting_step hs hw).imp_right ?_
    rintro ⟨h, now, rfl, rfl, ht⟩ p hp hm
    -- the call that returns was answered: its token is in the log
    obtain ⟨r, hr, rfl⟩ := hk.reply_of_resume ht
    have hans : (k.sched.current h, r.call, r.msg) ∈ k.answers (.mailbox (k.sched.current h)) := by
      simp [State.answers, hr]
    exact hp (haff'.place_eq hm (State.mem_accepted (hacc (hk.mem_accepted hans))))
  rcases State.step_cases hs with ⟨h, now, s, rest, rfl, ht, hexec⟩ | ⟨-, hnil, hk'⟩
  · have hr := hk.steady.ran ht hexec
    have hx := hk.steady.exchange ht hexec
    refine ⟨hst', haff', hk.answers_exec hr hx, hopen', fun p hp c j w hm => hk.posted_exec hr hx hp hm,
      fun c j htc hb => hk.resumed_exec hr hx ?_ htc hb⟩
    rintro id rfl hbid j hw hnone
    simp [State.wakesUnanswered, ht, hw, hbid, hnone] at hok
  have hplain := k.entry_plain l
  have htodo : k'.todo = update k.todo (k.sched.current l.hart) (k.entry l) := by rw [hk']; rfl
  have hipc : k'.ipc = k.ipc := by rw [hk']; rfl
  have hprocs : k'.procs = k.procs := by rw [hk']; rfl
  have hsched : k'.sched = k.sched := by rw [hk']; rfl
  have hans : ∀ p, k'.answers p ≤ k.answers p := by
    intro p
    cases p with
    | handler t =>
      by_cases htm : t = k.sched.current l.hart
      · simp [State.answers, htodo, htm, answersIn_of_noStash fun s hs => (hplain s hs).1]
      · simp [State.answers, htodo, htm]
    | _ => simp [State.answers, hipc]
  refine ⟨hst', haff', ?_, hopen', fun p hp c j w hm => ?_, fun c j htc hb => ?_⟩
  · rw [hprocs]
    exact hk.answers.mono hans fun _ => le_rfl
  · have hw := hk.posted p hp c j w (Multiset.mem_of_le (hans p) hm)
    have hc : c ≠ k.sched.current l.hart := by
      rintro rfl
      rw [hnil] at hw
      cases hw
    rwa [htodo, update_of_ne hc]
  · have hc : c ≠ k.sched.current l.hart := by
      rintro rfl
      rw [htodo, update_self] at htc
      cases (hplain (.resume (.called j)) (by simp [htc])).2
    rw [htodo, update_of_ne hc] at htc
    rw [hipc]
    exact hk.resumed c j htc (hsched ▸ hb)

theorem Boot.rpc (b : Boot n) : Rpc b.state where
  steady := b.steady
  affine := b.affine
  answers := by
    intro u a
    have : ∀ p, b.state.answers p = 0 := fun p => by cases p <;> rfl
    simp [this]
  openCalls := by
    intro p _ c j hm
    simp [Boot.authority] at hm
  posted := by
    intro p _ c j w hm
    cases p <;> simp [answers, Boot.state] at hm
  resumed := by
    intro c j htc
    simp [Boot.state] at htc

/-- In every run in which no task is woken from a call before its reply is there: the returns of calls
are, one for one, accepted replies, with the same caller, the same call and the same words. -/
theorem calls_return_their_replies {b : Boot n} {k : State n}
    (hrun : Runs.Reaches step (fun k l => l.steady = true ∧ k.wakesUnanswered l = false) b.state k) :
    k.ipc.returned.Subperm k.procs.accepted := by
  have hk : Rpc k := hrun.invariant (I := Rpc) b.rpc fun _ _ _ hk hok hs => hk.step hok.1 hok.2 hs
  rw [← Multiset.coe_le, Multiset.le_iff_count]
  intro a
  exact hk.answers.count_le .returned a

/-- Process `2`'s call is answered and returns the words of the reply. -/
theorem calls_return_their_replies_moved :
    ∃ k : State 1, k.ipc.returned.Subperm k.procs.accepted ∧ k.ipc.returned = [(2, 1, .replicate 4 5)] ∧
      Runs.Reaches step (fun k l => l.steady = true ∧ k.wakesUnanswered l = false) replyBoot.state k := by
  obtain ⟨k, hrun, hret⟩ : ∃ k, Runs.Reaches step (fun k l => l.steady = true ∧ k.wakesUnanswered l = false)
      replyBoot.state k ∧ k.ipc.returned = [(2, 1, .replicate 4 5)] := Runs.exists_reaches moveReply (by decide)
  exact ⟨k, calls_return_their_replies hrun, hret, hrun⟩

/-! ### A deadline left behind -/

/-- Two harts. Process `2`, on hart `0`, may wait on notification `0` and call endpoint `0`, which
nobody serves; process `3`, on hart `1`, may signal. -/
def deadlineBoot : Boot 2 where
  procs := [
    (0, { slots := [⟨0, .persistent, some ⟨.notification 0, .wait⟩, 1, 0⟩,
      ⟨0, .persistent, some ⟨.endpoint 0 0, .send⟩, 2, 0⟩] }),
    (1, { slots := [⟨0, .persistent, some ⟨.notification 0, .signal⟩, 3, 0⟩] })]
  noReply := by simp
  endpoints := 1
  notifications := 1
  nextCapId := 4

/-- Process `2` waits on hart `0` with deadline `10`, and is signalled from hart `1`, where it goes on
and calls. The timer of hart `0` then finds the deadline and wakes it. -/
def staleDeadline : List (Label 2) :=
  [.yield 0, .run 0 1, .syscall 0 (.waitNotify (.new 0 0) 10), .run 0 2, .run 0 2, .run 0 2, .run 0 2,
    .yield 1, .run 1 3, .syscall 1 (.signal (.new 0 0) 1), .run 1 4, .run 1 4, .run 1 4,
    .syscall 1 .yield, .run 1 5, .yield 1, .run 1 6, .run 1 6, .run 1 6,
    .syscall 1 (.call (.new 1 0) (.replicate 4 7) 0), .run 1 7, .run 1 7, .run 1 7,
    .timer 0 10 false, .run 0 11, .yield 0, .run 0 12, .run 0 12]

/-- The call returns zeros, though no reply was ever accepted. -/
theorem call_returns_unanswered :
    ∃ k : State 2, Runs.Reaches step (fun _ l => l.steady = true) deadlineBoot.state k ∧
      k.ipc.returned = [(2, 0, .replicate 4 0)] ∧ k.procs.accepted = [] ∧
      ¬ k.ipc.returned.Subperm k.procs.accepted := by
  obtain ⟨k, hrun, hret, hacc⟩ : ∃ k, Runs.Reaches step (fun _ l => l.steady = true) deadlineBoot.state k ∧
      k.ipc.returned = [(2, 0, .replicate 4 0)] ∧ k.procs.accepted = [] :=
    Runs.exists_reaches staleDeadline (by decide)
  refine ⟨k, hrun, hret, hacc, fun hsub => ?_⟩
  rw [hret, hacc] at hsub
  simpa using hsub.length_le

end SnitchOs.Kernel
