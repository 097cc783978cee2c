import SnitchOs.Kernel.Authority

/-!
# Reply authority is affine, unless it is delegated

In every run each call has one token at most, as long as no step delegates a reply capability from a
persistent slot. Such slots exist: a reply that transfers a reply capability re-inserts it persistent,
and a run that delegates it from there has one call answered twice.
-/

namespace SnitchOs.Kernel

open Cap Ipc Notify Sched List Runs State
open Budget

variable {n : Nat}

/-! ### Every run -/

/-- One token for each call accepted so far. -/
def issued (next : CallNo) (call : CallNo) : ℕ := if call < next then 1 else 0

theorem issued_le_one (next call : CallNo) : issued next call ≤ 1 := by
  unfold issued
  split <;> simp

/-- Every call has at most one token, whatever places one looks at. -/
def State.Affine (k : State n) : Prop :=
  Within (issued k.ipc.nextCall) fun p => (k.authority p).map Prod.snd

theorem Flow.affine (hf : Flow me k k') (ha : k.Affine) : k'.Affine := by
  unfold State.Affine at *
  rcases hf with ⟨hm, hc⟩ | ⟨p, hoff, hp, hc⟩
  · rw [hc]
    exact hm.within Prod.snd ha
  refine ha.issue p (x := k.ipc.nextCall) (fun q hq => Multiset.map_le_map (hoff q hq)) ?_ ?_ ?_
  · simpa using Multiset.map_le_map (f := Prod.snd) hp
  · simp [issued, hc]
  intro call
  unfold issued
  rw [hc]
  split
  · next hlt => rw [if_pos (Nat.lt_succ_of_lt hlt)]
  · exact Nat.zero_le _

theorem Boot.authority (b : Boot n) (p : Place) : b.state.authority p = 0 := by
  cases p with
  | table t =>
    cases he : b.entry t with
    | none => simp [State.authority, Boot.state, he]
    | some e =>
      simp only [State.authority, Boot.state, he, Option.map_some, Option.elim_some, tableAuthority]
      refine sum_eq_zero fun x hx => ?_
      obtain ⟨s, hs, rfl⟩ := mem_map.mp hx
      have hmem : e ∈ b.procs := by
        unfold Boot.entry at he
        split at he
        · cases he
        · exact mem_of_getElem? he
      unfold slotAuthority
      cases hcap : s.cap with
      | none => rfl
      | some cap =>
        obtain ⟨object, rights⟩ := cap
        cases object with
        | reply caller call =>
          exact absurd hcap (b.noReply e hmem s (CapTable.mem_live.mp hs).1 caller call rights)
        | _ => rfl
  | _ => rfl

theorem Boot.affine (b : Boot n) : b.state.Affine := by
  intro s call
  simp [Boot.authority]

theorem affine_of_reaches {b : Boot n} (hrun : Reaches step (fun k l => k.delegatesReply l = false) b.state k) : k.Affine := by
  have hboth : Placement k.sched ∧ k.Affine := by
    refine hrun.invariant (I := fun k => Placement k.sched ∧ k.Affine) ⟨b.placement, b.affine⟩ ?_
    rintro k l k' ⟨hp, ha⟩ hok hs
    exact ⟨hp.schedStep (step_sched hs), (flow_step hp hok hs).affine ha⟩
  exact hboth.2

/-! ### Holdings and accepted replies -/

def answersCall (call : CallNo) : Capability → Bool
  | ⟨.reply _ c, _⟩ => c == call
  | _ => false

/-- How many live holdings of `t` answer the call. -/
def State.holdings (k : State n) (call : CallNo) (t : TaskId) : ℕ :=
  (k.procs.tables t).elim 0 fun table => table.live.countP fun s => s.cap.any (answersCall call)

/-- How many capabilities that answer the call are stashed with a reply to `t`. -/
def State.stashed (k : State n) (call : CallNo) (t : TaskId) : ℕ :=
  if ((k.ipc.replies t).bind (·.moved)).any (answersCall call ·.cap) then 1 else 0

/-- How many replies to the call the kernel accepted. -/
def State.acceptedReplies (k : State n) (call : CallNo) : ℕ := k.procs.accepted.countP (·.2.1 == call)

/-- Reply authority is affine: whatever processes one looks at, they hold a call's reply capability
once at most, stashed replies included, and one reply to it is accepted at most. -/
structure State.AffineReplies (k : State n) : Prop where
  held : ∀ (tasks : Finset TaskId) (call : CallNo), ∑ t ∈ tasks, (k.holdings call t + k.stashed call t) ≤ 1
  accepted : ∀ call, k.acceptedReplies call ≤ 1

theorem count_capAuthority (cap : Capability) (call : CallNo) :
    ((capAuthority cap).map Prod.snd).count call = if answersCall call cap then 1 else 0 := by
  obtain ⟨object, rights⟩ := cap
  cases object with
  | reply caller c =>
    by_cases hc : c = call
    · simp [capAuthority, answersCall, hc]
    · simp [capAuthority, answersCall, hc, Ne.symm hc]
  | _ => rfl

theorem count_slotAuthority (s : Slot) (call : CallNo) :
    ((slotAuthority s).map Prod.snd).count call = if s.cap.any (answersCall call) then 1 else 0 := by
  unfold slotAuthority
  cases s.cap with
  | none => rfl
  | some cap => exact count_capAuthority cap call

theorem count_tableAuthority (t : CapTable) (call : CallNo) :
    ((tableAuthority t).map Prod.snd).count call = t.live.countP fun s => s.cap.any (answersCall call) := by
  unfold tableAuthority
  induction t.live with
  | nil => rfl
  | cons s l ih =>
    rw [map_cons, sum_cons, Multiset.map_add, Multiset.count_add, ih, count_slotAuthority, countP_cons, add_comm]

theorem State.count_table (k : State n) (call : CallNo) (t : TaskId) :
    ((k.authority (.table t)).map Prod.snd).count call = k.holdings call t := by
  simp only [authority, holdings]
  cases k.procs.tables t with
  | none => rfl
  | some table => exact count_tableAuthority table call

theorem State.count_mailbox (k : State n) (call : CallNo) (t : TaskId) :
    ((k.authority (.mailbox t)).map Prod.snd).count call = k.stashed call t := by
  simp only [authority, stashed]
  cases k.ipc.replies t with
  | none => rfl
  | some r =>
    cases hm : r.moved with
    | none => simp [replyAuthority, hm]
    | some m => simpa [replyAuthority, hm] using count_capAuthority m.cap call

theorem State.count_accepted (k : State n) (call : CallNo) :
    ((k.authority .accepted).map Prod.snd).count call = k.acceptedReplies call := by
  simp only [authority, acceptedReplies, Multiset.map_coe, map_map, Multiset.coe_count, List.count, countP_map]
  rfl

def holders (tasks : Finset TaskId) : Finset Place := tasks.image .table ∪ tasks.image .mailbox

theorem State.Affine.replies {k : State n} (ha : k.Affine) : k.AffineReplies where
  held := by
    intro tasks call
    have hdisj : Disjoint (tasks.image Place.table) (tasks.image Place.mailbox) := by
      simp [Finset.disjoint_left]
    have hsum := ha (holders tasks) call
    rw [holders, Finset.sum_union hdisj, Finset.sum_image (by simp), Finset.sum_image (by simp),
      Multiset.count_add, Multiset.count_sum', Multiset.count_sum'] at hsum
    simp only [count_table, count_mailbox] at hsum
    rw [Finset.sum_add_distrib]
    exact hsum.trans (issued_le_one _ _)
  accepted := by
    intro call
    rw [← count_accepted]
    exact (ha.count_le .accepted call).trans (issued_le_one _ _)

/-- In every run in which no persistent reply capability is delegated, reply authority is affine. -/
theorem reply_authority_affine {b : Boot n} {k : State n}
    (hrun : Reaches step (fun k l => k.delegatesReply l = false) b.state k) : k.AffineReplies :=
  (affine_of_reaches hrun).replies

/-! ### A reply capability moved, then delegated -/

/-- One hart; process `1` serves endpoint `0`, processes `2` and `3` call it. -/
def replyBoot : Boot 1 where
  procs := [
    (0, { slots := [⟨0, .persistent, some ⟨.endpoint 0 0, .recv⟩, 1, 0⟩] }),
    (0, { slots := [⟨0, .persistent, some ⟨.endpoint 0 0, .send⟩, 2, 0⟩] }),
    (0, { slots := [⟨0, .persistent, some ⟨.endpoint 0 0, .send⟩, 3, 0⟩] })]
  noReply := by simp
  endpoints := 1
  nextCapId := 4

/-- Process `3` makes call `0` and process `2` call `1`. The server receives both and answers call `1`,
transferring the reply capability of call `0`, which process `2` inserts. -/
def moveReply : List (Label 1) :=
  [.yield 0, .run 0 1,
    .syscall 0 (.call (.new 0 0) (.replicate 4 0) 0), .run 0 2, .run 0 2, .run 0 2,
    .syscall 0 (.call (.new 0 0) (.replicate 4 0) 0), .run 0 3, .run 0 3, .run 0 3,
    .syscall 0 (.receive (.new 0 0)), .run 0 4, .run 0 4, .run 0 4,
    .syscall 0 (.receive (.new 0 0)), .run 0 4, .run 0 4, .run 0 4,
    .syscall 0 (.reply (.new 2 0) (.replicate 4 5) (some (.new 1 0))), .run 0 5, .run 0 5, .run 0 5,
    .syscall 0 .yield, .run 0 6, .yield 0, .run 0 7, .run 0 8, .run 0 8]

/-- Process `2` answers call `0`. -/
def answerMoved : List (Label 1) := [.syscall 0 (.reply (.new 1 0) (.replicate 4 1) none), .run 0 13]

theorem reply_authority_affine_moved :
    ∃ k, k.AffineReplies ∧ k.acceptedReplies 0 = 1 ∧ k.acceptedReplies 1 = 1 ∧
      Reaches step (fun k l => k.delegatesReply l = false) replyBoot.state k := by
  obtain ⟨k, hrun, h0, h1⟩ : ∃ k, Reaches step (fun k l => k.delegatesReply l = false) replyBoot.state k ∧
      k.acceptedReplies 0 = 1 ∧ k.acceptedReplies 1 = 1 :=
    exists_reaches (moveReply ++ answerMoved) (by decide)
  exact ⟨k, reply_authority_affine hrun, h0, h1, hrun⟩

/-- Process `2` delegates the reply capability to a child, number `4`, which builds its table. -/
def delegateReply : List (Label 1) :=
  [.syscall 0 (.spawn none [.new 1 0]), .run 0 9, .run 0 9, .run 0 9, .run 0 9,
    .syscall 0 .yield, .run 0 10, .syscall 0 .yield, .run 0 11, .yield 0, .run 0 12, .run 0 12]

/-- The child answers call `0`, and so does process `2`. -/
def answerTwice : List (Label 1) :=
  [.syscall 0 (.reply (.new 2 0) (.replicate 4 2) none), .run 0 12, .run 0 12, .run 0 12,
    .syscall 0 .yield, .run 0 12] ++ answerMoved

/-- Two processes hold the reply capability of one call, and the kernel accepts a reply from both. -/
theorem moved_reply_answered_twice :
    ∃ k k' : State 1, Reaches step (fun _ _ => True) replyBoot.state k ∧
      Reaches step (fun _ _ => True) k k' ∧ k.holdings 0 2 = 1 ∧ k.holdings 0 4 = 1 ∧
      k'.acceptedReplies 0 = 2 ∧ ¬ k.AffineReplies ∧ ¬ k'.AffineReplies := by
  have hrun : (exec step replyBoot.state (moveReply ++ delegateReply)).any (fun k =>
      (k.holdings 0 2 = 1 ∧ k.holdings 0 4 = 1) ∧
        (exec step k answerTwice).any (fun k' => k'.acceptedReplies 0 = 2) = true) = true := by
    decide
  obtain ⟨k, hk, hprops⟩ := (Option.any_eq_true _ _).mp hrun
  obtain ⟨⟨h2, h4⟩, htwice⟩ := of_decide_eq_true hprops
  obtain ⟨k', hk', hacc⟩ := (Option.any_eq_true _ _).mp htwice
  have hacc := of_decide_eq_true hacc
  refine ⟨k, k', reaches_of_exec hk fun _ _ _ => trivial,
    reaches_of_exec hk' fun _ _ _ => trivial, h2, h4, hacc, fun ha => ?_, fun ha => ?_⟩
  · have := ha.held {2, 4} 0
    rw [Finset.sum_pair (by decide)] at this
    omega
  · have := ha.accepted 0
    omega

end SnitchOs.Kernel
