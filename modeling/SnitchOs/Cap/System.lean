import SnitchOs.Lib.Runs
import SnitchOs.Cap.Handlers

/-!
# The capability tables of the whole system

All live processes' tables under every operation that grants, copies, moves or drops a holding, each one section under
the table's lock. Beside them stand the two places a capability waits in between tables: the spawn request of a child
that has not started, and the reply mailbox of a caller that has not resumed. `derived` is ghost: every mint,
delegation and transfer, from source to copy.
-/

namespace SnitchOs.Cap

open CapTable Function List Tables

namespace Tables

def get (ts : Tables) (task : TaskId) : Option CapTable :=
  match ts with
  | [] => none
  | p :: rest => if p.1 = task then some p.2 else get rest task

def set (ts : Tables) (task : TaskId) (t : CapTable) : Tables :=
  match ts with
  | [] => []
  | p :: rest => if p.1 = task then (p.1, t) :: rest else p :: set rest task t

end Tables

structure System where
  tables : Tables := []
  /-- The value of `NEXT_CAP_ID` had it never wrapped. -/
  nextCapId : Nat := 1
  nextTaskId : TaskId := 0
  /-- Spawn requests of children that have not started. -/
  spawns : List (TaskId × List Moved) := []
  /-- Capabilities in the reply mailboxes, by caller. -/
  replies : TaskId → Option Moved := fun _ => none
  derived : List (Nat × Nat) := []

namespace System

/-- The id the next `fetch_add` on the `u64` counter answers. -/
def drawId (s : System) : Nat := s.nextCapId % 2 ^ 64

/-- Grant `cap` in the table of `task` under a fresh id, as derived from `parent` (`0`: a root). -/
def grantIn (s : System) (task : TaskId) (cap : Capability) (m : Multiplicity) (parent : Nat) : System :=
  match s.tables.get task with
  | none => s
  | some t =>
    { s with
      tables := s.tables.set task (t.grant cap m s.drawId parent).2
      nextCapId := s.nextCapId + 1
      derived := if parent = 0 then s.derived else (parent, s.drawId) :: s.derived }

/-- The two authorities every process is born with, roots of the derivation tree. -/
def bootstrap : List Moved := [⟨⟨.telemetrySink, .emit⟩, 0⟩, ⟨⟨.spanSink, .emit⟩, 0⟩]

/-- Publish a process: a new table with the bootstrap authorities, then what the process is handed. -/
def publish (s : System) (task : TaskId) (handed : List Moved) : System :=
  (bootstrap ++ handed).foldl (fun s m => s.grantIn task m.cap .persistent m.parentCapId)
    { s with tables := s.tables ++ [(task, CapTable.new)] }

end System

/-- The operations on the tables. `boot` is a process the kernel starts itself, with root grants;
`mintProcessCap` and `replyHandleFor` are the kernel-installed lifecycle and reply capabilities;
`cancelReply` is what killing a task does to its mailbox; a process that exits keeps its table until
it is reaped; `revoke` is the walk, for the id `handle_revoke` read through the caller's handle. -/
inductive SysOp
  | boot (grants : List Capability)
  | endpointCreate (task : TaskId) (id : EndpointId)
  | notifyCreate (task : TaskId) (id : NotificationId)
  | mintProcessCap (task child : TaskId)
  | replyHandleFor (task caller : TaskId) (call : CallNo)
  | mintBadged (task : TaskId) (h : Handle) (badge : UInt64) (rights : Rights)
  | spawn (task : TaskId) (handles : List Handle)
  | start (child : TaskId)
  | reply (task : TaskId) (h : Handle) (transfer : Option Handle)
  | callReturn (task : TaskId)
  | consume (task : TaskId) (h : Handle)
  | cancelReply (task : TaskId)
  | reap (task : TaskId)
  | revoke (r : Nat)

namespace System

/-- One operation; `none` when the acting process has no table. A refused operation changes nothing,
except that a refused `MintBadged` has already drawn its id. -/
def step (s : System) : SysOp → Option System
  | .boot grants =>
    some ({ s with nextTaskId := s.nextTaskId + 1 }.publish s.nextTaskId (grants.map (⟨·, 0⟩)))
  | .endpointCreate task id =>
    (s.tables.get task).map fun _ =>
      s.grantIn task ⟨.endpoint id 0, Rights.recv.union .mint⟩ .persistent 0
  | .notifyCreate task id =>
    (s.tables.get task).map fun _ =>
      s.grantIn task ⟨.notification id, Rights.signal.union .wait⟩ .persistent 0
  | .mintProcessCap task child =>
    (s.tables.get task).map fun _ => s.grantIn task ⟨.process child, .kill⟩ .persistent 0
  | .replyHandleFor task caller call =>
    (s.tables.get task).map fun _ => s.grantIn task ⟨.reply caller call, .none⟩ .once 0
  | .mintBadged task h badge rights =>
    (s.tables.get task).map fun t =>
      match handleMintBadged t h badge rights s.drawId with
      | .ok (_, t') =>
        { s with
          tables := s.tables.set task t'
          nextCapId := s.nextCapId + 1
          derived := if t.capIdOrZero h = 0 then s.derived else (t.capIdOrZero h, s.drawId) :: s.derived }
      | .error _ => { s with nextCapId := s.nextCapId + 1 }
  | .spawn task handles =>
    (s.tables.get task).map fun t =>
      match delegateFromUser t handles with
      | .ok ms =>
        { s with nextTaskId := s.nextTaskId + 1, spawns := s.spawns ++ [(s.nextTaskId, ms)] }
      | .error _ => s
  | .start child =>
    (s.spawns.lookup child).map fun ms =>
      let s := s.publish child ms
      { s with spawns := s.spawns.filter (·.1 ≠ child) }
  | .reply task h transfer =>
    (s.tables.get task).map fun t =>
      match replyViaCap t h transfer with
      | .ok ((caller, _), moved, t') =>
        { s with tables := s.tables.set task t', replies := update s.replies caller moved }
      | .error _ => s
  | .callReturn task =>
    some <|
      match s.replies task with
      | some m =>
        let s := s.grantIn task m.cap .persistent m.parentCapId
        { s with replies := update s.replies task none }
      | none => s
  | .consume task h =>
    (s.tables.get task).map fun t => { s with tables := s.tables.set task (t.consume h).2 }
  | .cancelReply task => some { s with replies := update s.replies task none }
  | .reap task =>
    some { s with tables := s.tables.filter (·.1 ≠ task), spawns := s.spawns.filter (·.1 ≠ task) }
  | .revoke r => some { s with tables := (revokeDescendantsOf r s.tables).1 }

/-! ### Live ids, capabilities in transit and derivation -/

def LiveId (s : System) (d : Nat) : Prop := ∃ x ∈ holdings s.tables, x.2.capId = d

/-- A capability taken from the holding `q` waits in a spawn request or a reply mailbox. -/
def InTransit (s : System) (q : Nat) : Prop :=
  (∃ p ∈ s.spawns, ∃ m ∈ p.2, m.parentCapId = q) ∨ ∃ task m, s.replies task = some m ∧ m.parentCapId = q

/-- Something derived directly from `q` is live or in transit. -/
def Sourced (s : System) (q : Nat) : Prop :=
  (q ≠ 0 ∧ ∃ x ∈ holdings s.tables, x.2.parentCapId = q) ∨ s.InTransit q

/-- `c` stems from `h` by a chain of mints, delegations and transfers. -/
def Derives (s : System) : Nat → Nat → Prop :=
  Relation.TransGen fun p c => (p, c) ∈ s.derived

/-- Ids are handed out in increasing order, to one holding each, and the recorded parent of a live
holding is the source it was derived from. -/
structure Ids (s : System) : Prop where
  pos : 0 < s.nextCapId
  nodup : ((holdings s.tables).map (·.2.capId)).Nodup
  bound : ∀ x ∈ holdings s.tables,
    0 < x.2.capId ∧ x.2.capId < s.nextCapId ∧ x.2.parentCapId < x.2.capId
  transit : ∀ q, s.InTransit q → 0 < q ∧ q < s.nextCapId
  edge : ∀ p c, (p, c) ∈ s.derived → 0 < p ∧ p < c ∧ c < s.nextCapId
  source : ∀ x ∈ holdings s.tables, ∀ p, (p, x.2.capId) ∈ s.derived ↔ p ≠ 0 ∧ p = x.2.parentCapId

variable {s : System}

theorem Ids.distinct (hs : s.Ids) : DistinctIds s.tables where
  nodup := hs.nodup
  ne_zero := fun x hx => Nat.ne_of_gt (hs.bound x hx).1

theorem Ids.live_lt (hs : s.Ids) (hd : s.LiveId d) : 0 < d ∧ d < s.nextCapId := by
  obtain ⟨x, hx, rfl⟩ := hd
  exact ⟨(hs.bound x hx).1, (hs.bound x hx).2.1⟩

theorem Ids.sourced_lt (hs : s.Ids) (hq : s.Sourced q) : 0 < q ∧ q < s.nextCapId := by
  rcases hq with ⟨hne, x, hx, rfl⟩ | hq
  · have := hs.bound x hx
    omega
  · exact hs.transit q hq

theorem Ids.derives_lt (hs : s.Ids) (hd : s.Derives h c) : h < c ∧ c < s.nextCapId := by
  induction hd with
  | single he => exact (hs.edge _ _ he).2
  | tail _ he ih =>
    have := hs.edge _ _ he
    omega

/-! ### What one operation can do

An operation either only adds (`Grow`, possibly several times) or drops a set of holdings at once
(`Shrink`). -/

/-- One addition: an id drawn in vain, an empty table, a grant, or a change of what is in transit
that takes only from live holdings. -/
inductive Grow (s : System) : System → Prop
  | draw : Grow s { s with nextCapId := s.nextCapId + 1 }
  | table (task : TaskId) : Grow s { s with tables := s.tables ++ [(task, CapTable.new)] }
  | grant {task : TaskId} {t : CapTable} (cap : Capability) (m : Multiplicity) (parent : Nat)
      (hget : s.tables.get task = some t) (hp : parent = 0 ∨ s.LiveId parent ∨ s.Sourced parent) :
      Grow s (s.grantIn task cap m parent)
  | transit (n : TaskId) (spawns : List (TaskId × List Moved)) (replies : TaskId → Option Moved)
      (h : ∀ q, { s with nextTaskId := n, spawns, replies }.InTransit q → s.InTransit q ∨ s.LiveId q) :
      Grow s { s with nextTaskId := n, spawns, replies }

/-- The holdings whose id is in `D` are gone; what is in transit was so before, or was taken from one
of the live holdings `M`. -/
structure Shrink (D M : Nat → Prop) (s s' : System) : Prop where
  nextCapId : s'.nextCapId = s.nextCapId
  derived : s'.derived = s.derived
  nodup : ((holdings s.tables).map (·.2.capId)).Nodup → ((holdings s'.tables).map (·.2.capId)).Nodup
  mem : ∀ x, x ∈ holdings s'.tables ↔ x ∈ holdings s.tables ∧ ¬ D x.2.capId
  transit : ∀ q, s'.InTransit q → s.InTransit q ∨ M q
  moved : ∀ q, M q → s.LiveId q

end System

variable {task : TaskId} {t : CapTable} {ts : Tables} {D M : Nat → Prop}
  {replies : TaskId → Option Moved} {h : Handle} {a : Slot}
  {k : TaskId} {m : Moved} {op : SysOp}

namespace Tables

theorem exists_of_get (h : ts.get task = some t) :
    ∃ pre post, ts = pre ++ (task, t) :: post ∧ ∀ t', ts.set task t' = pre ++ (task, t') :: post := by
  induction ts with
  | nil => cases h
  | cons p rest ih =>
    obtain ⟨k, u⟩ := p
    by_cases hk : k = task
    · subst hk
      simp only [get, if_true, Option.some.injEq] at h
      subst h
      exact ⟨[], rest, rfl, fun t' => by simp [set]⟩
    · simp only [get, hk, if_false] at h
      obtain ⟨pre, post, hts, hset⟩ := ih h
      refine ⟨(k, u) :: pre, post, by rw [hts]; rfl, fun t' => ?_⟩
      simp [set, hk, hset, cons_append]

theorem get_set (h : ts.get task = some t) (t' : CapTable) : (ts.set task t').get task = some t' := by
  induction ts with
  | nil => cases h
  | cons p rest ih =>
    by_cases hk : p.1 = task
    · simp [set, get, hk]
    simp only [get, hk, if_false] at h
    simp only [set, get, hk, if_false]
    exact ih h

theorem set_set (t t' : CapTable) : (ts.set task t).set task t' = ts.set task t' := by
  induction ts with
  | nil => rfl
  | cons p rest ih =>
    by_cases hk : p.1 = task
    · simp [set, hk]
    · simp [set, hk, ih]

theorem set_get (h : ts.get task = some t) : ts.set task t = ts := by
  obtain ⟨pre, post, hts, hset⟩ := exists_of_get h
  rw [hset, hts]

theorem get_append_new (ts : Tables) (task : TaskId) : ∃ t, get (ts ++ [(task, CapTable.new)]) task = some t := by
  induction ts with
  | nil => exact ⟨.new, by simp [get]⟩
  | cons p rest ih =>
    by_cases hk : p.1 = task
    · exact ⟨p.2, by simp [get, hk]⟩
    · simpa [get, hk] using ih

end Tables

theorem holdings_append (a b : Tables) : holdings (a ++ b) = holdings a ++ holdings b :=
  flatMap_append

theorem holdings_of_get (h : ts.get task = some t) (hs : s ∈ t.live) : (task, s) ∈ holdings ts := by
  obtain ⟨pre, post, rfl, -⟩ := exists_of_get h
  exact mem_holdings.mpr ⟨t, mem_append_right _ mem_cons_self, hs⟩

theorem holdings_grant_perm (h : ts.get task = some t) (cap : Capability) (m : Multiplicity) (id par : Nat) :
    (holdings (ts.set task (t.grant cap m id par).2)).Perm
      ((task, ⟨t.landingGeneration, m, some cap, id, par⟩) :: holdings ts) := by
  obtain ⟨pre, post, hts, hset⟩ := exists_of_get h
  rw [hset, hts, holdings_append, holdings_append, holdings_cons, holdings_cons]
  have hperm := ((live_grant_perm t cap m id par).map (task, ·)).append_right (holdings post)
  exact (hperm.append_left (holdings pre)).trans perm_middle

theorem holdings_freeAt_perm (h : ts.get task = some t) (hi : t.slots[i]? = some s)
    (hs : s.cap.isSome) : (holdings ts).Perm ((task, s) :: holdings (ts.set task (t.freeAt i))) := by
  obtain ⟨pre, post, hts, hset⟩ := exists_of_get h
  rw [hset, hts, holdings_append, holdings_append, holdings_cons, holdings_cons]
  have hperm := ((live_freeAt_perm hi hs).map (task, ·)).append_right (holdings post)
  exact (hperm.append_left (holdings pre)).trans perm_middle

theorem mem_of_perm_cons {L L' : List (TaskId × Slot)} (hp : L.Perm (y :: L'))
    (hn : (L.map (·.2.capId)).Nodup) (x : TaskId × Slot) : x ∈ L' ↔ x ∈ L ∧ x.2.capId ≠ y.2.capId := by
  have hn' := (hp.map (·.2.capId)).nodup_iff.mp hn
  rw [map_cons, nodup_cons] at hn'
  rw [hp.mem_iff, mem_cons]
  constructor
  · intro hx
    refine ⟨.inr hx, fun heq => hn'.1 ?_⟩
    rw [← heq]
    exact mem_map_of_mem hx
  · rintro ⟨rfl | hx, hne⟩
    · exact absurd rfl hne
    · exact hx

namespace System

variable {s s' : System}

theorem grantIn_of_get (hget : s.tables.get task = some t) (cap : Capability) (m : Multiplicity)
    (parent : Nat) : s.grantIn task cap m parent = { s with
        tables := s.tables.set task (t.grant cap m s.drawId parent).2
        nextCapId := s.nextCapId + 1
        derived := if parent = 0 then s.derived else (parent, s.drawId) :: s.derived } := by
  simp [grantIn, hget]

theorem drawId_eq (h : s.nextCapId + 1 ≤ 2 ^ 64) : s.drawId = s.nextCapId :=
  Nat.mod_eq_of_lt (by omega)

theorem mem_derived_grant {derived : List (Nat × Nat)} : (p, c) ∈ (if parent = 0 then derived else (parent, n) :: derived) ↔
      (p, c) ∈ derived ∨ parent ≠ 0 ∧ p = parent ∧ c = n := by
  by_cases hp : parent = 0
  · simp [hp]
  · simp [hp, or_comm]

theorem Ids.empty : Ids {} where
  pos := Nat.one_pos
  nodup := nodup_nil
  bound := by simp [holdings]
  transit := by simp [InTransit]
  edge := by simp
  source := by simp [holdings]

theorem Ids.grantIn (hs : s.Ids) (hget : s.tables.get task = some t) (cap : Capability)
    (m : Multiplicity) (hp : parent < s.nextCapId) (hcount : s.nextCapId + 1 ≤ 2 ^ 64) : (s.grantIn task cap m parent).Ids := by
  rw [grantIn_of_get hget, drawId_eq hcount]
  have hperm := holdings_grant_perm hget cap m s.nextCapId parent
  have hmem : ∀ x, x ∈ holdings (s.tables.set task (t.grant cap m s.nextCapId parent).2) ↔
      x = (task, ⟨t.landingGeneration, m, some cap, s.nextCapId, parent⟩) ∨ x ∈ holdings s.tables :=
    fun x => by rw [hperm.mem_iff, mem_cons]
  refine ⟨Nat.succ_pos _, ?_, ?_, ?_, ?_, ?_⟩
  · rw [(hperm.map _).nodup_iff, map_cons, nodup_cons]
    refine ⟨fun hin => ?_, hs.nodup⟩
    obtain ⟨x, hx, hid⟩ := mem_map.mp hin
    exact absurd hid (Nat.ne_of_lt (hs.bound x hx).2.1)
  · intro x hx
    rcases (hmem x).mp hx with rfl | hx
    · exact ⟨hs.pos, Nat.lt_succ_self _, hp⟩
    have := hs.bound x hx
    exact ⟨this.1, by simp only; omega, this.2.2⟩
  · intro q hq
    have := hs.transit q hq
    exact ⟨this.1, by simp only; omega⟩
  · intro p c hpc
    simp only at hpc ⊢
    rcases mem_derived_grant.mp hpc with hpc | ⟨hne, rfl, rfl⟩
    · have := hs.edge p c hpc
      omega
    · omega
  intro x hx p
  rw [mem_derived_grant]
  rcases (hmem x).mp hx with rfl | hx
  · -- no older edge ends in the fresh id
    constructor
    · rintro (hpc | ⟨hne, rfl, -⟩)
      · exact absurd (hs.edge _ _ hpc).2.2 (lt_irrefl _)
      · exact ⟨hne, rfl⟩
    · rintro ⟨hne, rfl⟩
      exact .inr ⟨hne, rfl, rfl⟩
  · rw [← hs.source x hx p]
    constructor
    · rintro (hpc | ⟨-, -, hid⟩)
      · exact hpc
      have := (hs.bound x hx).2.1
      omega
    · exact .inl

theorem holdings_append_new (ts : Tables) (task : TaskId) : holdings (ts ++ [(task, CapTable.new)]) = holdings ts := by
  simp [holdings, CapTable.new, live]

theorem Grow.nextCapId_le (hg : Grow s s') : s.nextCapId ≤ s'.nextCapId := by
  cases hg with
  | draw => exact Nat.le_succ _
  | table task | transit n spawns replies h => exact le_rfl
  | grant cap m parent hget hp =>
    rw [grantIn_of_get hget]
    exact Nat.le_succ _

theorem Ids.grow (hs : s.Ids) (hg : Grow s s') (hcount : s'.nextCapId ≤ 2 ^ 64) : s'.Ids := by
  cases hg with
  | draw =>
    obtain ⟨pos, nodup, bound, transit, edge, source⟩ := hs
    refine ⟨Nat.succ_pos _, nodup, fun x hx => ?_, fun q hq => ?_, fun p c hpc => ?_, source⟩
    · have := bound x hx
      exact ⟨this.1, by simp only; omega, this.2.2⟩
    · have := transit q hq
      exact ⟨this.1, by simp only; omega⟩
    · have := edge p c hpc
      exact ⟨this.1, this.2.1, by simp only; omega⟩
  | table task =>
    obtain ⟨pos, nodup, bound, transit, edge, source⟩ := hs
    refine ⟨pos, ?_, ?_, transit, edge, ?_⟩
    · simpa only [holdings_append_new] using nodup
    · simpa only [holdings_append_new] using bound
    · simpa only [holdings_append_new] using source
  | grant cap m parent hget hp =>
    refine hs.grantIn hget cap m ?_ ?_
    · rcases hp with rfl | hp | hp
      · exact hs.pos
      · exact (hs.live_lt hp).2
      · exact (hs.sourced_lt hp).2
    · rwa [grantIn_of_get hget] at hcount
  | transit n spawns replies h =>
    obtain ⟨pos, nodup, bound, transit, edge, source⟩ := hs
    refine ⟨pos, nodup, bound, fun q hq => ?_, edge, source⟩
    rcases h q hq with hq | ⟨x, hx, rfl⟩
    · exact transit q hq
    · exact ⟨(bound x hx).1, (bound x hx).2.1⟩

theorem Ids.shrink (hs : s.Ids) (hsh : Shrink D M s s') : s'.Ids := by
  refine ⟨?_, hsh.nodup hs.nodup, fun x hx => ?_, fun q hq => ?_, fun p c hpc => ?_, fun x hx p => ?_⟩
  · rw [hsh.nextCapId]
    exact hs.pos
  · rw [hsh.nextCapId]
    exact hs.bound x ((hsh.mem x).mp hx).1
  · rw [hsh.nextCapId]
    rcases hsh.transit q hq with hq | hq
    · exact hs.transit q hq
    · exact hs.live_lt (hsh.moved q hq)
  · rw [hsh.nextCapId]
    rw [hsh.derived] at hpc
    exact hs.edge p c hpc
  · rw [hsh.derived]
    exact hs.source x ((hsh.mem x).mp hx).1 p

/-! ### The operations, case by case -/

/-- The holdings an operation drops, by id: the reply capability and the moved holding of an accepted
reply, a consumed holding, everything in a reaped process's table, the live descendants of a revoked
id. -/
def Drops (s : System) (op : SysOp) (d : Nat) : Prop :=
  match op with
  | .reply task h transfer => ∃ t, s.tables.get task = some t ∧ (∃ who, invokeReply t h = .ok who) ∧
      (t.capIdOf h = .ok d ∨ ∃ th, transfer = some th ∧ t.capIdOf th = .ok d)
  | .consume task h => ∃ t, s.tables.get task = some t ∧ t.capIdOf h = .ok d
  | .reap task => ∃ x ∈ holdings s.tables, x.1 = task ∧ x.2.capId = d
  | .revoke r => Desc s.tables r d
  | _ => False

/-- The holding an accepted reply moves into its caller's mailbox, by id. -/
def Moves (s : System) (op : SysOp) (q : Nat) : Prop :=
  match op with
  | .reply task h transfer => ∃ t th, s.tables.get task = some t ∧ (∃ who, invokeReply t h = .ok who) ∧
      transfer = some th ∧ th.index.toNat ≠ h.index.toNat ∧ t.capIdOf th = .ok q
  | _ => False

/-- A chain of additions. -/
abbrev Grows : System → System → Prop := Relation.ReflTransGen Grow

theorem Grow.transit_le {spawns : List (TaskId × List Moved)} (hsp : ∀ p ∈ spawns, p ∈ s.spawns)
    (hrep : ∀ task m, replies task = some m → s.replies task = some m) : Grow s { s with nextTaskId := n, spawns, replies } := by
  refine .transit n spawns replies fun q hq => .inl ?_
  rcases hq with ⟨p, hp, m, hm, rfl⟩ | ⟨task, m, hm, rfl⟩
  · exact .inl ⟨p, hsp p hp, m, hm, rfl⟩
  · exact .inr ⟨task, m, hrep task m hm, rfl⟩

theorem get_grantIn (hget : s.tables.get task = some t) (cap : Capability) (m : Multiplicity) (parent : Nat) :
    ∃ t', (s.grantIn task cap m parent).tables.get task = some t' := by
  rw [grantIn_of_get hget]
  exact ⟨_, get_set hget _⟩

theorem inTransit_grantIn (hget : s.tables.get task = some t) (cap : Capability) (m : Multiplicity)
    (parent q : Nat) : (s.grantIn task cap m parent).InTransit q ↔ s.InTransit q := by
  rw [grantIn_of_get hget]
  rfl

theorem grows_foldl_grantIn (handed : List Moved) : ∀ {s : System} {t : CapTable},
    s.tables.get task = some t → (∀ m ∈ handed, m.parentCapId = 0 ∨ s.InTransit m.parentCapId) →
      Grows s (handed.foldl (fun s m => s.grantIn task m.cap .persistent m.parentCapId) s) := by
  induction handed with
  | nil => exact fun _ _ => .refl
  | cons m rest ih =>
    intro s t hget h
    obtain ⟨t', hget'⟩ := get_grantIn hget m.cap .persistent m.parentCapId
    have hp : m.parentCapId = 0 ∨ s.LiveId m.parentCapId ∨ s.Sourced m.parentCapId :=
      (h m mem_cons_self).imp_right fun hq => .inr (.inr hq)
    refine .head (.grant m.cap .persistent m.parentCapId hget hp) (ih hget' fun m' hm' => ?_)
    rw [inTransit_grantIn hget]
    exact h m' (mem_cons_of_mem _ hm')

theorem grows_publish (h : ∀ m ∈ handed, m.parentCapId = 0 ∨ s.InTransit m.parentCapId) : Grows s (s.publish task handed) := by
  obtain ⟨t, hget⟩ := get_append_new s.tables task
  refine .head (.table task) (grows_foldl_grantIn _ hget fun m hm => ?_)
  rcases mem_append.mp hm with hm | hm
  · left
    simp only [bootstrap, mem_cons, not_mem_nil, or_false] at hm
    rcases hm with rfl | rfl <;> rfl
  · exact h m hm

theorem lookup_freeAt_eq_ok : (t.freeAt i).lookup h = .ok (a, cap) ↔ h.index.toNat ≠ i ∧ t.lookup h = .ok (a, cap) := by
  rw [lookup_eq_ok_iff, lookup_eq_ok_iff, getElem?_freeAt]
  by_cases hi : h.index.toNat = i
  · rw [if_pos hi]
    constructor
    · rintro ⟨ha, -, hcap⟩
      obtain ⟨b, -, rfl⟩ := Option.map_eq_some_iff.mp ha
      cases hcap
    · rintro ⟨hne, -⟩
      exact absurd hi hne
  · simp [hi]

theorem shrink_freeAt (hs : s.Ids) (hget : s.tables.get task = some t) (hl : t.lookup h = .ok (a, cap)) :
    Shrink (· = a.capId) (fun _ => False) s { s with tables := s.tables.set task (t.freeAt h.index.toNat) } := by
  obtain ⟨ha, -, hcap⟩ := lookup_eq_ok_iff.mp hl
  have hperm := holdings_freeAt_perm hget ha (by rw [hcap]; rfl)
  refine ⟨rfl, rfl, fun hn => ?_, fun x => mem_of_perm_cons hperm hs.nodup x, fun q hq => .inl hq, fun _ => False.elim⟩
  exact (nodup_cons.mp ((hperm.map (·.2.capId)).nodup_iff.mp hn)).2

theorem Shrink.congr {D' M' : Nat → Prop} (hsh : Shrink D M s s')
    (hD : ∀ x ∈ holdings s.tables, (D x.2.capId ↔ D' x.2.capId)) (hM : ∀ q, M q ↔ M' q) : Shrink D' M' s s' where
  nextCapId := hsh.nextCapId
  derived := hsh.derived
  nodup := hsh.nodup
  mem := fun x => by
    rw [hsh.mem]
    exact and_congr_right fun hx => not_congr (hD x hx)
  transit := fun q hq => (hsh.transit q hq).imp_right (hM q).mp
  moved := fun q hq => hsh.moved q ((hM q).mpr hq)

theorem Shrink.trans {E : Nat → Prop} (h₁ : Shrink D (fun _ => False) s s₁)
    (h₂ : Shrink E (fun _ => False) s₁ s₂) : Shrink (fun d => D d ∨ E d) (fun _ => False) s s₂ where
  nextCapId := h₂.nextCapId.trans h₁.nextCapId
  derived := h₂.derived.trans h₁.derived
  nodup := fun hn => h₂.nodup (h₁.nodup hn)
  mem := fun x => by rw [h₂.mem, h₁.mem, not_or, and_assoc]
  transit := fun q hq => .inl <|
    ((h₁.transit q ((h₂.transit q hq).resolve_right id)).resolve_right id)
  moved := fun _ => False.elim

/-- A drop after which the mailbox of `caller` holds what was moved out of a live holding. -/
theorem Shrink.stash (hsh : Shrink D (fun _ => False) s s') (caller : TaskId) (moved : Option Moved)
    (hm : ∀ m, moved = some m → s.LiveId m.parentCapId) : Shrink D (fun q => ∃ m, moved = some m ∧ m.parentCapId = q) s
      { s' with replies := update s.replies caller moved } where
  nextCapId := hsh.nextCapId
  derived := hsh.derived
  nodup := hsh.nodup
  mem := hsh.mem
  transit := fun q hq => by
    rcases hq with ⟨p, hp, m, hmem, rfl⟩ | ⟨task, m, hmem, rfl⟩
    · exact .inl ((hsh.transit _ (.inl ⟨p, hp, m, hmem, rfl⟩)).resolve_right id)
    by_cases htask : task = caller
    · subst htask
      simp only [update_self] at hmem
      exact .inr ⟨m, hmem, rfl⟩
    · simp only [update_of_ne htask] at hmem
      exact .inl (.inr ⟨task, m, hmem, rfl⟩)
  moved := fun q hq => by
    obtain ⟨m, hmem, rfl⟩ := hq
    exact hm m hmem

theorem shrink_reply (hs : s.Ids) (hget : s.tables.get task = some t)
    (hr : replyViaCap t h transfer = .ok ((caller, call), moved, t')) :
    Shrink (s.Drops (.reply task h transfer)) (s.Moves (.reply task h transfer)) s
      { s with tables := s.tables.set task t', replies := update s.replies caller moved } := by
  obtain ⟨a, rights, hl, hcase⟩ := replyViaCap_eq_ok hr
  have hinvoke : ∃ who, invokeReply t h = .ok who := by
    simp only [replyViaCap] at hr
    split at hr
    · cases hr
    · next who hwho => exact ⟨who, hwho⟩
  have hida : t.capIdOf h = .ok a.capId := capIdOf_eq_ok_iff.mpr ⟨a, _, hl, rfl⟩
  have hfirst := shrink_freeAt hs hget hl
  rcases hcase with ⟨rfl, rfl⟩ | ⟨th, b, cap, rfl, hlb, rfl, rfl⟩
  · -- a transfer handle that resolves, yet moves nothing, names the reply capability itself
    have hsame : ∀ th d, transfer = some th → t.capIdOf th = .ok d → th.index.toNat = h.index.toNat := by
      rintro th d rfl hd
      obtain ⟨b, cap, hlb, -⟩ := capIdOf_eq_ok_iff.mp hd
      by_contra hidx
      have hres : (t.freeAt h.index.toNat).resolve th = .ok cap :=
        resolve_eq_ok_iff.mpr ⟨b, lookup_freeAt_eq_ok.mpr ⟨hidx, hlb⟩⟩
      obtain ⟨who, hwho⟩ := hinvoke
      simp [replyViaCap, hwho, consume_of_lookup hl, hres] at hr
    refine (hfirst.stash caller none (by simp)).congr (fun x _ => ?_) fun q => ?_
    · constructor
      · intro hx
        exact ⟨t, hget, hinvoke, .inl (by rw [hida, hx])⟩
      rintro ⟨u, hu, -, hd⟩
      obtain rfl : t = u := Option.some.inj (hget.symm.trans hu)
      rcases hd with hd | ⟨th, hth, hd⟩
      · exact (Except.ok.inj (hida.symm.trans hd)).symm
      obtain ⟨b, cap, hlb, hid⟩ := capIdOf_eq_ok_iff.mp hd
      obtain ⟨ha, -, -⟩ := lookup_eq_ok_iff.mp hl
      obtain ⟨hb, -, -⟩ := lookup_eq_ok_iff.mp hlb
      rw [hsame th _ hth hd, ha] at hb
      rw [← hid, ← Option.some.inj hb]
    · constructor
      · rintro ⟨m, ⟨⟩, -⟩
      rintro ⟨u, th, hu, -, hth, hne, hd⟩
      obtain rfl : t = u := Option.some.inj (hget.symm.trans hu)
      exact absurd (hsame th q hth hd) hne
  · have hs₁ : ({ s with tables := s.tables.set task (t.freeAt h.index.toNat) } : System).Ids := hs.shrink hfirst
    have hsecond := shrink_freeAt hs₁ (Tables.get_set hget _) hlb
    simp only [Tables.set_set] at hsecond
    obtain ⟨hne, hlb'⟩ := lookup_freeAt_eq_ok.mp hlb
    have hmoved : ∀ m, some (⟨cap, b.capId⟩ : Moved) = some m → s.LiveId m.parentCapId := by
      rintro m ⟨⟩
      exact ⟨_, holdings_of_get hget (lookup_mem_live hlb'), rfl⟩
    have hidb : t.capIdOf th = .ok b.capId := capIdOf_eq_ok_iff.mpr ⟨b, cap, hlb', rfl⟩
    refine ((hfirst.trans hsecond).stash caller _ hmoved).congr (fun x _ => ?_) fun q => ?_
    · constructor
      · rintro (hx | hx)
        · exact ⟨t, hget, hinvoke, .inl (by rw [hida, hx])⟩
        · exact ⟨t, hget, hinvoke, .inr ⟨th, rfl, by rw [hidb, hx]⟩⟩
      rintro ⟨u, hu, -, hd⟩
      obtain rfl : t = u := Option.some.inj (hget.symm.trans hu)
      rcases hd with hd | ⟨th', hth, hd⟩
      · exact .inl (Except.ok.inj (hida.symm.trans hd)).symm
      cases hth
      exact .inr (Except.ok.inj (hidb.symm.trans hd)).symm
    · constructor
      · rintro ⟨m, ⟨⟩, rfl⟩
        exact ⟨t, th, hget, hinvoke, rfl, hne, hidb⟩
      rintro ⟨u, th', hu, -, hth, -, hd⟩
      obtain rfl : t = u := Option.some.inj (hget.symm.trans hu)
      cases hth
      exact ⟨_, rfl, Except.ok.inj (hidb.symm.trans hd)⟩

theorem shrink_reap (hs : s.Ids) (task : TaskId) : Shrink (s.Drops (.reap task)) (s.Moves (.reap task)) s
      { s with tables := s.tables.filter (·.1 ≠ task), spawns := s.spawns.filter (·.1 ≠ task) } := by
  have hhold : holdings (s.tables.filter (·.1 ≠ task)) = (holdings s.tables).filter (·.1 ≠ task) := by
    induction s.tables with
    | nil => rfl
    | cons p rest ih =>
      obtain ⟨k, t⟩ := p
      rw [holdings_cons, filter_append, ← ih, filter_map]
      by_cases hk : k = task
      · simp [hk, Function.comp_def]
      · simp [hk, Function.comp_def, holdings_cons]
  refine ⟨rfl, rfl, fun hn => ?_, fun x => ?_, fun q hq => .inl ?_, fun _ => False.elim⟩
  · simp only [hhold]
    exact hn.sublist (filter_sublist.map _)
  · simp only [hhold, mem_filter, decide_eq_true_eq]
    refine and_congr_right fun hx => not_congr ?_
    constructor
    · intro htask
      exact ⟨x, hx, htask, rfl⟩
    · rintro ⟨y, hy, htask, hid⟩
      obtain rfl : y = x := inj_on_of_nodup_map hs.nodup hy hx hid
      exact htask
  · rcases hq with ⟨p, hp, m, hm, rfl⟩ | ⟨k, m, hm, rfl⟩
    · exact .inl ⟨p, mem_of_mem_filter hp, m, hm, rfl⟩
    · exact .inr ⟨k, m, hm, rfl⟩

theorem shrink_revoke (hs : s.Ids) (r : Nat) : Shrink (s.Drops (.revoke r)) (s.Moves (.revoke r)) s
      { s with tables := (revokeDescendantsOf r s.tables).1 } := by
  have hexact := revokeDescendantsOf_exact hs.distinct r
  refine ⟨rfl, rfl, fun hn => ?_, fun x => hexact.mem_holdings, fun q hq => .inl hq, fun _ => False.elim⟩
  simp only [hexact.tables, holdings_clear]
  exact hn.sublist (filter_sublist.map _)

theorem grows_root (hget : ∃ t, s.tables.get task = some t) (cap : Capability) (m : Multiplicity) :
    Grows s (s.grantIn task cap m 0) := by
  obtain ⟨t, hget⟩ := hget
  exact .single (.grant cap m 0 hget (.inl rfl))

theorem grows_mintBadged (hget : s.tables.get task = some t) (hm : handleMintBadged t h badge rights s.drawId = .ok out) : Grows s { s with
      tables := s.tables.set task out.2
      nextCapId := s.nextCapId + 1
      derived := if t.capIdOrZero h = 0 then s.derived else (t.capIdOrZero h, s.drawId) :: s.derived } := by
  obtain ⟨a, cap, child, hl, -, rfl⟩ := handleMintBadged_eq_ok hm
  rw [capIdOrZero_of_lookup hl]
  have hlive : s.LiveId a.capId := ⟨_, holdings_of_get hget (lookup_mem_live hl), rfl⟩
  have hgrant := Grow.grant child .persistent a.capId hget (.inr (.inl hlive))
  rw [grantIn_of_get hget] at hgrant
  exact .single hgrant

theorem grows_spawn (hget : s.tables.get task = some t) (hd : delegateFromUser t handles = .ok ms) :
    Grows s { s with nextTaskId := s.nextTaskId + 1, spawns := s.spawns ++ [(s.nextTaskId, ms)] } := by
  refine .single (.transit _ _ s.replies fun q hq => ?_)
  rcases hq with ⟨p, hp, m, hm, rfl⟩ | hq
  · rcases mem_append.mp hp with hp | hp
    · exact .inl (.inl ⟨p, hp, m, hm, rfl⟩)
    rw [mem_singleton] at hp
    subst hp
    obtain ⟨h, -, a, hl, -, hid⟩ := delegateFromUser_mem hd hm
    rw [hid]
    exact .inr ⟨_, holdings_of_get hget (lookup_mem_live hl), rfl⟩
  · exact .inl (.inr hq)

theorem mem_of_lookup {α : Type} {l : List (TaskId × α)} {a : α} (h : l.lookup k = some a) : (k, a) ∈ l := by
  induction l with
  | nil => cases h
  | cons p rest ih =>
    obtain ⟨k', b⟩ := p
    rw [lookup_cons] at h
    split at h
    · next heq =>
      rw [beq_iff_eq] at heq
      cases h
      rw [heq]
      exact mem_cons_self
    · exact mem_cons_of_mem _ (ih h)

theorem grows_start {child : TaskId} (hm : s.spawns.lookup child = some ms) :
    Grows s { s.publish child ms with spawns := (s.publish child ms).spawns.filter (·.1 ≠ child) } := by
  have hpub : Grows s (s.publish child ms) :=
    grows_publish fun m hmem => .inr (.inl ⟨_, mem_of_lookup hm, m, hmem, rfl⟩)
  exact hpub.tail (Grow.transit_le (fun p hp => mem_of_mem_filter hp) fun _ _ h => h)

theorem update_none_le (h : update replies task none k = some m) : replies k = some m := by
  by_cases hk : k = task
  · rw [hk, update_self] at h
    cases h
  · rwa [update_of_ne hk] at h

theorem grows_callReturn (hm : s.replies task = some m) : Grows s { s.grantIn task m.cap .persistent m.parentCapId with
      replies := update (s.grantIn task m.cap .persistent m.parentCapId).replies task none } := by
  have hgrant : Grows s (s.grantIn task m.cap .persistent m.parentCapId) := by
    cases hget : s.tables.get task with
    | none =>
      simp only [grantIn, hget]
      exact .refl
    | some t => exact .single (.grant _ _ _ hget (.inr (.inr (.inr (.inr ⟨task, m, hm, rfl⟩)))))
  exact hgrant.tail (Grow.transit_le (fun _ hp => hp) fun _ _ h => update_none_le h)

/-- Every operation is a chain of additions, or draws no id and drops exactly the holdings `Drops`
names. -/
theorem step_cases (h : s.step op = some s') :
    Grows s s' ∨ s'.nextCapId = s.nextCapId ∧ (s.Ids → Shrink (s.Drops op) (s.Moves op) s s') := by
  cases op with
  | boot grants =>
    cases h
    left
    refine .head (Grow.transit_le (fun _ hp => hp) fun _ _ h => h) (grows_publish fun m hm => .inl ?_)
    obtain ⟨cap, -, rfl⟩ := mem_map.mp hm
    rfl
  | endpointCreate task id | notifyCreate task id | mintProcessCap task child | replyHandleFor task caller call =>
    obtain ⟨t, hget, rfl⟩ := Option.map_eq_some_iff.mp h
    exact .inl (grows_root ⟨t, hget⟩ _ _)
  | mintBadged task hd badge rights =>
    obtain ⟨t, hget, rfl⟩ := Option.map_eq_some_iff.mp h
    left
    split
    · next out hm => exact grows_mintBadged hget hm
    · exact .single .draw
  | spawn task handles =>
    obtain ⟨t, hget, rfl⟩ := Option.map_eq_some_iff.mp h
    left
    split
    · next ms hd => exact grows_spawn hget hd
    · exact .refl
  | start child =>
    obtain ⟨ms, hm, rfl⟩ := Option.map_eq_some_iff.mp h
    exact .inl (grows_start hm)
  | reply task hd transfer =>
    obtain ⟨t, hget, rfl⟩ := Option.map_eq_some_iff.mp h
    split
    · next hr => exact .inr ⟨rfl, fun hs => shrink_reply hs hget hr⟩
    · exact .inl .refl
  | callReturn task =>
    cases h
    left
    split
    · next m hm => exact grows_callReturn hm
    · exact .refl
  | consume task hd =>
    obtain ⟨t, hget, rfl⟩ := Option.map_eq_some_iff.mp h
    rcases t.consume_cases hd with ⟨a, cap, hl, hc⟩ | ⟨-, hc⟩
    · right
      rw [hc]
      refine ⟨rfl, fun hs => (shrink_freeAt hs hget hl).congr (fun x _ => ?_) fun _ => Iff.rfl⟩
      have hid : t.capIdOf hd = .ok a.capId := capIdOf_eq_ok_iff.mpr ⟨a, cap, hl, rfl⟩
      constructor
      · intro hx
        exact ⟨t, hget, by rw [hid, hx]⟩
      · rintro ⟨u, hu, hd⟩
        obtain rfl : t = u := Option.some.inj (hget.symm.trans hu)
        exact (Except.ok.inj (hid.symm.trans hd)).symm
    · left
      rw [hc, set_get hget]
  | cancelReply task =>
    cases h
    exact .inl (.single (Grow.transit_le (fun _ hp => hp) fun _ _ h => update_none_le h))
  | reap task =>
    cases h
    exact .inr ⟨rfl, fun hs => shrink_reap hs task⟩
  | revoke r =>
    cases h
    exact .inr ⟨rfl, fun hs => shrink_revoke hs r⟩

theorem Grows.nextCapId_le (hg : Grows s s') : s.nextCapId ≤ s'.nextCapId := by
  induction hg with
  | refl => exact le_rfl
  | tail _ hg ih => exact ih.trans hg.nextCapId_le

theorem Ids.grows (hs : s.Ids) (hg : Grows s s') (hcount : s'.nextCapId ≤ 2 ^ 64) : s'.Ids := by
  induction hg with
  | refl => exact hs
  | tail _ hg ih => exact (ih (hg.nextCapId_le.trans hcount)).grow hg hcount

theorem step_nextCapId_le (h : s.step op = some s') : s.nextCapId ≤ s'.nextCapId := by
  rcases step_cases h with hg | ⟨heq, -⟩
  · exact hg.nextCapId_le
  · exact heq.ge

theorem Ids.step (hs : s.Ids) (h : s.step op = some s') (hcount : s'.nextCapId ≤ 2 ^ 64) : s'.Ids := by
  rcases step_cases h with hg | ⟨-, hsh⟩
  · exact hs.grows hg hcount
  · exact hs.shrink (hsh hs)

theorem ids_of_reaches {C : System → SysOp → Prop} (hrun : Runs.Reaches step C {} s) (hcount : s.nextCapId ≤ 2 ^ 64) : s.Ids := by
  have hinv : s.nextCapId ≤ 2 ^ 64 → s.Ids :=
    hrun.invariant (I := fun s => s.nextCapId ≤ 2 ^ 64 → s.Ids) (fun _ => Ids.empty)
      fun s op s' ih _ h hcount => (ih ((step_nextCapId_le h).trans hcount)).step h hcount
  exact hinv hcount

end System

end SnitchOs.Cap
