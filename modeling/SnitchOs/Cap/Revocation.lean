import SnitchOs.Cap.System

/-!
# Revocation over whole runs

In every reachable state the walk is sound: it frees the live descendants of its root and nothing else. It is complete
as long as the links it needs stay live. A reply that hands out a capability consumes the server's holding, and the
caller's then hangs on a dead link; `Spares` is the condition on the steps of a run under which that cannot cut a live
holding off from a live ancestor.
-/

namespace SnitchOs.Cap

open List Runs

namespace System

variable {s s' : System}

/-! ### A capability handed out in a reply

A server mints a badged capability from its endpoint for a client it has spawned, and hands it over
in a reply. The transfer consumes the server's holding, so the walk from the endpoint capability has
no live link to the client's. -/

/-- The server sets up its endpoint and a client that holds a `send` capability to it. -/
def setUp : List SysOp :=
  [.boot [], .endpointCreate 0 0, .mintBadged 0 ⟨2⟩ 7 .send, .spawn 0 [⟨3⟩], .mintProcessCap 0 1, .start 1,
    .mintBadged 0 ⟨2⟩ 9 .send]

/-- The client has called: the server answers with the capability of badge `9`. -/
def handOut : List SysOp :=
  setUp ++ [.replyHandleFor 0 1 0, .reply 0 ⟨6⟩ (some ⟨5⟩), .callReturn 1]

def afterSetUp : System := (exec step {} setUp).getD {}

def afterHandOut : System := (exec step {} handOut).getD {}

theorem exec_setUp : exec step {} setUp = some afterSetUp := rfl

/-! ### Soundness of revocation -/

theorem Ids.desc_lt (hs : s.Ids) (h : Desc s.tables r c) : r < c := by
  induction h with
  | single hc =>
    obtain ⟨-, x, hx, rfl, rfl⟩ := hc
    exact (hs.bound x hx).2.2
  | tail _ hc ih =>
    obtain ⟨-, x, hx, rfl, rfl⟩ := hc
    exact ih.trans (hs.bound x hx).2.2

/-- Revocation is sound, local and terminates. In every reachable state and for every `r`: the walk
drains its frontier; it lists each live strict descendant of `r` once, as that holding with its own
parent; the handle of a listed holding is stale afterwards; and the handle of any other holding, the
holding `r` itself among them, still reads the same capability, id, multiplicity and parent. -/
theorem revoke_sound (hrun : Reaches step (fun _ _ => True) {} s) (hcount : s.nextCapId ≤ 2 ^ 64)
    (r : Nat) :
    (∀ fuel, (holdings s.tables).length + 1 ≤ fuel →
      (Walk.run fuel { tables := s.tables, frontier := [r] }).frontier = [] ∧
      Walk.run fuel { tables := s.tables, frontier := [r] } =
        Walk.run ((holdings s.tables).length + 1) { tables := s.tables, frontier := [r] }) ∧
    ((revokeDescendantsOf r s.tables).2.map (·.capId)).Nodup ∧
    (∀ v, v ∈ (revokeDescendantsOf r s.tables).2 ↔
      Desc s.tables r v.capId ∧ v.capId ≠ r ∧ ∃ x ∈ holdings s.tables, entry x = some v) ∧
    (∀ task t h a cap, (task, t) ∈ s.tables → t.lookup h = .ok (a, cap) →
      ∃ t', (task, t') ∈ (revokeDescendantsOf r s.tables).1 ∧
        (if a.capId ∈ (revokeDescendantsOf r s.tables).2.map (·.capId) then
          t'.lookup h = .error .stale
        else t'.lookup h = .ok (a, cap))) ∧
    r ∉ (revokeDescendantsOf r s.tables).2.map (·.capId) := by
  have hs := ids_of_reaches hrun hcount
  have hexact := revokeDescendantsOf_exact hs.distinct r
  refine ⟨walk_terminates r s.tables, hexact.nodup, fun v => ?_, fun task t h a cap hmem hl => ?_, ?_⟩
  · rw [hexact.mem_revoked]
    constructor
    · rintro ⟨hx, hd⟩
      exact ⟨hd, (hs.desc_lt hd).ne', hx⟩
    · rintro ⟨hd, -, hx⟩
      exact ⟨hx, hd⟩
  · refine ⟨t.clear (·.capId ∈ (revokeDescendantsOf r s.tables).2.map (·.capId)), ?_, ?_⟩
    · rw [hexact.tables]
      exact mem_map_of_mem hmem
    · split
      · next hin => exact lookup_clear_of_mem hl hin
      · next hout => exact lookup_clear_of_not hl hout
  · rw [hexact.mem_ids]
    exact fun hd => lt_irrefl _ (hs.desc_lt hd)

theorem revoke_sound_setUp :
    ((revokeDescendantsOf 3 afterSetUp.tables).2.map (·.capId)).Nodup ∧
      3 ∉ (revokeDescendantsOf 3 afterSetUp.tables).2.map (·.capId) := by
  have hrun : Reaches step (fun _ _ => True) {} afterSetUp :=
    reaches_of_exec exec_setUp fun _ _ _ => trivial
  obtain ⟨-, hnodup, -, -, hroot⟩ := revoke_sound hrun (by decide) 3
  exact ⟨hnodup, hroot⟩

/-! ### Completeness of revocation -/

/-- Whatever is live or in transit hangs on a live source, unless no live holding lies above that
source: every chain a revocation could be asked to follow can still be walked. -/
def Walkable (s : System) : Prop :=
  ∀ q, s.Sourced q → s.LiveId q ∨ ∀ h, s.LiveId h → ¬ s.Derives h q

theorem Walkable.shrink {D M : Nat → Prop} (hw : s.Walkable) (hsh : Shrink D M s s')
    (hsafe : ∀ d h, D d → s'.Sourced d → s.LiveId h → ¬ D h → ¬ s.Derives h d) : s'.Walkable := by
  have hlive : ∀ d, s'.LiveId d ↔ s.LiveId d ∧ ¬ D d := by
    intro d
    constructor
    · rintro ⟨x, hx, rfl⟩
      exact ⟨⟨x, ((hsh.mem x).mp hx).1, rfl⟩, ((hsh.mem x).mp hx).2⟩
    · rintro ⟨⟨x, hx, rfl⟩, hD⟩
      exact ⟨x, (hsh.mem x).mpr ⟨hx, hD⟩, rfl⟩
  have hderives : s'.Derives = s.Derives := by
    simp [Derives, hsh.derived]
  intro q hq
  rw [hderives]
  by_cases hql : s.LiveId q
  · by_cases hqD : D q
    · exact .inr fun h hh => hsafe q h hqD hq ((hlive h).mp hh).1 ((hlive h).mp hh).2
    · exact .inl ((hlive q).mpr ⟨hql, hqD⟩)
  -- a source that was not live before had its user before
  have hq₀ : s.Sourced q := by
    rcases hq with ⟨hne, x, hx, hpar⟩ | hq
    · exact .inl ⟨hne, x, ((hsh.mem x).mp hx).1, hpar⟩
    · exact .inr ((hsh.transit q hq).resolve_right fun hM => hql (hsh.moved q hM))
  exact .inr fun h hh => (hw q hq₀).resolve_left hql h ((hlive h).mp hh).1

theorem derives_of_grantIn (hs : (s.grantIn task cap m parent).Ids) (hget : s.tables.get task = some t)
    (hcount : s.nextCapId + 1 ≤ 2 ^ 64) (hq : q < s.nextCapId)
    (hd : (s.grantIn task cap m parent).Derives h q) : s.Derives h q := by
  rw [grantIn_of_get hget, drawId_eq hcount] at hs hd
  induction hd with
  | single he =>
    rcases mem_derived_grant.mp he with he | ⟨-, -, rfl⟩
    · exact .single he
    · exact absurd hq (lt_irrefl _)
  | tail _ he ih =>
    have hlt := (hs.edge _ _ he).2.1
    rcases mem_derived_grant.mp he with he | ⟨-, -, rfl⟩
    · exact (ih (hlt.trans hq)).tail he
    · exact absurd hq (lt_irrefl _)

theorem Walkable.grow (hw : s.Walkable) (hs : s.Ids) (hg : Grow s s') (hcount : s'.nextCapId ≤ 2 ^ 64) : s'.Walkable := by
  cases hg with
  | draw => exact hw
  | table task =>
    simpa only [Walkable, Sourced, LiveId, InTransit, Derives, holdings_append_new] using hw
  | @grant task t cap m parent hget hp =>
    have hs' := hs.grow (.grant cap m parent hget hp) hcount
    have hn : s.nextCapId + 1 ≤ 2 ^ 64 := by rwa [grantIn_of_get hget] at hcount
    have hperm := holdings_grant_perm hget cap m s.nextCapId parent
    have hmem : ∀ x, x ∈ holdings (s.grantIn task cap m parent).tables ↔
        x = (task, ⟨t.landingGeneration, m, some cap, s.nextCapId, parent⟩) ∨ x ∈ holdings s.tables := by
      intro x
      rw [grantIn_of_get hget, drawId_eq hn, hperm.mem_iff, mem_cons]
    -- every source in use is older than the fresh id, so nothing above it is new
    have hold : ∀ q, (s.grantIn task cap m parent).Sourced q → q < s.nextCapId ∧ (s.LiveId q ∨ s.Sourced q) := by
      rintro q (⟨hne, x, hx, hpar⟩ | hq)
      · rcases (hmem x).mp hx with rfl | hx
        · simp only at hpar
          subst hpar
          have hsrc := hp.resolve_left hne
          exact ⟨hsrc.elim (fun h => (hs.live_lt h).2) fun h => (hs.sourced_lt h).2, hsrc⟩
        · have hsrc : s.Sourced q := .inl ⟨hne, x, hx, hpar⟩
          exact ⟨(hs.sourced_lt hsrc).2, .inr hsrc⟩
      · have hsrc : s.Sourced q := .inr ((inTransit_grantIn hget _ _ _ _).mp hq)
        exact ⟨(hs.sourced_lt hsrc).2, .inr hsrc⟩
    intro q hq
    obtain ⟨hlt, hsrc⟩ := hold q hq
    have hkeep : s.LiveId q → (s.grantIn task cap m parent).LiveId q := by
      rintro ⟨x, hx, rfl⟩
      exact ⟨x, (hmem x).mpr (.inr hx), rfl⟩
    rcases hsrc with hlive | hsrc
    · exact .inl (hkeep hlive)
    rcases hw q hsrc with hlive | hnone
    · exact .inl (hkeep hlive)
    right
    rintro h ⟨x, hx, rfl⟩ hd
    rcases (hmem x).mp hx with rfl | hx
    · have := (hs'.derives_lt hd).1
      simp only at this
      omega
    · exact hnone _ ⟨x, hx, rfl⟩ (derives_of_grantIn hs' hget hn hlt hd)
  | transit n spawns replies h =>
    rintro q (hq | hq)
    · exact hw q (.inl hq)
    rcases h q hq with hq | hq
    · exact hw q (.inr hq)
    · exact .inl hq

theorem Walkable.grows (hw : s.Walkable) (hs : s.Ids) (hg : Grows s s') (hcount : s'.nextCapId ≤ 2 ^ 64) : s'.Walkable := by
  induction hg with
  | refl => exact hw
  | tail hg₀ hg ih =>
    have hle := hg.nextCapId_le.trans hcount
    exact (ih hle).grow (hs.grows hg₀ hle) hg hcount

/-- Something derived directly from `d` outlasts the operation: a live holding it does not drop, or a
capability in transit, the one it moves itself included. -/
def Keeps (s : System) (op : SysOp) (d : Nat) : Prop :=
  (∃ x ∈ holdings s.tables, x.2.parentCapId = d ∧ ¬ s.Drops op x.2.capId) ∨ s.InTransit d ∨ s.Moves op d

/-- The operation drops no holding that has both a derivation and an ancestor outlasting it. -/
def Spares (s : System) (op : SysOp) : Prop :=
  ∀ d h, s.Drops op d → s.Keeps op d → s.LiveId h → ¬ s.Drops op h → ¬ s.Derives h d

theorem Walkable.step (hw : s.Walkable) (hs : s.Ids) (hop : s.Spares op)
    (h : s.step op = some s') (hcount : s'.nextCapId ≤ 2 ^ 64) : s'.Walkable := by
  rcases step_cases h with hg | ⟨-, hsh⟩
  · exact hw.grows hs hg hcount
  refine hw.shrink (hsh hs) fun d h hd hsrc hlive hkept => hop d h hd ?_ hlive hkept
  rcases hsrc with ⟨-, x, hx, hpar⟩ | htransit
  · exact .inl ⟨x, (((hsh hs).mem x).mp hx).1, hpar, (((hsh hs).mem x).mp hx).2⟩
  · exact .inr ((hsh hs).transit d htransit)

theorem walkable_of_reaches (hrun : Reaches step Spares {} s) (hcount : s.nextCapId ≤ 2 ^ 64) :
    s.Walkable := by
  have hinv : s.nextCapId ≤ 2 ^ 64 → s.Ids ∧ s.Walkable := by
    refine hrun.invariant (I := fun s => s.nextCapId ≤ 2 ^ 64 → s.Ids ∧ s.Walkable) (fun _ => ⟨Ids.empty, ?_⟩)
      fun s op s' ih hop h hcount => ?_
    · rintro q (⟨-, x, hx, -⟩ | ⟨p, hp, -⟩ | ⟨task, m, hm, -⟩)
      · simp [holdings] at hx
      · simp at hp
      · simp at hm
    · obtain ⟨hs, hw⟩ := ih ((step_nextCapId_le h).trans hcount)
      exact ⟨hs.step h hcount, hw.step hs hop h hcount⟩
  exact (hinv hcount).2

/-- In a walkable state, a live derivation of a live holding is reached along live links. -/
theorem Walkable.desc (hw : s.Walkable) (hs : s.Ids) (hr : s.LiveId r) (hc : s.LiveId c)
    (hd : s.Derives r c) : Desc s.tables r c := by
  -- from the last edge backwards: the source of a live holding below `r` is live itself
  have hlast : ∀ {q c}, (q, c) ∈ s.derived → s.LiveId c → Child s.tables q c := by
    rintro q c he ⟨y, hy, rfl⟩
    obtain ⟨hne, rfl⟩ := (hs.source y hy q).mp he
    exact ⟨hne, y, hy, rfl, rfl⟩
  induction hd with
  | single he => exact .single (hlast he hc)
  | tail hrq he ih =>
    have hchild := hlast he hc
    obtain ⟨hne, y, hy, hpar, -⟩ := hchild
    have hq := (hw _ (.inl ⟨hne, y, hy, hpar⟩)).resolve_right fun hnone => hnone r hr hrq
    exact (ih hq).tail (hlast he hc)

/-- In every run none of whose operations drops a holding that has a live ancestor and a direct
derivation outlasting it, revoking any live holding leaves nothing live that stems from it. -/
theorem revoke_complete (hrun : Reaches step Spares {} s) (hcount : s.nextCapId ≤ 2 ^ 64)
    {x : TaskId × Slot} (hx : x ∈ holdings s.tables) :
    ∀ y ∈ holdings (revokeDescendantsOf x.2.capId s.tables).1, ¬ s.Derives x.2.capId y.2.capId := by
  intro y hy hd
  have hs := ids_of_reaches hrun hcount
  obtain ⟨hy, hdesc⟩ := (revokeDescendantsOf_exact hs.distinct x.2.capId).mem_holdings.mp hy
  exact hdesc ((walkable_of_reaches hrun hcount).desc hs ⟨x, hx, rfl⟩ ⟨y, hy, rfl⟩ hd)

theorem revoke_complete_setUp :
    (∃ y ∈ holdings afterSetUp.tables, afterSetUp.Derives 3 y.2.capId) ∧
      ∀ y ∈ holdings (revokeDescendantsOf 3 afterSetUp.tables).1, ¬ afterSetUp.Derives 3 y.2.capId := by
  have hrun : Reaches step Spares {} afterSetUp := by
    refine reaches_of_exec exec_setUp fun op hop s d h hd => ?_
    simp only [setUp, mem_cons, not_mem_nil, or_false] at hop
    rcases hop with rfl | rfl | rfl | rfl | rfl | rfl | rfl <;> exact False.elim hd
  have hx : (0, ⟨0, .persistent, some ⟨.endpoint 0 0, ⟨12⟩⟩, 3, 0⟩) ∈ holdings afterSetUp.tables := by decide
  have hmint : (3, 9) ∈ afterSetUp.derived := by decide
  refine ⟨⟨(0, ⟨0, .persistent, some ⟨.endpoint 0 9, ⟨2⟩⟩, 9, 3⟩), by decide, .single hmint⟩, ?_⟩
  exact revoke_complete hrun (by decide) hx

/-- Revoking the endpoint capability, id `3`, leaves the client's capability of id `11` alive. -/
theorem handOut_escapes_revoke :
    Reaches step (fun _ _ => True) {} afterHandOut ∧ afterHandOut.nextCapId ≤ 2 ^ 64 ∧
    ∃ x ∈ holdings afterHandOut.tables, x.2.capId = 3 ∧
      ∃ y ∈ holdings (revokeDescendantsOf x.2.capId afterHandOut.tables).1,
        afterHandOut.Derives x.2.capId y.2.capId := by
  have hexec : exec step {} handOut = some afterHandOut := rfl
  refine ⟨reaches_of_exec hexec fun _ _ _ => trivial, by decide, ?_⟩
  refine ⟨(0, ⟨0, .persistent, some ⟨.endpoint 0 0, ⟨12⟩⟩, 3, 0⟩), by decide, rfl, ?_⟩
  refine ⟨(1, ⟨0, .persistent, some ⟨.endpoint 0 9, ⟨2⟩⟩, 11, 9⟩), by decide, ?_⟩
  have hmint : (3, 9) ∈ afterHandOut.derived := by decide
  have hmove : (9, 11) ∈ afterHandOut.derived := by decide
  exact .tail (.single hmint) hmove

end System

end SnitchOs.Cap
