import Mathlib.Data.Nat.ModEq
import Mathlib.Logic.Function.Basic

/-!
# The batch ring

Items wait in a power of two of slots. The two counters only go up, modulo the word, and their low bits are the slot.
Both sides may run at once.
-/

namespace SnitchOs.Obs

open List Function

structure BatchRing (order : Fin 64) where
  buf : Nat → UInt64
  head : Nat
  tail : Nat

inductive RingOp
  | enqueueBatch (items : List UInt64)
  | dequeueBatch (len : Nat)

namespace BatchRing

variable {order : Fin 64} (r : BatchRing order)

def new : BatchRing order := ⟨fun _ => 0, 0, 0⟩

def slot (order : Fin 64) (counter : Nat) : Nat := counter % 2 ^ 64 &&& (2 ^ order.val - 1)

/-- The counters' difference wraps. -/
def live : Nat := (r.tail + 2 ^ 64 - r.head) % 2 ^ 64

/-- The items go to the slots from a counter on. -/
def store (order : Fin 64) (buf : Nat → UInt64) (counter : Nat) : List UInt64 → Nat → UInt64
  | [] => buf
  | item :: items => store order (update buf (slot order counter) item) (counter + 1) items

def enqueueBatch (items : List UInt64) : Nat × BatchRing order :=
  let n := min items.length (2 ^ order.val - r.live)
  (n, { r with buf := store order r.buf r.tail (items.take n), tail := (r.tail + n) % 2 ^ 64 })

def dequeueBatch (len : Nat) : List UInt64 × BatchRing order :=
  let n := min len r.live
  ((range n).map fun i => r.buf (slot order (r.head + i)), { r with head := (r.head + n) % 2 ^ 64 })

def step (r : BatchRing order) : RingOp → BatchRing order
  | .enqueueBatch items => (r.enqueueBatch items).2
  | .dequeueBatch len => (r.dequeueBatch len).2

/-- What waits in the ring, the oldest first. -/
def held : List UInt64 := (range r.live).map fun i => r.buf (slot order (r.head + i))

/-- A bounded queue. -/
def fifo (cap : Nat) (queue : List UInt64) : RingOp → List UInt64
  | .enqueueBatch items => queue ++ items.take (cap - queue.length)
  | .dequeueBatch len => queue.drop len

/-! ### Slots -/

theorem slot_eq (order : Fin 64) (counter : Nat) : slot order counter = counter % 2 ^ order.val := by
  rw [slot, Nat.and_two_pow_sub_one_eq_mod]
  exact Nat.mod_mod_of_dvd _ (Nat.pow_dvd_pow 2 order.isLt.le)

theorem slot_injective {c : Nat} (hi : i < 2 ^ order.val) (hj : j < 2 ^ order.val)
    (h : slot order (c + i) = slot order (c + j)) : i = j := by
  rw [slot_eq, slot_eq] at h
  exact Nat.ModEq.eq_of_lt_of_lt (Nat.ModEq.add_left_cancel' c h) hi hj

theorem slot_congr (h : c % 2 ^ 64 = c' % 2 ^ 64) : slot order c = slot order c' := by rw [slot, h, slot]

theorem store_of_ne {buf : Nat → UInt64} (h : ∀ k < items.length, s ≠ slot order (c + k)) : store order buf c items s = buf s := by
  induction items generalizing buf c with
  | nil => rfl
  | cons item items ih =>
    have h0 : s ≠ slot order c := h 0 (Nat.succ_pos _)
    rw [store, ih, update_of_ne h0]
    intro k hk
    rw [Nat.add_assoc, Nat.add_comm 1]
    exact h (k + 1) (by simpa using hk)

theorem store_slot {buf : Nat → UInt64} (hlen : items.length ≤ 2 ^ order.val) (hk : k < items.length) :
    store order buf c items (slot order (c + k)) = items[k] := by
  induction items generalizing buf c k with
  | nil => cases hk
  | cons item items ih =>
    rw [length_cons] at hlen hk
    rw [store]
    cases k with
    | zero =>
      change store order _ (c + 1) items (slot order c) = item
      rw [store_of_ne, update_self]
      intro k hk h
      rw [Nat.add_assoc] at h
      have := slot_injective (i := 0) (by omega) (by omega) h
      omega
    | succ k =>
      rw [← Nat.add_assoc, Nat.add_right_comm, ih (by omega) (by omega), getElem_cons_succ]

/-! ### Batches -/

/-- The counters are words, not further apart than there are slots. -/
structure Bounded : Prop where
  head : r.head < 2 ^ 64
  tail : r.tail < 2 ^ 64
  live : r.live ≤ 2 ^ order.val

variable {r}

theorem length_held : r.held.length = r.live := by simp [held]

theorem pow_lt (order : Fin 64) : 2 ^ order.val < 2 ^ 64 := Nat.pow_lt_pow_right (by decide) order.isLt

theorem enqueueBatch_held (h : r.Bounded) (items : List UInt64) : (r.enqueueBatch items).2.Bounded ∧
    (r.enqueueBatch items).2.held = r.held ++ items.take (2 ^ order.val - r.held.length) := by
  obtain ⟨hhead, htail, hlive⟩ := h
  have hpow := pow_lt order
  rw [length_held]
  generalize hn : min items.length (2 ^ order.val - r.live) = n
  have htake : items.take (2 ^ order.val - r.live) = items.take n := by rw [← hn, take_eq_take_iff]; omega
  have hlen : (items.take n).length = n := by rw [length_take]; omega
  have hlive' : (r.enqueueBatch items).2.live = r.live + n := by
    simp only [enqueueBatch, hn, BatchRing.live] at *
    omega
  refine ⟨⟨hhead, Nat.mod_lt _ (by decide), by rw [hlive']; omega⟩, ?_⟩
  -- The new items follow the last one.
  have hnext : ∀ k, slot order (r.tail + k) = slot order (r.head + (r.live + k)) := by
    intro k
    refine slot_congr ?_
    unfold BatchRing.live
    omega
  rw [htake, held, hlive', range_add, map_append]
  congr 1
  · refine map_congr_left fun i hi => ?_
    have hi := mem_range.1 hi
    simp only [enqueueBatch, hn]
    refine store_of_ne fun k hk he => ?_
    rw [hnext] at he
    have := slot_injective (by omega) (by omega) he
    omega
  · refine ext_getElem (by simp [hlen]) fun k hk hk' => ?_
    simp only [getElem_map, getElem_range, enqueueBatch, hn, ← hnext]
    exact store_slot (by rw [hlen]; omega) _

theorem dequeueBatch_held (h : r.Bounded) (len : Nat) : (r.dequeueBatch len).2.Bounded ∧
    (r.dequeueBatch len).2.held = r.held.drop len ∧ (r.dequeueBatch len).1 = r.held.take len := by
  obtain ⟨hhead, htail, hlive⟩ := h
  have hpow := pow_lt order
  generalize hn : min len r.live = n
  have hlive' : (r.dequeueBatch len).2.live = r.live - n := by
    simp only [dequeueBatch, hn, BatchRing.live] at *
    omega
  refine ⟨⟨Nat.mod_lt _ (by decide), htail, by rw [hlive']; omega⟩, ?_, ?_⟩
  · refine ext_getElem (by rw [length_held, hlive', length_drop, length_held]; omega) fun k hk hk' => ?_
    simp only [held, getElem_drop, getElem_map, getElem_range, dequeueBatch]
    congr 1
    refine slot_congr ?_
    rw [length_drop, length_held] at hk'
    omega
  · rw [held, ← map_take, take_range, dequeueBatch]

theorem step_held (h : r.Bounded) (op : RingOp) : (r.step op).Bounded ∧ (r.step op).held = fifo (2 ^ order.val) r.held op := by
  cases op with simp only [step, fifo]
  | enqueueBatch items => exact enqueueBatch_held h items
  | dequeueBatch len => exact ⟨(dequeueBatch_held h len).1, (dequeueBatch_held h len).2.1⟩

theorem run_held (h : r.Bounded) (ops : List RingOp) :
    (ops.foldl step r).Bounded ∧ (ops.foldl step r).held = ops.foldl (fifo (2 ^ order.val)) r.held := by
  induction ops generalizing r with
  | nil => rw [foldl_nil, foldl_nil]; exact ⟨h, rfl⟩
  | cons op ops ih =>
    have hstep := step_held h op
    rw [foldl_cons, foldl_cons, ← hstep.2]
    exact ih hstep.1

theorem new_bounded : (new : BatchRing order).Bounded := ⟨by simp [new], by simp [new], by simp [new, live]⟩

/-- After any operations a new ring is the bounded queue: it takes what there is room for, gives the oldest items,
and what it holds is what was taken and not yet given, in order. -/
theorem ring_is_fifo (order : Fin 64) (ops : List RingOp) : let r := ops.foldl step (new : BatchRing order)
    let queue := ops.foldl (fifo (2 ^ order.val)) []
    r.held = queue ∧ (∀ items, (r.enqueueBatch items).1 = min items.length (2 ^ order.val - queue.length)) ∧
      ∀ len, (r.dequeueBatch len).1 = queue.take len := by
  have hempty : (new : BatchRing order).held = [] := by simp [held, new, live]
  obtain ⟨hbounded, hheld⟩ := run_held (r := new) new_bounded ops
  rw [hempty] at hheld
  dsimp only
  rw [← hheld]
  refine ⟨rfl, fun items => ?_, fun len => (dequeueBatch_held hbounded len).2.2⟩
  rw [length_held, enqueueBatch]

end BatchRing

/-! ### Both sides at once -/

/-- The accesses of `enqueue_batch`, then those of `dequeue_batch`: the other side's counter is read, an item is copied,
the own counter is published. -/
inductive RingStep
  | accept (items : List UInt64)
  | store
  | publish
  | ask (len : Nat)
  | load
  | retire

/-- The ring and the batch each side is in. `enqueued` and `dequeued`, what was published so far, are ghost. -/
structure RingSides (order : Fin 64) where
  ring : BatchRing order := .new
  stored : List UInt64 := []
  rest : List UInt64 := []
  wanted : Nat := 0
  loaded : List UInt64 := []
  enqueued : List UInt64 := []
  dequeued : List UInt64 := []

namespace RingSides

open BatchRing

variable {order : Fin 64} {s : RingSides order}

/-- A side that is elsewhere in its call does nothing. -/
def step (s : RingSides order) : RingStep → RingSides order
  | .accept items =>
    if s.stored = [] ∧ s.rest = [] then { s with rest := items.take (2 ^ order.val - s.ring.live) } else s
  | .store =>
    match s.rest with
    | item :: rest =>
      let buf := update s.ring.buf (slot order (s.ring.tail + s.stored.length)) item
      { s with ring.buf := buf, stored := s.stored ++ [item], rest }
    | [] => s
  | .publish =>
    if s.rest = [] then
      let tail := (s.ring.tail + s.stored.length) % 2 ^ 64
      { s with ring.tail := tail, stored := [], enqueued := s.enqueued ++ s.stored }
    else s
  | .ask len => if s.wanted = 0 then { s with wanted := min len s.ring.live, loaded := [] } else s
  | .load =>
    if s.loaded.length < s.wanted then
      { s with loaded := s.loaded ++ [s.ring.buf (slot order (s.ring.head + s.loaded.length))] }
    else s
  | .retire =>
    if s.loaded.length = s.wanted then
      let head := (s.ring.head + s.wanted) % 2 ^ 64
      { s with ring.head := head, wanted := 0, loaded := [], dequeued := s.dequeued ++ s.loaded }
    else s

/-- The next `n` slots from the head on, published or not. -/
def ahead (order : Fin 64) (buf : Nat → UInt64) (head n : Nat) : List UInt64 :=
  (range n).map fun i => buf (slot order (head + i))

/-- What holds between any two accesses. -/
structure Inv (s : RingSides order) : Prop where
  bounded : s.ring.Bounded
  room : s.ring.live + s.stored.length + s.rest.length ≤ 2 ^ order.val
  wanted : s.wanted ≤ s.ring.live
  le : s.loaded.length ≤ s.wanted
  loaded : s.loaded = ahead order s.ring.buf s.ring.head s.loaded.length
  log : s.enqueued ++ s.stored = s.dequeued ++ ahead order s.ring.buf s.ring.head (s.ring.live + s.stored.length)

theorem ahead_succ (order : Fin 64) (buf : Nat → UInt64) (head n : Nat) :
    ahead order buf head (n + 1) = ahead order buf head n ++ [buf (slot order (head + n))] := by
  rw [ahead, range_succ, map_append, ← ahead, map_singleton]

/-- A slot behind the next `n` is none of theirs. -/
theorem ahead_update {buf : Nat → UInt64} (hn : n ≤ m) (hm : m < 2 ^ order.val) :
    ahead order (update buf (slot order (c + m)) item) c n = ahead order buf c n := by
  refine map_congr_left fun i hi => update_of_ne (fun he => ?_) _ _
  have hi := mem_range.1 hi
  have := slot_injective (by omega) hm he
  omega

theorem Inv.store (h : s.Inv) (hrest : s.rest = item :: items) : (s.step .store).Inv := by
  obtain ⟨⟨hhead, htail, hlive⟩, hroom, hwanted, hle, hloaded, hlog⟩ := h
  rw [hrest, length_cons] at hroom
  have hslot : slot order (s.ring.tail + s.stored.length) = slot order (s.ring.head + (s.ring.live + s.stored.length)) := by
    refine slot_congr ?_
    unfold BatchRing.live
    omega
  have hroom' : s.ring.live + (s.stored.length + 1) + items.length ≤ 2 ^ order.val := by omega
  simp only [step, hrest, hslot]
  refine ⟨⟨hhead, htail, hlive⟩, by rw [length_append]; exact hroom', hwanted, hle, ?_, ?_⟩
  · exact hloaded.trans (ahead_update (by omega) (by omega)).symm
  · simp only [length_append, length_singleton]
    change _ = s.dequeued ++ ahead order _ _ (s.ring.live + s.stored.length + 1)
    rw [ahead_succ, ahead_update (le_refl _) (by omega), update_self, ← append_assoc, ← append_assoc, hlog]

theorem Inv.step (h : s.Inv) (op : RingStep) : (s.step op).Inv := by
  have hpow := pow_lt order
  have ⟨⟨hhead, htail, hlive⟩, hroom, hwanted, hle, hloaded, hlog⟩ := h
  cases op with simp only [RingSides.step]
  | accept items =>
    split
    · next hidle =>
      refine ⟨⟨hhead, htail, hlive⟩, ?_, hwanted, hle, hloaded, hlog⟩
      simp only [hidle.1, length_take, length_nil]
      omega
    · exact h
  | store =>
    split
    · next hrest => simpa only [RingSides.step, hrest] using h.store hrest
    · exact h
  | publish =>
    split
    · have hlive' : ({ s.ring with tail := (s.ring.tail + s.stored.length) % 2 ^ 64 } : BatchRing order).live =
          s.ring.live + s.stored.length := by
        simp only [BatchRing.live] at *
        omega
      refine ⟨⟨hhead, Nat.mod_lt _ (by decide), ?_⟩, ?_, ?_, hle, hloaded, ?_⟩
      all_goals simp only [hlive', length_nil, append_nil, Nat.add_zero]
      · omega
      · omega
      · omega
      · exact hlog
    · exact h
  | ask len =>
    split
    · exact ⟨⟨hhead, htail, hlive⟩, hroom, Nat.min_le_right _ _, Nat.zero_le _, rfl, hlog⟩
    · exact h
  | load =>
    split
    · next hlt =>
      refine ⟨⟨hhead, htail, hlive⟩, hroom, hwanted, by rw [length_append]; exact hlt, ?_, hlog⟩
      rw [length_append, length_singleton, ahead_succ, ← hloaded]
    · exact h
  | retire =>
    split
    · next hdone =>
      have hlive' : ({ s.ring with head := (s.ring.head + s.wanted) % 2 ^ 64 } : BatchRing order).live =
          s.ring.live - s.wanted := by
        simp only [BatchRing.live] at *
        omega
      refine ⟨⟨Nat.mod_lt _ (by decide), htail, ?_⟩, ?_, Nat.zero_le _, le_refl _, rfl, ?_⟩
      all_goals simp only [hlive']
      · omega
      · omega
      · obtain ⟨k, hk⟩ := Nat.exists_eq_add_of_le hwanted
        rw [hlog, hk, Nat.add_assoc, Nat.add_sub_cancel_left, ahead, range_add, map_append, map_map, append_assoc, hloaded,
          hdone, ahead, ahead]
        congr 2
        refine map_congr_left fun i _ => congrArg s.ring.buf (slot_congr ?_)
        dsimp only
        omega
    · exact h

theorem Inv.new : ({} : RingSides order).Inv := by
  refine ⟨new_bounded, ?_, Nat.zero_le _, le_refl _, rfl, ?_⟩ <;> simp [BatchRing.new, live, ahead]

/-- However the accesses of the two sides interleave, what was published is what was retired, then what the ring holds;
and what the consumer has loaded are the oldest items held. -/
theorem sides_fifo (order : Fin 64) (steps : List RingStep) :
    let s := steps.foldl step ({} : RingSides order)
    s.enqueued = s.dequeued ++ s.ring.held ∧ s.ring.held.length ≤ 2 ^ order.val ∧ s.loaded <+: s.ring.held := by
  have hinv : (steps.foldl step ({} : RingSides order)).Inv := foldlRecOn steps step Inv.new fun _ h op _ => h.step op
  obtain ⟨hbounded, hroom, hwanted, hle, hloaded, hlog⟩ := hinv
  dsimp only
  generalize steps.foldl step ({} : RingSides order) = s at *
  refine ⟨?_, length_held.trans_le hbounded.live, ?_⟩
  · rw [ahead, range_add, map_append, ← append_assoc] at hlog
    exact append_inj_left' hlog (by simp)
  · rw [hloaded, ahead, ← Nat.min_eq_left (hle.trans hwanted), ← take_range, map_take]
    exact take_prefix _ _

end RingSides

end SnitchOs.Obs
