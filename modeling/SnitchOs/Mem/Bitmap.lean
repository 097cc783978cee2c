import SnitchOs.Lib.Machine
import SnitchOs.Lib.PackedBits
import Mathlib.Order.Interval.Finset.Nat

/-!
# The frame bitmap

A bit per frame, set when the frame is free; a count of the free frames; and a cursor below which every word is zero,
from which `alloc` searches. `alloc_contiguous` scans from frame zero and leaves the cursor. The specification is a
finite set of numbers below the capacity.

Indexing stays inside the storage because `new` asserts that the capacity does. The counter `scan_words` is a `Nat`;
nothing reads it.
-/

namespace SnitchOs.Mem

open Machine List Option PackedBits Finset List

structure Bitmap where
  bits : List (BitVec 64)
  capacity : Nat
  framesFree : Nat
  /-- Every word below is zero. -/
  nextHint : Nat
  scanWords : Nat
  deriving DecidableEq

namespace Bitmap

/-- All frames in use. The assertion is on the storage; `none` is a panic. -/
def new (bits : List (BitVec 64)) (capacity : Nat) : Option Bitmap :=
  if capacity ≤ bits.length * 64 then
    some { bits := replicate bits.length 0#64, capacity, framesFree := 0, nextHint := 0, scanWords := 0 }
  else none

variable (b : Bitmap)

/-- Sets the bit, and counts it if it was clear. -/
def setBitTracked (frame : Nat) : Bitmap :=
  if test b.bits frame then b
  else
    { b with
      bits := PackedBits.set b.bits frame
      framesFree := b.framesFree + 1
      nextHint := min b.nextHint (frame / 64) }

def releaseRange (checks : Bool) (start count : Nat) : Option Bitmap :=
  if b.capacity ≤ start then some b
  else do
    let stop := min (← usize checks (start + count)) b.capacity
    some ((range' start (stop - start)).foldl setBitTracked b)

/-- The loop of `alloc` over word indices. -/
def allocScan : List Nat → Bitmap → Bitmap × Option Nat
  | [], b => (b, none)
  | i :: rest, b =>
    let b := { b with scanWords := b.scanWords + 1 }
    let w := word b.bits i
    if w ≠ 0#64 then
      let bit := w.ctz.toNat
      let frame := i * 64 + bit
      if b.capacity ≤ frame then (b, none)
      else
        ({ b with
            bits := b.bits.set i (w &&& ~~~(1#64 <<< bit))
            framesFree := b.framesFree - 1
            nextHint := i }, some frame)
    else allocScan rest b

def alloc : Bitmap × Option Nat :=
  if b.framesFree = 0 then (b, none)
  else allocScan (range' b.nextHint (b.bits.length - b.nextHint)) b

/-- The loop of `alloc_contiguous` over frames: the start of the first run of `n`. -/
def findRun (n : Nat) : List Nat → Option Nat → Nat → Option Nat
  | [], _, _ => none
  | frame :: rest, runStart, runLen =>
    if test b.bits frame then
      let runStart := runStart.getD frame
      if runLen + 1 = n then some runStart else findRun n rest (some runStart) (runLen + 1)
    else findRun n rest none 0

def allocContiguous (n : Nat) : Bitmap × Option Nat :=
  if n = 0 ∨ b.framesFree < n then (b, none)
  else
    match b.findRun n (range b.capacity) none 0 with
    | none => (b, none)
    | some start =>
      ({ b with
          bits := (range' start n).foldl clear b.bits
          framesFree := b.framesFree - n }, some start)

/-- A frame past the capacity is a panic. -/
def free (frame : Nat) : Option Bitmap := if frame < b.capacity then some (b.setBitTracked frame) else none

def countFree : Nat := b.framesFree

/-! ### Operations -/

inductive Op
  | releaseRange (start count : Nat)
  | alloc
  | allocContiguous (n : Nat)
  | free (frame : Nat)
  deriving DecidableEq

/-- An operation and what it answers; `none` is a panic. -/
def apply (checks : Bool) : Op → Option (Bitmap × Option Nat)
  | .releaseRange start count => (b.releaseRange checks start count).map (·, none)
  | .alloc => some b.alloc
  | .allocContiguous n => some (b.allocContiguous n)
  | .free frame => (b.free frame).map (·, none)

inductive Run (checks : Bool) : Bitmap → List (Op × Option Nat) → Bitmap → Prop
  | nil (b : Bitmap) : Run checks b [] b
  | cons {b b' b'' : Bitmap} {op : Op} {r : Option Nat} {log : List (Op × Option Nat)}
      (hop : b.apply checks op = some (b', r)) (hrest : Run checks b' log b'') :
      Run checks b ((op, r) :: log) b''

/-! ### A set of free frames -/

/-- What an operation does to the set of free frames below `capacity`. The end of a released range is a
machine sum. -/
inductive SetStep (capacity : Nat) : Finset Nat → Op → Option Nat → Finset Nat → Prop
  | released (S : Finset Nat) (start count : Nat) :
      SetStep capacity S (.releaseRange start count) none
        (S ∪ Finset.Ico start (min ((start + count) % 2 ^ 64) capacity))
  | allocated {S : Finset Nat} {frame : Nat} (h : IsLeast (S : Set Nat) frame) :
      SetStep capacity S .alloc (some frame) (S.erase frame)
  | exhausted : SetStep capacity ∅ .alloc none ∅
  | run {S : Finset Nat} {n start : Nat} (hn : n ≠ 0)
      (h : IsLeast {s | Finset.Ico s (s + n) ⊆ S} start) :
      SetStep capacity S (.allocContiguous n) (some start) (S \ Finset.Ico start (start + n))
  | noRun {S : Finset Nat} {n : Nat} (h : n = 0 ∨ ∀ s, ¬ Finset.Ico s (s + n) ⊆ S) :
      SetStep capacity S (.allocContiguous n) none S
  | freed {S : Finset Nat} {frame : Nat} (h : frame < capacity) :
      SetStep capacity S (.free frame) none (insert frame S)

def Op.Returns : Op → Nat → Prop
  | .releaseRange start count, f => start ≤ f ∧ f < start + count
  | .free frame, f => f = frame
  | _, _ => False

def HandsOut : Op × Option Nat → Nat → Prop
  | (.alloc, some frame), f => f = frame
  | (.allocContiguous n, some start), f => start ≤ f ∧ f < start + n
  | _, _ => False

namespace SetStep

variable {capacity : Nat} {S S' : Finset Nat} {op : Op} {r : Option Nat} {f : Nat}

theorem mem_of_handsOut (h : SetStep capacity S op r S') (hf : HandsOut (op, r) f) : f ∈ S ∧ f ∉ S' := by
  cases h with
  | allocated h =>
    obtain rfl : f = _ := hf
    exact ⟨h.1, notMem_erase _ _⟩
  | run hn h =>
    have hmem := mem_Ico.mpr hf
    exact ⟨h.1 hmem, fun hd => (mem_sdiff.mp hd).2 hmem⟩
  | released | exhausted | noRun | freed => exact hf.elim

theorem mem_of_not_returns (h : SetStep capacity S op r S') (hf : ¬ op.Returns f) (hmem : f ∈ S') : f ∈ S := by
  cases h with
  | released S start count =>
    rcases mem_union.mp hmem with hmem | hmem
    · exact hmem
    have hIco := mem_Ico.mp hmem
    exact absurd ⟨hIco.1, by omega⟩ hf
  | allocated => exact Finset.mem_of_mem_erase hmem
  | run => exact (mem_sdiff.mp hmem).1
  | exhausted | noRun => exact hmem
  | freed => exact (mem_insert.mp hmem).resolve_left hf

end SetStep

inductive SetRun (capacity : Nat) : Finset Nat → List (Op × Option Nat) → Finset Nat → Prop
  | nil (S : Finset Nat) : SetRun capacity S [] S
  | cons {S S' S'' : Finset Nat} {op : Op} {r : Option Nat} {log : List (Op × Option Nat)}
      (hop : SetStep capacity S op r S') (hrest : SetRun capacity S' log S'') :
      SetRun capacity S ((op, r) :: log) S''

namespace SetRun

variable {capacity : Nat} {S S' : Finset Nat} {log log' : List (Op × Option Nat)} {f : Nat}

theorem split (h : SetRun capacity S (log ++ log') S') : ∃ M, SetRun capacity S log M ∧ SetRun capacity M log' S' := by
  induction log generalizing S with
  | nil => exact ⟨S, .nil S, h⟩
  | cons x log ih =>
    cases h with
    | cons hop hrest =>
      obtain ⟨M, hlog, hlog'⟩ := ih hrest
      exact ⟨M, .cons hop hlog, hlog'⟩

theorem returned (h : SetRun capacity S log S') (hbefore : f ∉ S) (hafter : f ∈ S') : ∃ x ∈ log, x.1.Returns f := by
  induction h with
  | nil S => exact absurd hafter hbefore
  | @cons S M S'' op r log hop hrest ih =>
    by_cases hret : op.Returns f
    · exact ⟨(op, r), mem_cons_self, hret⟩
    obtain ⟨x, hx, hxf⟩ := ih (fun hM => hbefore (hop.mem_of_not_returns hret hM)) hafter
    exact ⟨x, mem_cons_of_mem _ hx, hxf⟩

theorem handed_out_once (h : SetRun capacity S log S') (hlog : log = pre ++ x :: mid ++ y :: post) (hx : HandsOut x f)
    (hy : HandsOut y f) : ∃ z ∈ mid, z.1.Returns f := by
  subst hlog
  obtain ⟨M, hfirst, hsecond⟩ := h.split
  obtain ⟨M', -, hx'⟩ := hfirst.split
  obtain ⟨opx, rx⟩ := x
  obtain ⟨opy, ry⟩ := y
  cases hx' with
  | cons hopx hmid =>
    cases hsecond with
    | cons hopy _ => exact hmid.returned (hopx.mem_of_handsOut hx).2 (hopy.mem_of_handsOut hy).1

end SetRun

/-! ### The bitmap implements it -/

def freeSet : Finset Nat := support b.bits

/-- The count is right, no bit is set past the capacity, and the words below the cursor are zero. -/
structure Inv (b : Bitmap) : Prop where
  fits : b.capacity ≤ 64 * b.bits.length
  count : b.framesFree = b.freeSet.card
  below : ∀ f ∈ b.freeSet, f < b.capacity
  hint : ∀ i < b.nextHint, word b.bits i = 0#64

variable {b} {f start n frame runLen : Nat} {checks : Bool} {b' : Bitmap} {runStart : Option Nat}

theorem inv_new {bits : List (BitVec 64)} {capacity : Nat} (h : new bits capacity = some b) :
    b.Inv ∧ b.freeSet = ∅ ∧ b.capacity = capacity := by
  unfold new at h
  split at h
  · next hfits =>
    cases h
    have hempty := support_replicate (w := 64) (by decide) bits.length
    refine ⟨⟨?_, ?_, ?_, fun i hi => absurd hi (Nat.not_lt_zero i)⟩, hempty, rfl⟩
    · rw [length_replicate, Nat.mul_comm]
      exact hfits
    · rw [freeSet, hempty]
      rfl
    · intro f hf
      rw [freeSet, hempty] at hf
      exact absurd hf (notMem_empty f)
  · cases h

theorem mem_freeSet : f ∈ b.freeSet ↔ test b.bits f = true :=
  mem_support _ (by decide)

theorem setBitTracked_of_mem (h : f ∈ b.freeSet) : b.setBitTracked f = b :=
  if_pos (mem_freeSet.mp h)

theorem capacity_setBitTracked (f : Nat) : (b.setBitTracked f).capacity = b.capacity := by
  unfold setBitTracked
  split <;> rfl

theorem Inv.setBitTracked (h : b.Inv) (hf : f < b.capacity) :
    (b.setBitTracked f).Inv ∧ (b.setBitTracked f).freeSet = insert f b.freeSet := by
  by_cases hmem : f ∈ b.freeSet
  · rw [setBitTracked_of_mem hmem, insert_eq_of_mem hmem]
    exact ⟨h, rfl⟩
  have hset : support (PackedBits.set b.bits f) = insert f b.freeSet :=
    support_set _ (by decide) (lt_of_lt_of_le hf h.fits)
  rw [Bitmap.setBitTracked, if_neg (fun ht => hmem (mem_freeSet.mpr ht))]
  refine ⟨⟨?_, ?_, ?_, ?_⟩, hset⟩
  · simpa using h.fits
  · show b.framesFree + 1 = (support (PackedBits.set b.bits f)).card
    rw [hset, card_insert_of_notMem hmem, h.count]
  · intro g hg
    rcases mem_insert.mp (hset ▸ hg : g ∈ insert f b.freeSet) with rfl | hg
    · exact hf
    · exact h.below g hg
  · -- the cursor is moved back to the word of the frame
    intro i hi
    have hi' : i < b.nextHint ∧ i < f / 64 := lt_min_iff.mp hi
    refine (word_eq_zero_iff _ (by decide)).mpr fun g hg => ?_
    rcases mem_insert.mp (hset ▸ hg : g ∈ insert f b.freeSet) with rfl | hg
    · exact hi'.2.ne'
    · exact (word_eq_zero_iff _ (by decide)).mp (h.hint i hi'.1) g hg

theorem Inv.release (h : b.Inv) (hn : start + n ≤ b.capacity) : ((range' start n).foldl Bitmap.setBitTracked b).Inv ∧
      ((range' start n).foldl Bitmap.setBitTracked b).capacity = b.capacity ∧
      ((range' start n).foldl Bitmap.setBitTracked b).freeSet = b.freeSet ∪ Finset.Ico start (start + n) := by
  induction n generalizing b start with
  | zero => exact ⟨h, rfl, by simp⟩
  | succ n ih =>
    obtain ⟨hinv, hset⟩ := h.setBitTracked (f := start) (by omega)
    have hcap := b.capacity_setBitTracked start
    have hroom : start + 1 + n ≤ (b.setBitTracked start).capacity := by
      omega
    obtain ⟨hinv', hcap', hset'⟩ := ih hinv hroom
    rw [range'_succ, foldl_cons]
    refine ⟨hinv', hcap'.trans hcap, ?_⟩
    have hIco : insert start (Finset.Ico (start + 1) (start + 1 + n)) = Finset.Ico start (start + (n + 1)) := by
      ext f
      simp only [mem_insert, mem_Ico]
      omega
    rw [hset', hset, insert_union, ← union_insert, hIco]

theorem Inv.releaseRange (h : b.Inv) {count : Nat} (hrel : b.releaseRange checks start count = some b') :
    b'.Inv ∧ b'.capacity = b.capacity ∧ SetStep b.capacity b.freeSet (.releaseRange start count) none b'.freeSet := by
  have hstep : SetStep b.capacity b.freeSet (.releaseRange start count) none _ := .released _ start count
  unfold Bitmap.releaseRange at hrel
  split at hrel
  · next hge =>
    cases hrel
    rw [Ico_eq_empty (by omega), union_empty] at hstep
    exact ⟨h, rfl, hstep⟩
  next hlt =>
  obtain ⟨sum, hsum, hrel⟩ := bind_eq_some_iff.mp hrel
  cases hrel
  rw [← usize_eq hsum] at hstep
  have hroom : start + (min sum b.capacity - start) ≤ b.capacity := by omega
  obtain ⟨hinv, hcap, hset⟩ := h.release hroom
  refine ⟨hinv, hcap, ?_⟩
  have hIco : Finset.Ico start (start + (min sum b.capacity - start)) =
      Finset.Ico start (min sum b.capacity) := by
    ext g
    simp only [mem_Ico]
    omega
  rw [hset, hIco]
  exact hstep

/-! ### Searching for one frame -/

/-- The scan from a word below which all are zero hands out the least free frame. -/
theorem Inv.allocScan (h : b.Inv) (hend : i + n = b.bits.length)
    (hbelow : ∀ j < i, word b.bits j = 0#64) (hfree : b.freeSet.Nonempty) :
    ∃ frame, (Bitmap.allocScan (range' i n) b).2 = some frame ∧
      IsLeast (b.freeSet : Set Nat) frame ∧ (Bitmap.allocScan (range' i n) b).1.Inv ∧
      (Bitmap.allocScan (range' i n) b).1.capacity = b.capacity ∧
      (Bitmap.allocScan (range' i n) b).1.freeSet = b.freeSet.erase frame := by
  induction n generalizing b i with
  | zero =>
    -- no word is left, and all were zero
    obtain ⟨f, hf⟩ := hfree
    have hge := le_div_of_mem b.bits (by decide) hbelow hf
    have := h.below f hf
    have := h.fits
    omega
  | succ n ih =>
    rw [range'_succ, Bitmap.allocScan]
    by_cases hw : word b.bits i = 0#64
    · have hcount : ({ b with scanWords := b.scanWords + 1 } : Bitmap).Inv := ⟨h.fits, h.count, h.below, h.hint⟩
      have hbelow' : ∀ j < i + 1, word b.bits j = 0#64 := by
        intro j hj
        rcases Nat.lt_succ_iff_lt_or_eq.mp hj with hj | rfl
        · exact hbelow j hj
        · exact hw
      simp only [ne_eq, hw, not_true_eq_false, if_false]
      exact ih hcount (by simpa [Nat.add_assoc, Nat.add_comm 1] using hend) hbelow' hfree
    have hleast := isLeast_lowest b.bits hw hbelow
    have hmem : lowest b.bits i ∈ b.freeSet := hleast.1
    have hlt := h.below _ hmem
    -- clearing the lowest bit of the word is clearing the frame's bit
    have hclear : b.bits.set i (word b.bits i &&&
        ~~~(1#64 <<< (word b.bits i).ctz.toNat)) =
          clear b.bits (lowest b.bits i) := by
      rw [clear, mask, lowest_div _ hw, lowest_mod _ hw]
    have hset : support (clear b.bits (lowest b.bits i)) =
        b.freeSet.erase (lowest b.bits i) := support_clear _ (by decide) _
    have hsub : ∀ g ∈ support (clear b.bits (lowest b.bits i)),
        g ∈ b.freeSet := fun g hg => Finset.mem_of_mem_erase (hset ▸ hg)
    have hframe : ¬ b.capacity ≤ i * 64 + (word b.bits i).ctz.toNat := not_le.mpr hlt
    simp only [ne_eq, hw, not_false_eq_true, if_true, hframe, if_false, hclear]
    refine ⟨_, rfl, hleast, ⟨?_, ?_, fun g hg => h.below g (hsub g hg), ?_⟩, trivial, hset⟩
    · simpa using h.fits
    · show b.framesFree - 1 = (support (clear b.bits _)).card
      rw [hset, card_erase_of_mem hmem, h.count]
    · intro j hj
      refine (word_eq_zero_iff _ (by decide)).mpr fun g hg => ?_
      exact (word_eq_zero_iff _ (by decide)).mp (hbelow j hj) g (hsub g hg)

theorem Inv.alloc (h : b.Inv) : b.alloc.1.Inv ∧ b.alloc.1.capacity = b.capacity ∧
      SetStep b.capacity b.freeSet .alloc b.alloc.2 b.alloc.1.freeSet := by
  unfold Bitmap.alloc
  split
  · next hzero =>
    have hempty : b.freeSet = ∅ := card_eq_zero.mp (h.count.symm.trans hzero)
    refine ⟨h, rfl, ?_⟩
    rw [hempty]
    exact .exhausted
  next hpos =>
  have hfree : b.freeSet.Nonempty := card_pos.mp (by rw [← h.count]; omega)
  -- the cursor is inside the storage, as the words below it are zero
  have hhint : b.nextHint ≤ b.bits.length := by
    obtain ⟨f, hf⟩ := hfree
    have hge := le_div_of_mem b.bits (by decide) h.hint hf
    have := h.below f hf
    have := h.fits
    omega
  obtain ⟨frame, hres, hleast, hinv, hcap, hset⟩ :=
    h.allocScan (i := b.nextHint) (n := b.bits.length - b.nextHint) (by omega) h.hint hfree
  rw [hres, hset]
  exact ⟨hinv, hcap, .allocated hleast⟩

/-! ### Searching for a run -/

/-- The scan at `frame`: the last `runLen` frames are free and the one before them is not, and no run of
`n` ends before `frame`. -/
structure Scan (b : Bitmap) (n frame : Nat) (runStart : Option Nat) (runLen : Nat) : Prop where
  le : runLen ≤ frame
  short : runLen < n
  start : runStart = if runLen = 0 then none else some (frame - runLen)
  free : ∀ f, frame - runLen ≤ f → f < frame → f ∈ b.freeSet
  gap : ∀ f, f + 1 = frame - runLen → f ∉ b.freeSet
  none_before : ∀ s, s + n ≤ frame → ¬ Finset.Ico s (s + n) ⊆ b.freeSet

/-- A run that starts before the last `runLen` frames and ends after them has the gap in it. -/
theorem Scan.not_before (h : Scan b n frame runStart runLen) (hs : s < frame - runLen) : ¬ Finset.Ico s (s + n) ⊆ b.freeSet := by
  intro hsub
  by_cases hend : s + n ≤ frame
  · exact h.none_before s hend hsub
  refine h.gap (frame - runLen - 1) (by omega) (hsub (mem_Ico.mpr ?_))
  omega

/-- The scan over `k` more frames finds the least run of `n`, or there is none up to there. -/
theorem Scan.findRun (h : Scan b n frame runStart runLen) : match b.findRun n (range' frame k) runStart runLen with
    | some start => IsLeast {s | Finset.Ico s (s + n) ⊆ b.freeSet} start
    | none => ∀ s, s + n ≤ frame + k → ¬ Finset.Ico s (s + n) ⊆ b.freeSet := by
  induction k generalizing frame runStart runLen with
  | zero => exact h.none_before
  | succ k ih =>
    rw [range'_succ, Bitmap.findRun]
    have hle := h.le
    by_cases hfree : test b.bits frame = true
    · have hstart : runStart.getD frame = frame - runLen := by
        rw [h.start]
        split
        · next hzero => rw [hzero]; rfl
        · rfl
      have hfree' : ∀ f, frame - runLen ≤ f → f < frame + 1 → f ∈ b.freeSet := by
        intro f hge hlt
        rcases Nat.lt_succ_iff_lt_or_eq.mp hlt with hlt | rfl
        · exact h.free f hge hlt
        · exact mem_freeSet.mpr hfree
      simp only [hfree, if_true, hstart]
      have hshort := h.short
      by_cases hn : runLen + 1 = n
      · rw [if_pos hn]
        refine ⟨fun f hf => ?_, fun s hs => ?_⟩
        · have := mem_Ico.mp hf
          exact hfree' f this.1 (by omega)
        · by_contra hlt
          exact h.not_before (not_le.mp hlt) hs
      · have hsame : frame + 1 - (runLen + 1) = frame - runLen := by omega
        have hnext : Scan b n (frame + 1) (some (frame - runLen)) (runLen + 1) := by
          refine ⟨by omega, by omega, ?_, hsame ▸ hfree', hsame ▸ h.gap, fun s hs => h.not_before (by omega)⟩
          rw [if_neg (by omega), hsame]
        have := ih hnext
        rw [if_neg hn]
        rwa [Nat.add_right_comm, Nat.add_assoc] at this
    · have hused : frame ∉ b.freeSet := fun hm => hfree (mem_freeSet.mp hm)
      have hnext : Scan b n (frame + 1) none 0 := by
        refine ⟨by omega, by have := h.short; omega, rfl, fun f hge hlt => by omega, ?_, ?_⟩
        · intro f hf
          obtain rfl : f = frame := by omega
          exact hused
        · intro s hs hsub
          by_cases hend : s + n ≤ frame
          · exact h.none_before s hend hsub
          have := h.short
          exact hused (hsub (mem_Ico.mpr (by omega)))
      simp only [hfree]
      have := ih hnext
      rwa [Nat.add_right_comm, Nat.add_assoc] at this

theorem support_clear_range (ws : List (BitVec 64)) (start n : Nat) : support ((range' start n).foldl clear ws) =
      support ws \ Finset.Ico start (start + n) := by
  induction n generalizing ws start with
  | zero => simp
  | succ n ih =>
    rw [range'_succ, foldl_cons, ih, support_clear _ (by decide)]
    ext f
    simp only [mem_sdiff, mem_erase, mem_Ico]
    by_cases hf : f ∈ support ws
    · simp only [hf, and_true, true_and]
      omega
    · simp [hf]

theorem length_clear_range (ws : List (BitVec 64)) (fs : List Nat) : (fs.foldl clear ws).length = ws.length := by
  induction fs generalizing ws with
  | nil => rfl
  | cons f fs ih => rw [foldl_cons, ih, length_clear]

theorem Inv.allocContiguous (h : b.Inv) (n : Nat) : (b.allocContiguous n).1.Inv ∧ (b.allocContiguous n).1.capacity = b.capacity ∧
      SetStep b.capacity b.freeSet (.allocContiguous n) (b.allocContiguous n).2 (b.allocContiguous n).1.freeSet := by
  unfold Bitmap.allocContiguous
  split
  · next hn =>
    refine ⟨h, rfl, .noRun (hn.imp_right fun hlt s hsub => ?_)⟩
    have hcard := card_le_card hsub
    rw [Nat.card_Ico, ← h.count] at hcard
    omega
  next hn =>
  have hscan : Scan b n 0 none 0 := ⟨le_rfl, by omega, rfl, fun f _ hf => by omega, fun f hf => by omega,
    fun s hs => by omega⟩
  have hrun := hscan.findRun (k := b.capacity)
  rw [← range_eq_range'] at hrun
  cases hfind : b.findRun n (range b.capacity) none 0 with
  | none =>
    rw [hfind] at hrun
    refine ⟨h, rfl, .noRun (.inr fun s hsub => hrun s ?_ hsub)⟩
    -- a run lies below the capacity
    have hlast := h.below (s + n - 1) (hsub (mem_Ico.mpr (by omega)))
    omega
  | some start =>
    rw [hfind] at hrun
    have hset := support_clear_range b.bits start n
    have hsub : ∀ g ∈ support ((range' start n).foldl clear b.bits),
        g ∈ b.freeSet := fun g hg => (mem_sdiff.mp (hset ▸ hg)).1
    refine ⟨⟨?_, ?_, fun g hg => h.below g (hsub g hg), ?_⟩, rfl, ?_⟩
    · show b.capacity ≤ 64 * _
      rw [length_clear_range]
      exact h.fits
    · show b.framesFree - n = (support _).card
      rw [hset]
      show _ = (b.freeSet \ _).card
      rw [card_sdiff_of_subset hrun.1, Nat.card_Ico, h.count]
      omega
    · intro j hj
      refine (word_eq_zero_iff _ (by decide)).mpr fun g hg => ?_
      exact (word_eq_zero_iff _ (by decide)).mp (h.hint j hj) g (hsub g hg)
    · show SetStep _ _ _ _ (support _)
      rw [hset]
      exact .run (by omega) hrun

/-! ### Every run -/

theorem Inv.apply (h : b.Inv) (hop : b.apply checks op = some (b', r)) :
    b'.Inv ∧ b'.capacity = b.capacity ∧ SetStep b.capacity b.freeSet op r b'.freeSet := by
  cases op with
  | releaseRange start count =>
    obtain ⟨b₁, hrel, heq⟩ := map_eq_some_iff.mp hop
    cases heq
    exact h.releaseRange hrel
  | alloc =>
    have hstep := h.alloc
    rwa [some.inj hop] at hstep
  | allocContiguous n =>
    have hstep := h.allocContiguous n
    rwa [some.inj hop] at hstep
  | free frame =>
    obtain ⟨b₁, hfree, heq⟩ := map_eq_some_iff.mp hop
    cases heq
    unfold Bitmap.free at hfree
    split at hfree
    · next hlt =>
      cases hfree
      obtain ⟨hinv, hset⟩ := h.setBitTracked hlt
      exact ⟨hinv, capacity_setBitTracked frame, hset ▸ .freed hlt⟩
    · cases hfree

theorem Inv.run (h : b.Inv) (hrun : Run checks b log b') :
    b'.Inv ∧ b'.capacity = b.capacity ∧ SetRun b.capacity b.freeSet log b'.freeSet := by
  induction hrun with
  | nil b => exact ⟨h, rfl, .nil _⟩
  | cons hop hrest ih =>
    obtain ⟨hinv, hcap, hstep⟩ := h.apply hop
    obtain ⟨hinv', hcap', hsteps⟩ := ih hinv
    exact ⟨hinv', hcap'.trans hcap, .cons hstep (hcap ▸ hsteps)⟩

/-- For every storage, every capacity that fits and every sequence of operations: the counter, the
capacity and the cursor are respected, the next operation does what it does to a finite set, a frame is
given back before it is handed out again, and freeing a free frame changes nothing. -/
theorem bitmap_refines_free_set {checks : Bool} {bits : List (BitVec 64)} {capacity : Nat} {b₀ b : Bitmap}
    {log : List (Op × Option Nat)} (hnew : new bits capacity = some b₀) (hrun : Run checks b₀ log b) :
    SetRun capacity ∅ log b.freeSet ∧
    b.framesFree = b.freeSet.card ∧ (∀ f, test b.bits f = true → f < capacity) ∧
    (∀ i < b.nextHint, word b.bits i = 0#64) ∧
    (∀ op b' r, b.apply checks op = some (b', r) → SetStep capacity b.freeSet op r b'.freeSet) ∧
    (∀ pre x mid y post f, log = pre ++ x :: mid ++ y :: post → HandsOut x f → HandsOut y f →
      ∃ z ∈ mid, z.1.Returns f) ∧
    ∀ f b', f ∈ b.freeSet → b.free f = some b' → b' = b := by
  obtain ⟨hinv₀, hempty, hcap₀⟩ := inv_new hnew
  obtain ⟨hinv, hcap, hsteps⟩ := hinv₀.run hrun
  rw [hcap₀] at hcap hsteps
  rw [hempty] at hsteps
  refine ⟨hsteps, hinv.count, fun f hf => hcap ▸ hinv.below f (mem_freeSet.mpr hf), hinv.hint,
    fun op b' r hop => hcap ▸ (hinv.apply hop).2.2, ?_, ?_⟩
  · intro pre x mid y post f hlog hx hy
    exact hsteps.handed_out_once hlog hx hy
  · intro f b' hf hfree
    rw [Bitmap.free, if_pos (hinv.below f hf), setBitTracked_of_mem hf] at hfree
    exact (some.inj hfree).symm

/-- Frames 5 to 7 are released, and the lowest is handed out. -/
theorem bitmap_refines_free_set_released : ∃ b₀ b, new [0#64] 40 = some b₀ ∧
    Run true b₀ [(.releaseRange 5 3, none), (.alloc, some 5)] b ∧ b.framesFree = b.freeSet.card :=
  have hnew : new [0#64] 40 = some ⟨[0#64], 40, 0, 0, 0⟩ := rfl
  have hrun : Run true ⟨[0#64], 40, 0, 0, 0⟩ [(.releaseRange 5 3, none), (.alloc, some 5)]
      ⟨[0b11000000#64], 40, 2, 0, 1⟩ :=
    .cons (show apply ⟨[0#64], 40, 0, 0, 0⟩ true (.releaseRange 5 3) = some (⟨[0b11100000#64], 40, 3, 0, 0⟩, none) by decide)
      (.cons (by decide +kernel) (.nil _))
  ⟨_, _, hnew, hrun, (bitmap_refines_free_set hnew hrun).2.1⟩

end Bitmap

end SnitchOs.Mem
