import SnitchOs.Mem.PartialMap
import SnitchOs.Proc.Elf
import Mathlib.Data.List.Nodup

/-!
# Loading an image

`load` parses the image, plans its pages, gives every page a zeroed frame mapped into the user root,
and copies the file bytes.
-/

namespace SnitchOs.Proc

open Mem Function List Option PhysMem LoadSegment

def frameSize : Nat := 4096

inductive LoadError where
  | parse (e : ElfError)
  | plan (e : PlanError)
  | map (e : MapError)
  | outOfFrames
  deriving DecidableEq

structure Loaded where
  entry : Nat
  floatAbi : FloatAbi
  deriving DecidableEq

/-- Page permissions of a segment's: always for user mode. -/
def permsFor (p : SegmentPerms) : PtePerms :=
  PtePerms.u ||| (if p.read then PtePerms.r else 0) ||| (if p.write then PtePerms.w else 0) |||
    (if p.exec then PtePerms.x else 0)

def writeByte (m : PhysMem) (frame : Pa) (off : Nat) (b : UInt8) : PhysMem :=
  let lane := 8 * (off % 8)
  m.writeEntry frame (off / 8)
    ((m.word frame (off / 8) &&& ~~~(0xff#64 <<< lane)) ||| (BitVec.ofNat 64 b.toNat <<< lane))

def copyBytes (frame : Pa) : Nat → List UInt8 → PhysMem → PhysMem
  | _, [], m => m
  | off, b :: bs, m => copyBytes frame (off + 1) bs (writeByte m frame off b)

/-- A zeroed frame for every planned page, mapped; the frames, by page. -/
def mapPages (root : Pa) :
    List (Nat × SegmentPerms) → PhysMem → PhysMem × Except LoadError (List (Nat × Pa))
  | [], m => (m, .ok [])
  | (pageVa, perms) :: rest, m =>
    match m.allocZeroed with
    | none => (m, .error .outOfFrames)
    | some (f, m) =>
      match m.map root pageVa f (permsFor perms) with
      | (m, .error e) => (m, .error (.map e))
      | (m, .ok ()) =>
        match mapPages root rest m with
        | (m, .error e) => (m, .error e)
        | (m, .ok dstByPage) => (m, .ok ((pageVa, f) :: dstByPage))

def copyAll (image : List UInt8) (dstByPage : List (Nat × Pa)) :
    List CopyWindow → PhysMem → Option PhysMem
  | [], m => some m
  | w :: ws, m => do
    let frame ← dstByPage.lookup w.pageVa
    copyAll image dstByPage ws (copyBytes frame w.pageOff ((image.drop w.srcOff).take w.len) m)

def copySegments (checks : Bool) (image : List UInt8) (dstByPage : List (Nat × Pa)) :
    List LoadSegment → PhysMem → Option PhysMem
  | [], m => some m
  | seg :: segs, m => do
    let ws ← copyWindows checks seg frameSize
    copySegments checks image dstByPage segs (← copyAll image dstByPage ws m)

def load (checks : Bool) (m : PhysMem) (root : Pa) (image : List UInt8) :
    Option (PhysMem × Except LoadError Loaded) :=
  match parse checks image with
  | none => none
  | some (.error e) => some (m, .error (.parse e))
  | some (.ok plan) =>
    match pagePerms checks plan frameSize with
    | none => none
    | some (.error e) => some (m, .error (.plan e))
    | some (.ok permsByPage) =>
      match mapPages root permsByPage m with
      | (m, .error e) => some (m, .error e)
      | (m, .ok dstByPage) =>
        match copySegments checks image dstByPage plan.segments m with
        | none => none
        | some m => some (m, .ok { entry := plan.entry, floatAbi := plan.floatAbi })

/-! ### Mapping the planned pages -/

/-- Running out of frames, for a page or for a table. -/
def LoadError.IsOutOfFrames (e : LoadError) : Prop := e = .outOfFrames ∨ e = .map .outOfFrames

/-- The pages are mapped, each to a zeroed frame of its own that was free, and no other page is. -/
structure MapsFresh (m m' : PhysMem) (root : Pa) (byPage : List (Nat × SegmentPerms)) (dst : List (Nat × Pa)) :
    Prop where
  pages : dst.map (·.1) = byPage.map (·.1)
  nodup : (dst.map (·.2)).Nodup
  fresh : ∀ e ∈ dst, e.2 ∈ m.free
  zero : ∀ e ∈ dst, ∀ i, m'.word e.2 i = 0
  found : ∀ e ∈ byPage, ∃ d ∈ dst, d.1 = e.1 ∧
    ∀ va, va / 4096 * 4096 = e.1 → m'.translate root va = (Pte.leaf d.2 (permsFor e.2)).toLeaf
  other : ∀ va < userVaEnd, (∀ e ∈ byPage, va / 4096 * 4096 ≠ e.1) → m'.translate root va = m.translate root va

theorem entryOf_setPage (hva : va < userVaEnd) (hva' : va' < userVaEnd) :
    entryOf (setPage page va pte) va' = if va / 4096 = va' / 4096 then pte else entryOf page va' := by
  have hlt : va < 2 ^ 38 := hva
  have hlt' : va' < 2 ^ 38 := hva'
  have hiff : SamePage va va' ↔ va / 4096 = va' / 4096 := by
    simp only [SamePage, splitVa_vpn2, splitVa_vpn1, splitVa_vpn0]
    omega
  rw [setPage_apply]
  simp [hiff]

/-- Pages of the user half: every one gets a frame that was free, or frames run out, or one is mapped. -/
theorem mapPages_run : ∀ {byPage : List (Nat × SegmentPerms)} {kernel : Pa → Prop} {m : PhysMem} {tables : Node → Option Pa}
      {page : Nat → Nat → Nat → Pte}, UserTree m kernel tables page → tables .root = some root →
      Ascending byPage → (∀ e ∈ byPage, e.1 < userVaEnd ∧ e.1 % 4096 = 0) →
      ∃ m' r, mapPages root byPage m = (m', r) ∧ KeepsHigh kernel root m m' ∧
        ((∃ dst, r = .ok dst ∧ MapsFresh m m' root byPage dst) ∨ (m' = m ∨ m'.free.length < m.free.length) ∧ ∃ e, r = .error e ∧
            (e.IsOutOfFrames ∧ m.free.length ≤ 3 * byPage.length ∨
              e = .map .alreadyMapped ∧ ∃ d ∈ byPage, (entryOf page d.1).isValid = true)) := by
  intro byPage
  induction byPage with
  | nil =>
    intro kernel m tables page _ _ _ _
    exact ⟨m, _, rfl, .refl _ _ _ _, .inl ⟨[], rfl, rfl, nodup_nil, by simp, by simp, by simp, fun _ _ _ => rfl⟩⟩
  | cons e byPage ih =>
    intro kernel m tables page htree hroot hasc huser
    obtain ⟨va, perms⟩ := e
    obtain ⟨⟨hva, haligned⟩, huser'⟩ := forall_mem_cons.mp huser
    obtain ⟨habove, hasc'⟩ := pairwise_cons.mp hasc
    cases hfree : m.free with
    | nil =>
      exact ⟨m, _, by simp only [mapPages, allocZeroed, hfree], .refl _ _ _ _,
        .inr ⟨.inl rfl, _, rfl, .inl ⟨.inl rfl, Nat.zero_le _⟩⟩⟩
    | cons f rest =>
      obtain ⟨htree₁, hk₁⟩ := htree.take_frame hroot hfree
      obtain ⟨m₂, tables₂, r, hmap, hk₂, hinst, hcases⟩ :=
        htree₁.map_cases hroot (splitVa_low hva) f (permsFor perms)
      have hlow : ∀ {k : Pa → Prop} {a b : PhysMem}, KeepsHigh (fun p => k p ∨ p = f) root a b → KeepsHigh k root a b :=
        fun h => h.mono fun _ => .inl
      have hless : m₂.free.length ≤ rest.length := hinst.sublist.length_le
      have hspent : rest.length ≤ m₂.free.length + 2 := hinst.spent
      obtain ⟨-, hr⟩ | ⟨rfl, -, htree₂⟩ := hcases
      · have hfewer : m₂.free.length < (f :: rest).length := Nat.lt_succ_of_le hless
        obtain ⟨rfl, hempty⟩ | ⟨hvalid, rfl⟩ := hr
        · rw [hempty, length_nil] at hspent
          refine ⟨m₂, _, by simp only [mapPages, allocZeroed, hfree, hmap], hk₁.trans (hlow hk₂),
            .inr ⟨.inr hfewer, _, rfl, .inl ⟨.inr rfl, ?_⟩⟩⟩
          simp only [length_cons]
          omega
        · exact ⟨m₂, _, by simp only [mapPages, allocZeroed, hfree, hmap], hk₁.trans (hlow hk₂),
            .inr ⟨.inr hfewer, _, rfl, .inr ⟨rfl, _, mem_cons_self, hvalid⟩⟩⟩
      replace htree₂ : UserTree m₂ _ tables₂ (setPage page va (Pte.leaf f (permsFor perms))) := htree₂
      have hroot₂ := hinst.grows.keep _ _ hroot
      have hfirst : ∀ d ∈ byPage, va / 4096 ≠ d.1 / 4096 := by
        intro d hd
        have := habove d hd
        have := (huser' d hd).2
        omega
      obtain ⟨m₃, r, hrun, hk₃, hr⟩ := ih htree₂ hroot₂ hasc' huser'
      have hk := hk₁.trans (hlow (hk₂.trans hk₃))
      obtain ⟨dst, rfl, hdst⟩ | ⟨hfewer, e, rfl, he⟩ := hr
      · refine ⟨m₃, .ok ((va, f) :: dst), by simp only [mapPages, allocZeroed, hfree, hmap, hrun], hk, .inl ⟨_, rfl, ?_⟩⟩
        have hnodup : (f :: rest).Nodup := hfree ▸ htree.free_nodup
        have hentry : ∀ va' < userVaEnd, m₂.translate root va' =
            (if va / 4096 = va' / 4096 then Pte.leaf f (permsFor perms) else entryOf page va').toLeaf := by
          intro va' hva'
          rw [htree₂.translate hroot₂ (splitVa_low hva'), ← entryOf_setPage hva hva']
        have hin : ∀ d ∈ dst, d.2 ∈ rest := fun d hd => hinst.sublist.subset (hdst.fresh d hd)
        refine ⟨by simp [hdst.pages], ?_, ?_, ?_, ?_, ?_⟩
        · refine nodup_cons.mpr ⟨fun hf => ?_, hdst.nodup⟩
          obtain ⟨d, hd, rfl⟩ := mem_map.mp hf
          exact (nodup_cons.mp hnodup).1 (hin d hd)
        · rw [hfree]
          exact forall_mem_cons.mpr ⟨mem_cons_self, fun d hd => mem_cons_of_mem _ (hin d hd)⟩
        · refine forall_mem_cons.mpr ⟨fun i => ?_, hdst.zero⟩
          rw [(hk₂.trans hk₃).kernel_word f (.inr rfl)]
          exact if_pos rfl
        · refine forall_mem_cons.mpr ⟨⟨_, mem_cons_self, rfl, fun va' hat => ?_⟩, fun e he => ?_⟩
          · have hlt : va < 2 ^ 38 := hva
            have hva' : va' < userVaEnd := show va' < 2 ^ 38 by dsimp only at hat; omega
            rw [hdst.other va' hva' fun d hd => by have := hfirst d hd; omega, hentry va' hva',
              if_pos (by omega)]
          · obtain ⟨d, hd, hat⟩ := hdst.found e he
            exact ⟨d, mem_cons_of_mem _ hd, hat⟩
        · intro va' hva' hno
          obtain ⟨hne, hno⟩ := forall_mem_cons.mp hno
          rw [hdst.other va' hva' hno, hentry va' hva', if_neg (by omega), htree.translate hroot (splitVa_low hva')]
      · refine ⟨m₃, _, by simp only [mapPages, allocZeroed, hfree, hmap, hrun], hk, .inr ⟨.inr ?_, e, rfl, he.imp ?_ ?_⟩⟩
        · rcases hfewer with rfl | hlt <;> simp only [length_cons] <;> omega
        · rintro ⟨ho, hle⟩
          exact ⟨ho, by simp only [length_cons]; omega⟩
        · rintro ⟨ha, d, hd, hv⟩
          rw [entryOf_setPage hva (huser' d hd).1, if_neg (hfirst d hd)] at hv
          exact ⟨ha, d, mem_cons_of_mem _ hd, hv⟩

/-! ### Copying -/

theorem copyBytes_free (frame : Pa) :
    ∀ (bs : List UInt8) (off : Nat) (m : PhysMem), (copyBytes frame off bs m).free = m.free := by
  intro bs
  induction bs with
  | nil => exact fun _ _ => rfl
  | cons b bs ih => exact fun off m => ih (off + 1) (writeByte m frame off b)

theorem copyBytes_other (hp : p ≠ frame) : ∀ (bs : List UInt8) (off : Nat) (m : PhysMem),
      (copyBytes frame off bs m).word p = m.word p := by
  intro bs
  induction bs with
  | nil => exact fun _ _ => rfl
  | cons b bs ih =>
    intro off m
    refine (ih (off + 1) (writeByte m frame off b)).trans ?_
    funext i
    simp [writeByte, writeEntry, hp, false_and]

/-! ### The bytes of a frame -/

def readByte (m : PhysMem) (frame : Pa) (off : Nat) : UInt8 :=
  ⟨(m.word frame (off / 8)).extractLsb' (8 * (off % 8)) 8⟩

theorem extractLsb'_lane (w : BitVec 64) (b : UInt8) (hj : j < 8) (k : Nat) :
    ((w &&& ~~~(0xff#64 <<< (8 * k))) ||| (BitVec.ofNat 64 b.toNat <<< (8 * k))).extractLsb' (8 * j) 8 =
      if j = k then b.toBitVec else w.extractLsb' (8 * j) 8 := by
  have hmask : ∀ n < 64, (0xff#64).getLsbD n = decide (n < 8) := by
    intro n hn
    exact Nat.testBit_two_pow_sub_one 8 n
  have hbyte : BitVec.ofNat 64 b.toNat = b.toBitVec.setWidth 64 := BitVec.ofNat_toNat 64 b.toBitVec
  refine BitVec.eq_of_getLsbD_eq fun i hi => ?_
  rw [hbyte]
  have hlt : 8 * j + i < 64 := by omega
  by_cases hjk : j = k
  · subst hjk
    have h64 : i < 64 := by omega
    simp [hi, hlt, h64, hmask i h64, -BitVec.getLsbD_eq_getElem]
  · by_cases hlow : 8 * j + i < 8 * k
    · simp [hi, hlt, hjk, hlow, -BitVec.getLsbD_eq_getElem]
    have hhigh : ¬ 8 * j + i - 8 * k < 8 := by omega
    have hzero : b.toBitVec.getLsbD (8 * j + i - 8 * k) = false := BitVec.getLsbD_of_ge _ _ (Nat.not_lt.mp hhigh)
    simp [hi, hlt, hjk, hmask (8 * j + i - 8 * k) (by omega), hhigh, hzero, -BitVec.getLsbD_eq_getElem]

theorem readByte_writeByte (m : PhysMem) (frame p : Pa) (off o : Nat) (b : UInt8) :
    readByte (writeByte m frame off b) p o = if p = frame ∧ o = off then b else readByte m p o := by
  by_cases hword : p = frame ∧ o / 8 = off / 8
  · have hiff : (p = frame ∧ o = off) ↔ o % 8 = off % 8 := by
      refine ⟨fun h => by rw [h.2], fun h => ⟨hword.1, ?_⟩⟩
      omega
    rw [if_congr hiff rfl rfl]
    simp only [readByte, writeByte, writeEntry, hword, and_self, if_true, extractLsb'_lane _ b (Nat.mod_lt o (by decide))]
    split <;> rfl
  · have hne : ¬ (p = frame ∧ o = off) := fun h => hword ⟨h.1, by rw [h.2]⟩
    simp [readByte, writeByte, writeEntry, hword, hne]

/-- Pages and frames go together one to one. -/
structure Frames (dst : List (Nat × Pa)) : Prop where
  aligned : ∀ e ∈ dst, e.1 % 4096 = 0
  pages : (dst.map (·.1)).Nodup
  frames : (dst.map (·.2)).Nodup

/-- The frames hold what is to be seen at the addresses of their pages. -/
def Shows (dst : List (Nat × Pa)) (m : PhysMem) (content : Nat → UInt8) : Prop :=
  ∀ e ∈ dst, ∀ off < 4096, readByte m e.2 off = content (e.1 + off)

def put (image : List UInt8) (content : Nat → UInt8) (e : Nat × Nat) : Nat → UInt8 :=
  update content e.1 (image.getD e.2 0)

theorem foldl_put_spread (image : List UInt8) (content : Nat → UInt8) (va src n : Nat) :
    (spread va src n).foldl (put image) content = fun a =>
      if va ≤ a ∧ a < va + n then image.getD (src + (a - va)) 0 else content a := by
  induction n with
  | zero =>
    funext a
    rw [if_neg (by omega)]
    rfl
  | succ n ih =>
    have hlast : spread (va + n) (src + n) 1 = [(va + n, src + n)] := rfl
    rw [← spread_append, foldl_append, ih, hlast, foldl_cons, foldl_nil, put]
    funext a
    by_cases ha : a = va + n
    · subst ha
      rw [update_self, if_pos (by omega), Nat.add_sub_cancel_left]
    · rw [update_of_ne ha]
      simp [show (va ≤ a ∧ a < va + (n + 1)) ↔ (va ≤ a ∧ a < va + n) by omega]

variable {image : List UInt8} {dst : List (Nat × Pa)}

section Shows

theorem Shows.writeByte (hdst : Frames dst) (hs : Shows dst m content) (he : e ∈ dst)
    (hoff : off < 4096) (b : UInt8) : Shows dst (writeByte m e.2 off b) (update content (e.1 + off) b) := by
  intro d hd o ho
  rw [readByte_writeByte]
  split
  · next h =>
    obtain rfl := inj_on_of_nodup_map hdst.frames hd he h.1
    rw [h.2, update_self]
  next h =>
  rw [update_of_ne, hs d hd o ho]
  intro heq
  have := hdst.aligned d hd
  have := hdst.aligned e he
  obtain rfl := inj_on_of_nodup_map hdst.pages hd he (by omega)
  exact h ⟨rfl, by omega⟩

theorem Shows.copyBytes (hdst : Frames dst) (he : e ∈ dst) :
    ∀ {m : PhysMem} {content : Nat → UInt8} {off src : Nat}, Shows dst m content → off + n ≤ 4096 →
      src + n ≤ image.length → Shows dst (copyBytes e.2 off ((image.drop src).take n) m)
        ((spread (e.1 + off) src n).foldl (put image) content) := by
  induction n with
  | zero => exact fun hs _ _ => hs
  | succ n ih =>
    intro m content off src hs hoff hsrc
    have hbyte : image.getD src 0 = image[src] := getD_eq_getElem _ _ _
    rw [drop_eq_getElem_cons (by omega), take_succ_cons, Nat.add_comm n 1, ← spread_append, foldl_append, ← hbyte]
    exact ih (hs.writeByte hdst he (by omega) _) (by omega) (by omega)

end Shows

/-- With the file bytes of the segment over what was there. -/
def LoadSegment.over (seg : LoadSegment) (image : List UInt8) (content : Nat → UInt8) (va : Nat) : UInt8 :=
  if seg.vaddr ≤ va ∧ va < seg.vaddr + seg.fileSize then image.getD (seg.fileOffset + (va - seg.vaddr)) 0
  else content va

theorem copyAll_run : ∀ {ws : List CopyWindow} {m : PhysMem}, (∀ w ∈ ws, w.pageVa ∈ dst.map (·.1) ∧ w.Inside image) →
      ∃ m', copyAll image dst ws m = some m' ∧ m'.free = m.free ∧
        (∀ p, (∀ e ∈ dst, e.2 ≠ p) → m'.word p = m.word p) ∧ (Frames dst → ∀ content, Shows dst m content →
          Shows dst m' ((ws.flatMap CopyWindow.bytes).foldl (put image) content)) := by
  intro ws
  induction ws with
  | nil => exact fun _ => ⟨_, rfl, rfl, fun _ _ => rfl, fun _ _ hs => hs⟩
  | cons w ws ih =>
    intro m hin
    obtain ⟨⟨hmem, hw⟩, hin⟩ := forall_mem_cons.mp hin
    obtain ⟨frame, hlook⟩ : ∃ frame, dst.lookup w.pageVa = some frame := by
      cases hl : dst.lookup w.pageVa with
      | some frame => exact ⟨frame, rfl⟩
      | none =>
        obtain ⟨⟨va, f⟩, he, hva⟩ := mem_map.mp hmem
        have := lookup_eq_none_iff.mp hl (va, f) he
        simp [← hva] at this
    obtain ⟨l₁, l₂, hsplit, -⟩ := lookup_eq_some_iff.mp hlook
    have hframe : (w.pageVa, frame) ∈ dst := by
      rw [hsplit]
      exact mem_append_right _ mem_cons_self
    obtain ⟨m', hrun, hfree, hkeep, hshows⟩ := ih (m := copyBytes frame w.pageOff ((image.drop w.srcOff).take w.len) m) hin
    refine ⟨m', by simp only [copyAll, hlook, bind_eq_bind, bind_some, hrun],
      hfree.trans (copyBytes_free _ _ _ _), ?_, fun hdst content hs => ?_⟩
    · intro p hp
      exact (hkeep p hp).trans (copyBytes_other (fun he => hp _ hframe he.symm) _ _ _)
    · rw [flatMap_cons, foldl_append]
      exact hshows hdst _ (hs.copyBytes hdst hframe hw.in_page hw.in_image)

theorem copySegments_run (checks : Bool) : ∀ {segs : List LoadSegment} {m : PhysMem}, (∀ seg ∈ segs, seg.Fits image) →
      (∀ seg ∈ segs, seg.BelowTop) → (∀ seg ∈ segs, ∀ va ∈ seg.pages, va ∈ dst.map (·.1)) →
      ∃ m', copySegments checks image dst segs m = some m' ∧ m'.free = m.free ∧
        (∀ p, (∀ e ∈ dst, e.2 ≠ p) → m'.word p = m.word p) ∧ (Frames dst → ∀ content, Shows dst m content →
          Shows dst m' (segs.foldl (fun content seg => seg.over image content) content)) := by
  intro segs
  induction segs with
  | nil => exact fun _ _ _ => ⟨_, rfl, rfl, fun _ _ => rfl, fun _ _ hs => hs⟩
  | cons seg segs ih =>
    intro m hfit htop hpages
    obtain ⟨hfit₁, hfit⟩ := forall_mem_cons.mp hfit
    obtain ⟨htop₁, htop⟩ := forall_mem_cons.mp htop
    obtain ⟨hpages₁, hpages⟩ := forall_mem_cons.mp hpages
    have hin : ∀ w ∈ seg.windows, w.pageVa ∈ dst.map (·.1) ∧ w.Inside image :=
      fun w hw => (mem_windows hfit₁ hw).imp_left (hpages₁ _)
    obtain ⟨m₁, hrun₁, hfree₁, hkeep₁, hshows₁⟩ := copyAll_run (m := m) hin
    obtain ⟨m₂, hrun₂, hfree₂, hkeep₂, hshows₂⟩ := ih (m := m₁) hfit htop hpages
    refine ⟨m₂, ?_, hfree₂.trans hfree₁, fun p hp => (hkeep₂ p hp).trans (hkeep₁ p hp), fun hdst content hs => ?_⟩
    · simp [copySegments, frameSize, copyWindows_eq checks hfit₁ htop₁, bind_eq_bind, bind_some, hrun₁, hrun₂]
    refine hshows₂ hdst _ ?_
    have hover := hshows₁ hdst content hs
    rw [bytes_windows hfit₁, foldl_put_spread] at hover
    exact hover

/-! ### A whole load -/

section

variable {m m₁ : PhysMem} {boot root : Pa} {checks : Bool} {image : List UInt8} {plan : LoadPlan}
  {byPage : List (Nat × SegmentPerms)}

theorem below_top (hlow : ∀ seg ∈ plan.segments, seg.vaddr + seg.memSize ≤ userVaEnd) : ∀ seg ∈ plan.segments, seg.BelowTop := by
  intro seg hseg
  have hend : seg.vaddr + seg.memSize ≤ 2 ^ 38 := hlow seg hseg
  omega

theorem planned_page_low (hc : Collects (requests plan.segments) byPage)
    (hlow : ∀ seg ∈ plan.segments, seg.vaddr + seg.memSize ≤ userVaEnd) :
    ∀ e ∈ byPage, e.1 + frameSize ≤ userVaEnd ∧ e.1 % 4096 = 0 := by
  rintro ⟨va, q⟩ he
  obtain ⟨p, hp⟩ := (hc.pages va).mp ⟨q, he⟩
  obtain ⟨seg, hseg, -, n, rfl, -, hn⟩ := mem_requests.mp hp
  have hend : seg.vaddr + seg.memSize ≤ 2 ^ 38 := hlow seg hseg
  show 4096 * n + 4096 ≤ 2 ^ 38 ∧ 4096 * n % 4096 = 0
  omega

theorem segment_pages_planned (hc : Collects (requests plan.segments) byPage) :
    ∀ seg ∈ plan.segments, ∀ va ∈ seg.pages, va ∈ byPage.map (·.1) := by
  intro seg hseg va hva
  obtain ⟨q, hq⟩ := (hc.pages va).mpr ⟨seg.perms, mem_requests.mpr ⟨seg, hseg, rfl, mem_pages.mp hva⟩⟩
  exact mem_map.mpr ⟨(va, q), hq, rfl⟩

/-- Loading a plan whose segments are in the user half: nothing of the kernel half changes, and the
only failure is to run out of frames. -/
theorem load_run (hm : m.WellFormed boot) (hroot : m.newUserRoot boot = some (root, m₁))
    (hparse : parse checks image = some (.ok plan)) (hplan : pagePerms checks plan frameSize = some (.ok byPage))
    (hlow : ∀ seg ∈ plan.segments, seg.vaddr + seg.memSize ≤ userVaEnd) :
    ∃ m₂ r, load checks m₁ root image = some (m₂, r) ∧ KeepsHigh (KernelTable m boot) root m₁ m₂ ∧
      (r = .ok { entry := plan.entry, floatAbi := plan.floatAbi } ∨ ∃ e, r = .error e ∧ e.IsOutOfFrames) := by
  have htop := below_top hlow
  have hc := pagePerms_collects htop hplan
  have htree := hm.newUserRoot_tree hroot
  obtain ⟨m₂, r, hmap, hk, hr⟩ := mapPages_run htree (update_self ..) hc.ascending (fun e he => by
      obtain ⟨hle, ha⟩ := planned_page_low hc hlow e he
      exact ⟨by simp only [frameSize] at hle; omega, ha⟩)
  obtain ⟨dst, rfl, hdst⟩ | ⟨-, e, rfl, he⟩ := hr
  · obtain ⟨m₃, hcopy, hfree, hkeep, -⟩ := copySegments_run checks (m := m₂) (parse_fits hparse) htop
      (hdst.pages ▸ segment_pages_planned hc)
    refine ⟨m₃, _, by simp only [load, hparse, hplan, hmap, hcopy], hk.trans ⟨?_, ?_, ?_⟩, .inl rfl⟩
    · exact fun p hp => hkeep p (fun e he heq => htree.free_apart _ (hdst.fresh e he) (heq ▸ hp))
    · intro i _
      rw [hkeep root (fun e he heq => htree.owned .root root (update_self ..) (heq ▸ hdst.fresh e he))]
    · exact fun p hp => hfree ▸ hp
  · refine ⟨m₂, _, by simp only [load, hparse, hplan, hmap], hk, .inr ⟨e, rfl, ?_⟩⟩
    rcases he with ⟨he, -⟩ | ⟨-, d, -, hv⟩
    · exact he
    · exact absurd (show Pte.invalid.isValid = true from hv) (by decide)

/-! ### A small machine -/

def leBytes : Nat → Nat → List UInt8
  | 0, _ => []
  | n + 1, v => UInt8.ofNat v :: leBytes n (v / 256)

def onePage (flags vaddr : Nat) : List UInt8 :=
  elfMagic ++ [2, 1, 1] ++ leBytes 9 0 ++ leBytes 2 2 ++ leBytes 2 243 ++ leBytes 4 1 ++
    leBytes 8 vaddr ++ leBytes 8 64 ++ leBytes 8 0 ++ leBytes 4 4 ++ leBytes 2 64 ++ leBytes 2 56 ++
    leBytes 2 1 ++ leBytes 6 0 ++
    leBytes 4 1 ++ leBytes 4 flags ++ leBytes 8 0 ++ leBytes 8 vaddr ++ leBytes 8 vaddr ++
    leBytes 8 4 ++ leBytes 8 4096 ++ leBytes 8 4096

def onePagePlan (perms : SegmentPerms) (vaddr : Nat) : LoadPlan where
  entry := vaddr
  segments := [{ vaddr, fileOffset := 0, fileSize := 4, memSize := 4096, perms }]
  floatAbi := .double

def smallBoot : Pa := 0x80000000

/-- A boot root with one kernel table, for the heap's slot, and eight free frames. -/
def smallMem : PhysMem where
  word p i := if p = smallBoot ∧ i = 256 then Pte.branch 0x80001000 else 0
  free := (List.range 8).map (fun n => BitVec.ofNat 64 (0x80002000 + 4096 * n))

theorem smallMem_readEntry (h : ¬ (p = smallBoot ∧ i = 256)) : smallMem.readEntry p i = 0 := by
  simp [readEntry, smallMem, h]

theorem smallMem_wellFormed : smallMem.WellFormed smallBoot where
  nodup := by decide
  aligned p hp := by
    have hall : smallMem.free.all (fun p => decide (Aligned p)) = true := by decide
    exact of_decide_eq_true (all_eq_true.mp hall p hp)
  kernel_not_free := by
    rintro p (rfl | ⟨i, -, -, hb, hp⟩)
    · decide
    have hi : i = 256 := by
      by_contra hne
      rw [smallMem_readEntry (fun h => hne h.2)] at hb
      exact absurd hb (by decide)
    subst hi
    obtain rfl | ⟨j, hbranch, -⟩ := hp
    · decide
    have hchild : (smallMem.readEntry smallBoot 256).childPa ≠ smallBoot := by decide
    rw [smallMem_readEntry (fun h => hchild h.1)] at hbranch
    exact absurd hbranch (by decide)

theorem parse_onePage : (parse true (onePage 5 0x10000)).run =
    some (.ok (onePagePlan ⟨true, false, true⟩ 0x10000)) := by decide +kernel

theorem smallMem_newUserRoot : ∃ s, smallMem.newUserRoot smallBoot = some s :=
  isSome_iff_exists.mp (by decide)

/-- The file bytes of the segments, later ones over earlier ones, over zero. -/
def LoadPlan.described (plan : LoadPlan) (image : List UInt8) : Nat → UInt8 :=
  plan.segments.foldl (fun content seg => seg.over image content) fun _ => 0

end

end SnitchOs.Proc
