import SnitchOs.Copy.Transfer
import SnitchOs.Fs.Proto
import SnitchOs.Fs.RamFs
import SnitchOs.Lib.Effects

/-!
# The filesystem server

One round of the receive loop of `serve`, over any `Filesystem`. What it depends on outside the server is in `Round`:
the message as delivered, the caller's memory, the page tables at every chunk of the round's one copy, and whether the
kernel mints.

A client chooses the lengths. The kernel copies at most `maxUserStrLen` bytes and knows nothing of the buffer behind
the address, so the effect of a `CopyFromCaller` records that buffer's size beside the ranges written. When a range
goes past the buffer, the server's variables are no longer what the language says: `Round.overrun` is what becomes of
the filesystem.
-/

namespace SnitchOs.Fs

open Copy Mem Effects Prog List Badge Request RamFs

def nameCap : Nat := 64

def dataCap : Nat := 256

/-! ### Rounds and their effects -/

structure Round (F : Type) where
  badge : BitVec 64
  msg : Words
  /-- Whether the message came with a reply capability. -/
  reply : Bool := true
  mintOk : Bool := true
  /-- The address space that the reply capability leads to. -/
  callerRoot : Option Pa
  serverRoot : Pa
  /-- The page tables while the chunk at an offset is copied. -/
  mem : Nat → PhysMem
  /-- The caller's memory. -/
  bytes : Nat → UInt8
  /-- Where the server's buffer for the round is. -/
  buf : Nat
  overrun : F → F := id

inductive Effect
  /-- A pull into a buffer of `cap` bytes at `dst`, the ranges written, and what the kernel answers. -/
  | copyFromCaller (src len dst cap : Nat) (writes : List (Nat × Nat)) (ok : Bool)
  /-- `&buf[..n]` of a buffer of `cap` bytes. -/
  | slice (cap n : Nat)
  /-- A push of `n` bytes from where `data` is. -/
  | copyToCaller (data : List UInt8) (n dst : Nat)
  | denied (d : BitVec 64)
  | reply (msg : Words)
  | replyWithCap (msg : Words) (badge : BitVec 64)
deriving DecidableEq

section Server

variable {F : Type} (I : Filesystem F) (r : Round F)

def inside (dst cap : Nat) (writes : List (Nat × Nat)) : Bool :=
  writes.all fun w => decide (dst ≤ w.1 ∧ w.1 + w.2 ≤ dst + cap)

/-- The kernel's side of a pull: the ranges it writes, and whether it does not refuse. -/
def pull (src : UserBuf) : List (Nat × Nat) × Bool :=
  match r.callerRoot with
  | none => ([], false)
  | some root =>
    let copied := Across.copyAcross ⟨root, src.ptr.toNat, r.serverRoot, r.buf, src.len.toNat⟩ r.mem
    (copied.1, copied.2.isOk)

/-- `CopyFromCaller` into a buffer of `cap` bytes; the number of bytes copied unless it is refused. -/
def copyFromCaller (fs : F) (src : UserBuf) (cap : Nat) : Prog Effect (F × Option Nat) := do
  emit (.copyFromCaller src.ptr.toNat src.len.toNat r.buf cap (pull r src).1 (pull r src).2)
  pure (if inside r.buf cap (pull r src).1 then fs else r.overrun fs,
    if (pull r src).2 then some src.len.toNat else none)

/-- `CopyToCaller` of `n` bytes; whether it is not refused. -/
def copyToCaller (data : List UInt8) (n : Nat) (dst : UserBuf) : Prog Effect Bool := do
  emit (.copyToCaller data n dst.ptr.toNat)
  pure (match r.callerRoot with
    | none => false
    | some root => (Across.copyAcross ⟨r.serverRoot, r.buf, root, dst.ptr.toNat, n⟩ r.mem).2.isOk)

/-- `&buf[..n]`: past the end is a panic. -/
def sliceTo (cap n : Nat) : Prog Effect PUnit := do
  emit (.slice cap n)
  ofOption (if n ≤ cap then some ⟨⟩ else none)

def pulled (src : UserBuf) (n : Nat) : List UInt8 :=
  (List.range n).map fun k => r.bytes (src.ptr.toNat + k)

def replyWith (resp : Response) : Prog Effect PUnit := emit (.reply resp.encode)

/-! ### The handlers -/

/-- Pulls a filename across and hands it to `f`. -/
def withName {R : Type} (fs : F) (name : UserBuf) (f : F → Name → Option (F × Except FsError R)) :
    Prog Effect (F × Except FsError R) := do
  let (fs, copied) ← copyFromCaller r fs name nameCap
  match copied with
  | none => pure (fs, .error .nameTooLong)
  | some n =>
    sliceTo nameCap n
    if (ByteArray.mk (pulled r name n).toArray).validateUTF8 then ofOption (f fs (pulled r name n))
    else pure (fs, .error .nameTooLong)

def replyMintedChild (child : Except FsError InodeId) (childRights : FileRights) : Prog Effect PUnit :=
  match child with
  | .ok child =>
    if r.mintOk then
      emit (.replyWithCap (Response.inode child).encode (pack ⟨child, childRights⟩))
    else replyWith (.err .internal)
  | .error e => replyWith (.err e)

def create (fs : F) (dir : Badge) (name : UserBuf) (kind : NodeKind) : Prog Effect F := do
  let (fs, created) ← withName r fs name fun fs s => I.create fs dir.inode s kind
  replyMintedChild r created (dir.rights &&& (FileRights.read ||| FileRights.write))
  pure fs

def lookup (fs : F) (dir : Badge) (name : UserBuf) (requested : FileRights) : Prog Effect F := do
  let (fs, found) ← withName r fs name fun fs s => (I.lookup fs dir.inode s).map fun found => (fs, found)
  replyMintedChild r found (dir.rights &&& requested)
  pure fs

def remove (fs : F) (dir : Badge) (name : UserBuf) : Prog Effect F := do
  let (fs, removed) ← withName r fs name fun fs s => I.remove fs dir.inode s
  replyWith (match removed with
    | .ok () => .removed
    | .error e => .err e)
  pure fs

def write (fs : F) (file : Badge) (offset : BitVec 64) (src : UserBuf) : Prog Effect F := do
  let (fs, copied) ← copyFromCaller r fs src dataCap
  match copied with
  | none =>
    replyWith (.err .internal)
    pure fs
  | some n =>
    sliceTo dataCap n
    let (fs, written) ← ofOption (I.write fs file.inode offset.toNat (pulled r src n))
    replyWith (match written with
      | .ok written => .count (BitVec.ofNat 64 written)
      | .error e => .err e)
    pure fs

def pushAndReply (data : List UInt8) (n : Nat) (dst : UserBuf) (resp : Response) : Prog Effect PUnit := do
  let ok ← copyToCaller r data n dst
  replyWith (if ok then resp else .err .internal)

def read (fs : F) (file : Badge) (offset : BitVec 64) (dst : UserBuf) : Prog Effect F := do
  let want := min dst.len.toNat dataCap
  sliceTo dataCap want
  let (result, scratch) ← ofOption (I.read fs file.inode offset.toNat (List.replicate want 0))
  (match result with
    | .ok n => pushAndReply r scratch n dst (.count (BitVec.ofNat 64 n))
    | .error e => replyWith (.err e))
  pure fs

def readdir (fs : F) (dir : Badge) (index : BitVec 64) (nameDst : UserBuf) : Prog Effect F := do
  let listed ← ofOption (I.readdir fs dir.inode)
  (match listed with
    | .ok entries =>
      match entries[index.toNat]? with
      | some entry =>
        let n := min entry.name.length nameDst.len.toNat
        pushAndReply r entry.name n nameDst (.entry entry.ino entry.kind (BitVec.ofNat 64 n))
      | none => replyWith (.err .notFound)
    | .error e => replyWith (.err e))
  pure fs

def getXattr (fs : F) (file : Badge) (key : XattrKey) (dst : UserBuf) : Prog Effect F := do
  let attr ← ofOption (I.getxattr fs file.inode key.name)
  (match attr with
    | .ok value =>
      let n := min dst.len.toNat value.length
      pushAndReply r value n dst (.count (BitVec.ofNat 64 n))
    | .error e => replyWith (.err e))
  pure fs

def truncate (fs : F) (file : Badge) (len : BitVec 64) : Prog Effect F := do
  let (fs, truncated) ← ofOption (I.truncate fs file.inode len.toNat)
  replyWith (match truncated with
    | .ok () => .count len
    | .error e => .err e)
  pure fs

def stat (fs : F) (file : Badge) : Prog Effect F := do
  let result ← ofOption (I.stat fs file.inode)
  replyWith (match result with
    | .ok s => .stat s
    | .error e => .err e)
  pure fs

def dispatch (fs : F) (badge : Badge) : Request → Prog Effect F
  | .stat => stat I fs badge
  | .create name kind => create I r fs badge name kind
  | .lookup name rights => lookup I r fs badge name rights
  | .write offset src => write I r fs badge offset src
  | .read offset dst => read I r fs badge offset dst
  | .remove name => remove I r fs badge name
  | .readdir index nameDst => readdir I r fs badge index nameDst
  | .getXattr key dst => getXattr I r fs badge key dst
  | .truncate len => truncate I fs badge len

/-! ### The loop -/

/-- Badge `0`: mint the root file capability. -/
def attach (fs : F) : Prog Effect F :=
  if r.mintOk then do
    emit (.replyWithCap ⟨0, 0, 0, 0⟩ (pack ⟨0, FileRights.read ||| FileRights.write⟩))
    pure fs
  else pure fs

def request (fs : F) : Prog Effect F :=
  match decode r.msg with
  | .error _ => do
    replyWith (.err .internal)
    pure fs
  | .ok req =>
    match checkRights req.op (unpack r.badge).rights with
    | .error attempted => do
      emit (.denied (Denial.pack ⟨(unpack r.badge).inode, attempted⟩))
      replyWith (.err .denied)
      pure fs
    | .ok () => dispatch I r fs (unpack r.badge) req

def serveOne (fs : F) (r : Round F) : Prog Effect F :=
  if !r.reply then pure fs
  else if r.badge = 0 then attach r fs
  else request I r fs

def serve (fs : F) (rounds : List (Round F)) : Prog Effect F := rounds.foldlM (serveOne I) fs

/-! ### Buffers -/

end Server

/-- What a request has the server pull, and the size of the buffer it is pulled into. -/
def Request.pull? : Request → Option (UserBuf × Nat)
  | .write _ src => some (src, dataCap)
  | req => req.name?.map fun name => (name, nameCap)

namespace Effect

/-- The kernel writes inside the buffer, and a slice ends in it. -/
def InBounds : Effect → Prop
  | .copyFromCaller _ _ dst cap writes _ => ∀ w ∈ writes, dst ≤ w.1 ∧ w.1 + w.2 ≤ dst + cap
  | .slice cap n => n ≤ cap
  | _ => True

/-- The length of a pull is not larger than the buffer. -/
def LengthFits : Effect → Prop
  | .copyFromCaller _ len _ cap _ _ => len ≤ cap
  | _ => True

/-- A larger one is refused with nothing copied. -/
def FitsOrRefused : Effect → Prop
  | .copyFromCaller _ len _ cap writes ok => len ≤ cap ∨ writes = [] ∧ ok = false
  | _ => True

def bufferless : Effect → Bool
  | .copyFromCaller .. | .slice .. => false
  | _ => true

end Effect

/-! ### What a round may do -/

/-- What bounds the effects of a round and keeps `K` of the filesystem: the calls of the filesystem that
the round's badge lets through, and the effects they lead to. -/
structure Contract {F : Type} (I : Filesystem F) (r : Round F) (P : Effect → Prop) (K : F → Prop) : Prop where
  slice : ∀ {cap n}, n ≤ cap → P (.slice cap n)
  push : ∀ data n dst, P (.copyToCaller data n dst)
  denied : ∀ d, P (.denied d)
  reply : ∀ msg, P (.reply msg)
  attach : r.badge = 0 → P (.replyWithCap ⟨0, 0, 0, 0⟩ (pack ⟨0, FileRights.read ||| FileRights.write⟩))
  pull : ∀ {fs req src cap}, K fs → decode r.msg = .ok req → req.pull? = some (src, cap) →
    Emits P (copyFromCaller r fs src cap) fun x => K x.1 ∧ ∀ n ∈ x.2, n ≤ cap
  lookup : ∀ {fs name child} msg requested, r.badge ≠ 0 → K fs →
    I.lookup fs (unpack r.badge).inode name = some (.ok child) →
      P (.replyWithCap msg (pack ⟨child, (unpack r.badge).rights &&& requested⟩))
  create : ∀ {fs name kind fs' res}, r.badge ≠ 0 → K fs →
    I.create fs (unpack r.badge).inode name kind = some (fs', res) →
      K fs' ∧ ∀ msg child, res = .ok child → P (.replyWithCap msg (pack ⟨child,
        (unpack r.badge).rights &&& (FileRights.read ||| FileRights.write)⟩))
  remove : ∀ {fs name fs' res}, K fs → I.remove fs (unpack r.badge).inode name = some (fs', res) → K fs'
  write : ∀ {fs off data fs' res}, FileRights.contains (unpack r.badge).rights FileRights.write = true →
    K fs → I.write fs (unpack r.badge).inode off data = some (fs', res) → K fs'
  truncate : ∀ {fs len fs' res}, FileRights.contains (unpack r.badge).rights FileRights.write = true →
    K fs → I.truncate fs (unpack r.badge).inode len = some (fs', res) → K fs'

variable {cap : Nat} {name src : UserBuf} {req : Request} {R : Type} {len : BitVec 64}

section Rules

variable {F : Type} {I : Filesystem F} {r : Round F} {P : Effect → Prop} {K : F → Prop} {fs : F}

theorem answer_emits (hK : K fs) (h : Emits P answer fun _ => True) : Emits P (answer >>= fun _ => pure fs) K :=
  h.bind fun _ _ => .pure hK

variable (hc : Contract I r P K)

include hc

theorem sliceTo_emits (h : n ≤ cap) : Emits P (sliceTo cap n) fun _ => True :=
  (Emits.emit (Q := fun _ => True) (hc.slice h) trivial).bind fun _ _ => .ofOption fun _ _ => trivial

theorem replyWith_emits (resp : Response) : Emits P (replyWith resp) fun _ => True :=
  .emit (hc.reply _) trivial

theorem pushAndReply_emits (data : List UInt8) (n : Nat) (dst : UserBuf) (resp : Response) :
    Emits P (pushAndReply r data n dst resp) fun _ => True := by
  refine Emits.bind (Q := fun _ => True) ?_ fun ok _ => replyWith_emits hc _
  exact (Emits.emit (Q := fun _ => True) (hc.push _ _ _) trivial).bind fun _ _ => .pure trivial

theorem replyMintedChild_emits {rights : FileRights}
    (h : ∀ msg ino, child = .ok ino → P (.replyWithCap msg (pack ⟨ino, rights⟩))) :
    Emits P (replyMintedChild r child rights) fun _ => True := by
  unfold replyMintedChild
  cases child with
  | error e => exact replyWith_emits hc _
  | ok child =>
    dsimp only
    split
    · exact .emit (h _ child rfl) trivial
    · exact replyWith_emits hc _

variable (hbadge : r.badge ≠ 0)
  (hright : FileRights.contains (unpack r.badge).rights FileRights.write = true) (hK : K fs)
include hK

theorem withName_emits {Q : F × Except FsError R → Prop}
    (hreq : decode r.msg = .ok req) (hname : req.pull? = some (name, nameCap)) (herr : ∀ fs e, K fs → Q (fs, .error e))
    (hf : ∀ fs s x, K fs → f fs s = some x → Q x) : Emits P (withName r fs name f) Q := by
  refine (hc.pull hK hreq hname).bind fun x hx => ?_
  obtain ⟨fs, copied⟩ := x
  cases copied with
  | none => exact .pure (herr fs _ hx.1)
  | some n =>
    refine (sliceTo_emits hc (hx.2 n rfl)).bind fun _ _ => ?_
    split
    · exact .ofOption fun x hcall => hf fs _ x hx.1 hcall
    · exact .pure (herr fs _ hx.1)

include hbadge in
theorem create_emits {kind : NodeKind}
    (hreq : decode r.msg = .ok (.create name kind)) : Emits P (create I r fs (unpack r.badge) name kind) K := by
  refine (withName_emits hc hK hreq rfl (Q := fun x => K x.1 ∧ ∀ msg child, x.2 = .ok child →
    P (.replyWithCap msg (pack ⟨child, (unpack r.badge).rights &&& (FileRights.read ||| FileRights.write)⟩)))
    (fun fs e hfs => ⟨hfs, fun _ _ h => by cases h⟩)
    fun fs s x hfs hcall => hc.create hbadge hfs hcall).bind fun x hx => ?_
  exact answer_emits hx.1 (replyMintedChild_emits hc hx.2)

include hbadge in
theorem lookup_emits {requested : FileRights} (hreq : decode r.msg = .ok (.lookup name requested)) :
    Emits P (lookup I r fs (unpack r.badge) name requested) K := by
  refine (withName_emits hc hK hreq rfl (Q := fun x => K x.1 ∧ ∀ msg child, x.2 = .ok child →
    P (.replyWithCap msg (pack ⟨child, (unpack r.badge).rights &&& requested⟩)))
    (fun fs e hfs => ⟨hfs, fun _ _ h => by cases h⟩) fun fs s x hfs hcall => ?_).bind fun x hx => ?_
  · obtain ⟨found, hfound, rfl⟩ := Option.map_eq_some_iff.mp hcall
    exact ⟨hfs, fun msg child hchild =>
      hc.lookup msg requested hbadge hfs (hfound.trans (congrArg some hchild))⟩
  · exact answer_emits hx.1 (replyMintedChild_emits hc hx.2)

theorem remove_emits (hreq : decode r.msg = .ok (.remove name)) : Emits P (remove I r fs (unpack r.badge) name) K := by
  refine (withName_emits hc hK hreq rfl (Q := fun x => K x.1) (fun fs e hfs => hfs)
    fun fs s x hfs hcall => hc.remove hfs hcall).bind fun x hx => ?_
  exact answer_emits hx (replyWith_emits hc _)

include hright in
theorem write_emits (hreq : decode r.msg = .ok (.write offset src)) : Emits P (write I r fs (unpack r.badge) offset src) K := by
  refine (hc.pull hK hreq rfl).bind fun x hx => ?_
  obtain ⟨fs, copied⟩ := x
  cases copied with
  | none => exact answer_emits hx.1 (replyWith_emits hc _)
  | some n =>
    refine (sliceTo_emits hc (hx.2 n rfl)).bind fun _ _ => ?_
    refine (Emits.ofOption (Q := fun x => K x.1) fun x hcall => hc.write hright hx.1 hcall).bind fun x hx => ?_
    exact answer_emits hx (replyWith_emits hc _)

include hright in
theorem truncate_emits : Emits P (truncate I fs (unpack r.badge) len) K := by
  refine (Emits.ofOption (Q := fun x => K x.1) fun x hcall => hc.truncate hright hK hcall).bind fun x hx => ?_
  exact answer_emits hx (replyWith_emits hc _)

theorem read_emits (badge : Badge) : Emits P (read I r fs badge offset dst) K := by
  refine (sliceTo_emits hc (Nat.min_le_right _ _)).bind fun _ _ => ?_
  refine (Emits.ofOption (Q := fun _ => True) fun _ _ => trivial).bind fun x _ => answer_emits hK ?_
  cases x.1 with
  | ok n => exact pushAndReply_emits hc _ _ _ _
  | error e => exact replyWith_emits hc _

theorem readdir_emits (badge : Badge) : Emits P (readdir I r fs badge index dst) K := by
  refine (Emits.ofOption (Q := fun _ => True) fun _ _ => trivial).bind fun listed _ => answer_emits hK ?_
  cases listed with
  | ok entries =>
    dsimp only
    split
    · exact pushAndReply_emits hc _ _ _ _
    · exact replyWith_emits hc _
  | error e => exact replyWith_emits hc _

theorem getXattr_emits (badge : Badge) : Emits P (getXattr I r fs badge key dst) K := by
  refine (Emits.ofOption (Q := fun _ => True) fun _ _ => trivial).bind fun attr _ => answer_emits hK ?_
  cases attr with
  | ok value => exact pushAndReply_emits hc _ _ _ _
  | error e => exact replyWith_emits hc _

theorem stat_emits (badge : Badge) : Emits P (stat I fs badge) K :=
  (Emits.ofOption (Q := fun _ => True) fun _ _ => trivial).bind fun _ _ =>
    answer_emits hK (replyWith_emits hc _)

include hbadge in
theorem dispatch_emits (hreq : decode r.msg = .ok req) (hrights : checkRights req.op (unpack r.badge).rights = .ok ()) :
    Emits P (dispatch I r fs (unpack r.badge) req) K := by
  have hwrite : requiredRight req.op = some FileRights.write →
      FileRights.contains (unpack r.badge).rights FileRights.write = true := by
    intro hop
    simp only [checkRights, hop] at hrights
    split at hrights
    · assumption
    · cases hrights
  cases req with
  | stat => exact stat_emits hc hK _
  | read offset dst => exact read_emits hc hK _
  | write offset src => exact write_emits hc (hwrite rfl) hK hreq
  | lookup name rights => exact lookup_emits hc hbadge hK hreq
  | create name kind => exact create_emits hc hbadge hK hreq
  | remove name => exact remove_emits hc hK hreq
  | readdir index dst => exact readdir_emits hc hK _
  | getXattr key dst => exact getXattr_emits hc hK _
  | truncate len => exact truncate_emits hc (hwrite rfl) hK

theorem serveOne_emits : Emits P (serveOne I fs r) K := by
  unfold serveOne
  split
  · exact .pure hK
  split
  · next hzero =>
    unfold attach
    split
    · exact answer_emits hK (.emit (hc.attach hzero) trivial)
    · exact .pure hK
  · next hbadge =>
    unfold request
    split
    · exact answer_emits hK (replyWith_emits hc _)
    next req hreq =>
    split
    · exact (Emits.emit (Q := fun _ => True) (hc.denied _) trivial).bind fun _ _ =>
        answer_emits hK (replyWith_emits hc _)
    · next hrights => exact dispatch_emits hc hbadge hK hreq hrights

end Rules

/-! ### Pulls -/

section Pulls

variable {F : Type} {P : Effect → Prop}

variable (h : src.len.toNat ≤ cap ∨ maxUserStrLen < src.len.toNat)
include h

theorem pull_cases : (src.len.toNat ≤ cap ∧ ∀ w ∈ (pull r src).1, r.buf ≤ w.1 ∧ w.1 + w.2 ≤ r.buf + cap) ∨
      pull r src = ([], false) := by
  unfold pull
  cases r.callerRoot with
  | none => exact .inr rfl
  | some root =>
    rcases h with hfit | hlong
    · refine .inl ⟨hfit, fun w hw => ?_⟩
      obtain ⟨hlow, hhigh⟩ := Across.copyAcross_writes _ _ w hw
      dsimp only at hlow hhigh
      exact ⟨hlow, by omega⟩
    · dsimp only
      rw [Across.copyAcross_of_long _ _ hlong]
      exact .inr rfl

theorem pull_inside : inside r.buf cap (pull r src).1 = true := by
  refine all_eq_true.mpr fun w hw => decide_eq_true ?_
  rcases pull_cases h (r := r) with ⟨-, hin⟩ | hno
  · exact hin w hw
  · simp [hno] at hw

/-- A pull that fits its buffer, or that the kernel refuses for its length, leaves the server's variables. -/
theorem copyFromCaller_emits (fs : F)
    (hP : ∀ writes ok, (src.len.toNat ≤ cap ∧ ∀ w ∈ writes, r.buf ≤ w.1 ∧ w.1 + w.2 ≤ r.buf + cap) ∨ (writes = [] ∧ ok = false) → P (.copyFromCaller src.ptr.toNat src.len.toNat r.buf cap writes ok)) :
    Emits P (copyFromCaller r fs src cap) fun x => x.1 = fs ∧ ∀ n ∈ x.2, n ≤ cap := by
  have hcases := pull_cases h (r := r)
  refine (Emits.emit (Q := fun _ => True) (hP _ _ (hcases.imp_right fun hno => by rw [hno]; exact ⟨rfl, rfl⟩))
    trivial).bind fun _ _ => .pure ⟨if_pos (pull_inside h), ?_⟩
  intro n hn
  rcases hcases with ⟨hfit, -⟩ | hno
  · dsimp only at hn
    split at hn
    · cases hn
      exact hfit
    · cases hn
  · simp [hno] at hn

end Pulls

/-! ### Every buffer the server has pulled into -/

/-- A name that fits the name buffer, or that the kernel refuses. -/
def Round.NamesFit {F : Type} (r : Round F) : Prop :=
  ∀ req name, decode r.msg = .ok req → req.name? = some name →
    name.len.toNat ≤ nameCap ∨ maxUserStrLen < name.len.toNat

/-- Every length fits the buffer it is for. -/
def Round.LengthsFit {F : Type} (r : Round F) : Prop :=
  ∀ req src cap, decode r.msg = .ok req → req.pull? = some (src, cap) → src.len.toNat ≤ cap

section Buffers

variable {F : Type} {I : Filesystem F} {r : Round F}

/-- The payload of a `Write` always fits or is refused: its buffer is as large as the kernel's limit. -/
theorem Round.NamesFit.pull (h : r.NamesFit) (hreq : decode r.msg = .ok req)
    (hpull : req.pull? = some (src, cap)) : src.len.toNat ≤ cap ∨ maxUserStrLen < src.len.toNat := by
  cases req with
  | write offset buf =>
    cases hpull
    exact Nat.lt_or_ge maxUserStrLen _ |>.symm
  | lookup name rights | create name kind | remove name => cases hpull; exact h _ _ hreq rfl
  | stat | read | readdir | getXattr | truncate => cases hpull

theorem contract_of_pull {P : Effect → Prop} (hslice : ∀ cap n, n ≤ cap → P (.slice cap n))
    (hother : ∀ e, Effect.bufferless e = true → P e)
    (hpull : ∀ fs req src cap, decode r.msg = .ok req → req.pull? = some (src, cap) →
      Emits P (copyFromCaller r fs src cap) fun x => ∀ n ∈ x.2, n ≤ cap) : Contract I r P fun _ => True where
  slice := hslice _ _
  push _ _ _ := hother _ rfl
  denied _ := hother _ rfl
  reply _ := hother _ rfl
  attach _ := hother _ rfl
  pull _ hreq hp := (hpull _ _ _ _ hreq hp).mono fun _ hx => ⟨trivial, hx⟩
  lookup _ _ _ _ _ := hother _ rfl
  create _ _ _ := ⟨trivial, fun _ _ _ => hother _ rfl⟩
  remove _ _ := trivial
  write _ _ _ := trivial
  truncate _ _ _ := trivial

theorem serveOne_inBounds (h : r.NamesFit) (fs : F) :
    Emits (fun e => e.InBounds ∧ e.FitsOrRefused) (serveOne I fs r) fun _ => True := by
  refine serveOne_emits (contract_of_pull (fun cap n hn => ⟨hn, trivial⟩) (fun e he => ?_)
    fun fs req src cap hreq hpull => ?_) trivial
  · cases e <;> first | exact ⟨trivial, trivial⟩ | cases he
  refine (copyFromCaller_emits (h.pull hreq hpull) fs fun writes ok hw => ?_).mono fun x hx => hx.2
  rcases hw with ⟨hfit, hin⟩ | ⟨rfl, rfl⟩
  · exact ⟨hin, .inl hfit⟩
  · exact ⟨fun w hw => by simp at hw, .inr ⟨rfl, rfl⟩⟩

theorem serveOne_lengthFits (h : r.LengthsFit) (fs : F) : Emits Effect.LengthFits (serveOne I fs r) fun _ => True := by
  refine serveOne_emits (contract_of_pull (fun cap n hn => trivial) (fun e he => ?_) fun fs req src cap hreq hpull => ?_) trivial
  · cases e <;> trivial
  have hfit := h req src cap hreq hpull
  exact (copyFromCaller_emits (.inl hfit) fs fun writes ok _ => hfit).mono fun x hx => hx.2

theorem withName_of_long (fs : F) (hlong : maxUserStrLen < name.len.toNat) (f : F → Name → Option (F × Except FsError R)) :
    withName r fs name f = ⟨[.copyFromCaller name.ptr.toNat name.len.toNat r.buf nameCap [] false],
      some (fs, .error .nameTooLong)⟩ := by
  have hpull : pull r name = ([], false) := by
    unfold pull
    cases r.callerRoot with
    | none => rfl
    | some root =>
      dsimp only
      rw [Across.copyAcross_of_long _ _ hlong]
      rfl
  unfold withName copyFromCaller
  rw [hpull]
  rfl

/-- A name past the kernel's limit: nothing is copied, and the answer is an error. -/
theorem serveOne_of_long_name (hreply : r.reply = true) (hbadge : r.badge ≠ 0)
    (hreq : decode r.msg = .ok req) (hname : req.name? = some name) (hlong : maxUserStrLen < name.len.toNat) (fs : F) :
    serveOne I fs r = ⟨[.copyFromCaller name.ptr.toNat name.len.toNat r.buf nameCap [] false,
      .reply (Response.err .nameTooLong).encode], some fs⟩ := by
  unfold serveOne request
  rw [hreply, if_neg (by decide), if_neg hbadge, hreq]
  cases req with
  | lookup name' rights =>
    cases hname
    simp only [Request.op, checkRights, requiredRight, dispatch, lookup, withName_of_long fs hlong]
    rfl
  | create name' kind =>
    cases hname
    simp only [Request.op, checkRights, requiredRight, dispatch, create, withName_of_long fs hlong]
    rfl
  | remove name' =>
    cases hname
    simp only [Request.op, checkRights, requiredRight, dispatch, remove, withName_of_long fs hlong]
    rfl
  | stat | read | write | readdir | getXattr | truncate => cases hname

/-- The server over any filesystem and any messages in which no name has between `nameCap` and
`maxUserStrLen` bytes. -/
theorem fs_copies_stay_in_buffers (I : Filesystem F) (fs : F) (rounds : List (Round F))
    (hnames : ∀ r ∈ rounds, r.NamesFit) :
    (∀ e ∈ (serve I fs rounds).log, e.InBounds ∧ e.FitsOrRefused) ∧
    ((∀ r ∈ rounds, r.LengthsFit) → ∀ e ∈ (serve I fs rounds).log, e.LengthFits) ∧
    ∀ r ∈ rounds, r.reply = true → r.badge ≠ 0 → ∀ req name, decode r.msg = .ok req →
      req.name? = some name → nameCap < name.len.toNat → ∀ fs,
      serveOne I fs r = ⟨[.copyFromCaller name.ptr.toNat name.len.toNat r.buf nameCap [] false,
        .reply (Response.err .nameTooLong).encode], some fs⟩ := by
  refine ⟨?_, fun hlengths => ?_, fun r hr hreply hbadge req name hreq hname hlong fs => ?_⟩
  · exact (Emits.foldlM rounds (fun fs r hr _ => serveOne_inBounds (hnames r hr) fs) fs trivial).effect
  · exact (Emits.foldlM rounds (fun fs r hr _ => serveOne_lengthFits (hlengths r hr) fs) fs trivial).effect
  have hpast := (hnames r hr req name hreq hname).resolve_left (by omega)
  exact serveOne_of_long_name hreply hbadge hreq hname hpast fs

end Buffers

/-! ### A name of 65 bytes -/

/-- The caller's page at `0x5000`, readable, and the server's at `0x6000`, writable. -/
def callerAndServer : PhysMem where
  free := []
  word table idx :=
    if table = 0x1000 ∧ idx = 0 then Pte.branch 0x2000
    else if table = 0x2000 ∧ idx = 0 then Pte.branch 0x3000
    else if table = 0x3000 ∧ idx = 5 then Pte.leaf 0x80000000 (PtePerms.r ||| PtePerms.u)
    else if table = 0x11000 ∧ idx = 0 then Pte.branch 0x12000
    else if table = 0x12000 ∧ idx = 0 then Pte.branch 0x13000
    else if table = 0x13000 ∧ idx = 6 then Pte.leaf 0x80001000 (PtePerms.r ||| PtePerms.w ||| PtePerms.u)
    else 0

/-- A `Lookup` in the root directory with a name of `len` bytes at `ptr`. -/
def lookupRound {F : Type} (ptr len : BitVec 64) (overrun : F → F) : Round F where
  badge := pack ⟨0, FileRights.read⟩
  msg := ⟨0, ptr, len, 1⟩
  callerRoot := some 0x1000
  serverRoot := 0x11000
  mem _ := callerAndServer
  bytes _ := 97
  buf := 0x6000
  overrun := overrun

theorem lookupRound_namesFit {F : Type} {overrun : F → F} (h : len.toNat ≤ nameCap) : (lookupRound ptr len overrun).NamesFit := by
  intro req name hreq hname
  have hdecode : decode (lookupRound ptr len overrun).msg = .ok (.lookup ⟨ptr, len⟩ 1) := rfl
  cases hdecode.symm.trans hreq
  cases hname
  exact .inl h

/-- A name that fits: the pull is in bounds. -/
theorem fs_copies_stay_in_buffers_short :
    (lookupRound 0x5000 3 id : Round RamFs).NamesFit ∧
    ∀ e ∈ (serve (filesystem true) new [lookupRound 0x5000 3 id]).log,
      e.InBounds ∧ e.FitsOrRefused := by
  have hfit : (lookupRound 0x5000 3 id : Round RamFs).NamesFit := lookupRound_namesFit (by decide)
  refine ⟨hfit, (fs_copies_stay_in_buffers (filesystem true) new [lookupRound 0x5000 3 id] fun r hr => ?_).1⟩
  rw [mem_singleton.mp hr]
  exact hfit

/-- The kernel writes 65 bytes into the server's buffer of 64, and the server panics at the slice. -/
theorem name_written_past_buffer :
    (serve (filesystem true) new [lookupRound 0x5000 65 id]).value = none ∧
    ∃ e ∈ (serve (filesystem true) new [lookupRound 0x5000 65 id]).log,
      e = .copyFromCaller 0x5000 65 0x6000 nameCap [(0x6000, 65)] true ∧ ¬ e.InBounds ∧ ¬ e.LengthFits := by
  have hlog : (serve (filesystem true) new [lookupRound 0x5000 65 id]).log
      = [.copyFromCaller 0x5000 65 0x6000 nameCap [(0x6000, 65)] true, .slice nameCap 65] := by
    decide
  refine ⟨Option.isNone_iff_eq_none.mp (by decide), _, ?_, rfl, ?_, ?_⟩
  · rw [hlog]
    exact mem_cons_self
  · intro hin
    have hend : 0x6000 + 65 ≤ 0x6000 + nameCap := (hin (0x6000, 65) (mem_singleton.mpr rfl)).2
    exact absurd hend (by decide)
  · exact fun hfits : 65 ≤ nameCap => absurd hfits (by decide)

end SnitchOs.Fs
