import SnitchOs.Fs.Core

/-!
# The filesystem protocol

A file capability is an endpoint capability whose badge packs an inode and file rights; requests and
responses are the four words of a message.
-/

namespace SnitchOs.Fs

/-! ### Rights and badges -/

abbrev FileRights := BitVec 16

namespace FileRights

def read : FileRights := 0b001
def write : FileRights := 0b010

def contains (held other : FileRights) : Bool := held &&& other == other

end FileRights

structure Badge where
  inode : InodeId
  rights : FileRights
deriving DecidableEq

namespace Badge

def rightsShift : Nat := 32

def pack (b : Badge) : BitVec 64 := b.inode.zeroExtend 64 ||| (b.rights.zeroExtend 64 <<< rightsShift)

def unpack (raw : BitVec 64) : Badge := ⟨raw.truncate 32, (raw >>> rightsShift).truncate 16⟩

theorem unpack_pack (b : Badge) : unpack b.pack = b := by
  obtain ⟨inode, rights⟩ := b
  simp only [unpack, pack, Badge.mk.injEq]
  constructor
  · refine BitVec.eq_of_getLsbD_eq fun i hi => ?_
    simp [rightsShift, hi]
  · refine BitVec.eq_of_getLsbD_eq fun i hi => ?_
    have hlt : 32 + i < 64 := by omega
    simp [rightsShift, hi, hlt]

/-- Badge `0` is the attach badge; a badge of another inode than the root is not. -/
theorem pack_ne_zero {b : Badge} (h : b.inode ≠ 0) : b.pack ≠ 0 := by
  intro hzero
  apply h
  have hunpack := unpack_pack b
  rw [hzero] at hunpack
  rw [← hunpack]
  rfl

end Badge

/-- What a refused request snitches. -/
structure Denial where
  inode : InodeId
  attempted : FileRights
deriving DecidableEq

def Denial.pack (d : Denial) : BitVec 64 :=
  d.inode.zeroExtend 64 ||| (d.attempted.zeroExtend 64 <<< 32)

/-! ### Requests -/

inductive Op
  | lookup
  | stat
  | read
  | write
  | create
  | remove
  | readdir
  | getXattr
  | truncate
deriving DecidableEq

def Op.fromU8 (byte : BitVec 8) : Option Op :=
  match byte.toNat with
  | 0 => some .lookup
  | 1 => some .stat
  | 2 => some .read
  | 3 => some .write
  | 4 => some .create
  | 5 => some .remove
  | 6 => some .readdir
  | 7 => some .getXattr
  | 8 => some .truncate
  | _ => none

inductive XattrKey
  | userIface
  | userType
deriving DecidableEq

def XattrKey.fromU64 (raw : BitVec 64) : Option XattrKey :=
  match raw.toNat with
  | 0 => some .userIface
  | 1 => some .userType
  | _ => none

def XattrKey.name : XattrKey → Name
  | .userIface => "user.iface".toUTF8.toList
  | .userType => "user.type".toUTF8.toList

def requiredRight : Op → Option FileRights
  | .read => some FileRights.read
  | .write | .truncate => some FileRights.write
  | .stat | .lookup | .create | .remove | .readdir | .getXattr => none

def checkRights (op : Op) (held : FileRights) : Except FileRights Unit :=
  match requiredRight op with
  | some r => if FileRights.contains held r then .ok () else .error r
  | none => .ok ()

structure UserBuf where
  ptr : BitVec 64
  len : BitVec 64
deriving DecidableEq

structure Words where
  w0 : BitVec 64
  w1 : BitVec 64
  w2 : BitVec 64
  w3 : BitVec 64
deriving DecidableEq

inductive WireError
  | unknownOp (byte : BitVec 8)
  | badKind (raw : BitVec 64)
deriving DecidableEq

inductive Request
  | stat
  | read (offset : BitVec 64) (dst : UserBuf)
  | write (offset : BitVec 64) (src : UserBuf)
  | lookup (name : UserBuf) (rights : FileRights)
  | create (name : UserBuf) (kind : NodeKind)
  | remove (name : UserBuf)
  | readdir (index : BitVec 64) (nameDst : UserBuf)
  | getXattr (key : XattrKey) (dst : UserBuf)
  | truncate (len : BitVec 64)
deriving DecidableEq

def kindToWire : NodeKind → BitVec 64
  | .file => 0
  | .dir => 1

def kindFromWire (raw : BitVec 64) : Except WireError NodeKind :=
  match raw.toNat with
  | 0 => .ok .file
  | 1 => .ok .dir
  | _ => .error (.badKind raw)

namespace Request

def op : Request → Op
  | .stat => .stat
  | .read .. => .read
  | .write .. => .write
  | .lookup .. => .lookup
  | .create .. => .create
  | .remove .. => .remove
  | .readdir .. => .readdir
  | .getXattr .. => .getXattr
  | .truncate .. => .truncate

def decode (words : Words) : Except WireError Request := do
  let byte := words.w0.truncate 8
  match Op.fromU8 byte with
  | none => .error (.unknownOp byte)
  | some .stat => .ok .stat
  | some .read => .ok (.read words.w1 ⟨words.w2, words.w3⟩)
  | some .write => .ok (.write words.w1 ⟨words.w2, words.w3⟩)
  | some .lookup => .ok (.lookup ⟨words.w1, words.w2⟩ (words.w3.truncate 16))
  | some .create => .ok (.create ⟨words.w1, words.w2⟩ (← kindFromWire words.w3))
  | some .remove => .ok (.remove ⟨words.w1, words.w2⟩)
  | some .readdir => .ok (.readdir words.w1 ⟨words.w2, words.w3⟩)
  | some .getXattr =>
    match XattrKey.fromU64 words.w1 with
    | some key => .ok (.getXattr key ⟨words.w2, words.w3⟩)
    | none => .error (.badKind words.w1)
  | some .truncate => .ok (.truncate words.w1)

/-- The name a request has the server pull across. -/
def name? : Request → Option UserBuf
  | .lookup name _ | .create name _ | .remove name => some name
  | _ => none

end Request

/-! ### Responses -/

inductive Response
  | err (e : FsError)
  | stat (s : Stat)
  | count (n : BitVec 64)
  | inode (ino : InodeId)
  | removed
  | entry (ino : InodeId) (kind : NodeKind) (nameLen : BitVec 64)
deriving DecidableEq

def statusFromError : FsError → BitVec 64
  | .notFound => 1
  | .notADir => 2
  | .isADir => 3
  | .exists => 4
  | .unsupported => 5
  | .nameTooLong => 6
  | .denied => 7
  | .internal => 8

def Response.encode : Response → Words
  | .err e => ⟨statusFromError e, 0, 0, 0⟩
  | .stat s => ⟨0, kindToWire s.kind, BitVec.ofNat 64 s.size, 0⟩
  | .count n => ⟨0, n, 0, 0⟩
  | .inode ino => ⟨0, ino.zeroExtend 64, 0, 0⟩
  | .removed => ⟨0, 0, 0, 0⟩
  | .entry ino kind nameLen => ⟨0, ino.zeroExtend 64, kindToWire kind, nameLen⟩

end SnitchOs.Fs
