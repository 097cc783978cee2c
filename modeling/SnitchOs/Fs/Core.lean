import Mathlib.Tactic.Common

/-!
# Filesystems

The `Filesystem` trait as a record of functions over the state of an implementation. A method that
changes the state returns the new one; `none` is a panic. File offsets and lengths are 64-bit words kept
as `Nat`. A name is the bytes of a string.
-/

namespace SnitchOs.Fs

abbrev InodeId := BitVec 32

abbrev Name := List UInt8

inductive NodeKind
  | file
  | dir
deriving DecidableEq

structure Stat where
  kind : NodeKind
  size : Nat
deriving DecidableEq

structure DirEntry where
  name : Name
  ino : InodeId
  kind : NodeKind
deriving DecidableEq

inductive FsError
  | notFound
  | notADir
  | isADir
  | exists
  | unsupported
  | nameTooLong
  | denied
  | internal
deriving DecidableEq

structure Filesystem (F : Type) where
  root : F → InodeId
  lookup : F → InodeId → Name → Option (Except FsError InodeId)
  stat : F → InodeId → Option (Except FsError Stat)
  /-- The bytes read, and the buffer they were read into. -/
  read : F → InodeId → Nat → List UInt8 → Option (Except FsError Nat × List UInt8)
  write : F → InodeId → Nat → List UInt8 → Option (F × Except FsError Nat)
  truncate : F → InodeId → Nat → Option (F × Except FsError Unit)
  create : F → InodeId → Name → NodeKind → Option (F × Except FsError InodeId)
  remove : F → InodeId → Name → Option (F × Except FsError Unit)
  readdir : F → InodeId → Option (Except FsError (List DirEntry))
  getxattr : F → InodeId → Name → Option (Except FsError (List UInt8))
  setxattr : F → InodeId → Name → List UInt8 → Option (F × Except FsError Unit)

/-! ### Calls -/

inductive Call
  | root
  | lookup (dir : InodeId) (name : Name)
  | stat (ino : InodeId)
  | read (ino : InodeId) (off : Nat) (buf : List UInt8)
  | write (ino : InodeId) (off : Nat) (data : List UInt8)
  | truncate (ino : InodeId) (len : Nat)
  | create (dir : InodeId) (name : Name) (kind : NodeKind)
  | remove (dir : InodeId) (name : Name)
  | readdir (dir : InodeId)
  | getxattr (ino : InodeId) (name : Name)
  | setxattr (ino : InodeId) (name : Name) (value : List UInt8)

inductive Answer
  | root (ino : InodeId)
  | inode (r : Except FsError InodeId)
  | stat (r : Except FsError Stat)
  | read (r : Except FsError Nat) (buf : List UInt8)
  | count (r : Except FsError Nat)
  | unit (r : Except FsError Unit)
  | entries (r : Except FsError (List DirEntry))
  | value (r : Except FsError (List UInt8))

def Answer.failed : Answer → Bool
  | .root _ => false
  | .inode r => !r.isOk
  | .stat r => !r.isOk
  | .read r _ => !r.isOk
  | .count r => !r.isOk
  | .unit r => !r.isOk
  | .entries r => !r.isOk
  | .value r => !r.isOk

namespace Filesystem

variable {F : Type} (I : Filesystem F)

/-- A call of the trait; `none` is a panic. -/
def apply (fs : F) : Call → Option (F × Answer)
  | .root => some (fs, .root (I.root fs))
  | .lookup dir name => (I.lookup fs dir name).map fun r => (fs, .inode r)
  | .stat ino => (I.stat fs ino).map fun r => (fs, .stat r)
  | .read ino off buf => (I.read fs ino off buf).map fun r => (fs, .read r.1 r.2)
  | .write ino off data => (I.write fs ino off data).map fun r => (r.1, .count r.2)
  | .truncate ino len => (I.truncate fs ino len).map fun r => (r.1, .unit r.2)
  | .create dir name kind => (I.create fs dir name kind).map fun r => (r.1, .inode r.2)
  | .remove dir name => (I.remove fs dir name).map fun r => (r.1, .unit r.2)
  | .readdir dir => (I.readdir fs dir).map fun r => (fs, .entries r)
  | .getxattr ino name => (I.getxattr fs ino name).map fun r => (fs, .value r)
  | .setxattr ino name value => (I.setxattr fs ino name value).map fun r => (r.1, .unit r.2)

def applyAll (fs : F) : List Call → Option (F × List Answer)
  | [] => some (fs, [])
  | call :: calls => do
    let (fs, answer) ← I.apply fs call
    let (fs, answers) ← applyAll fs calls
    some (fs, answer :: answers)

end Filesystem

end SnitchOs.Fs
