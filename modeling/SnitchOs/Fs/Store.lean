import SnitchOs.Fs.Core

/-!
# An inode store

What a filesystem is for, apart from how one keeps it: a map from inodes to the bytes of a file or the
entries of a directory, and what each call may answer and do to it.
-/

namespace SnitchOs.Fs

open Function

inductive Content
  | file (bytes : List UInt8)
  | dir (entries : Name → Option InodeId)

structure Inode where
  content : Content
  xattrs : Name → Option (List UInt8)

/-- What a filesystem stores: an inode names a file's bytes or a directory's entries. -/
abbrev Store := InodeId → Option Inode

namespace Store

def empty : NodeKind → Inode
  | .file => ⟨.file [], fun _ => none⟩
  | .dir => ⟨.dir fun _ => none, fun _ => none⟩

def initial : Store := update (fun _ => none) 0 (some (empty .dir))

variable (S : Store)

def notFile (ino : InodeId) : Option FsError :=
  match S ino with
  | none => some .notFound
  | some ⟨.dir _, _⟩ => some .isADir
  | some ⟨.file _, _⟩ => none

def notDir (dir : InodeId) : Option FsError :=
  match S dir with
  | none => some .notFound
  | some ⟨.file _, _⟩ => some .notADir
  | some ⟨.dir _, _⟩ => none

def kindOf (ino : InodeId) : NodeKind :=
  match S ino with
  | some ⟨.dir _, _⟩ => .dir
  | _ => .file

end Store

/-- Bytes `[off, off + len data)` are `data`, the others as before, and zero past the old end. -/
structure Written (old : List UInt8) (off : Nat) (data new : List UInt8) : Prop where
  length : new.length = max old.length (off + data.length)
  byte : ∀ k, new.getD k 0 = if off ≤ k ∧ k < off + data.length then data.getD (k - off) 0 else old.getD k 0

/-- The common part is kept, and a longer one filled with zeros. -/
structure Truncated (old : List UInt8) (len : Nat) (new : List UInt8) : Prop where
  length : new.length = len
  byte : ∀ k < len, new.getD k 0 = old.getD k 0

/-- `n` bytes from `off` on are in the buffer, and the rest of the buffer is as before. -/
structure ReadInto (bytes : List UInt8) (off : Nat) (buf : List UInt8) (n : Nat) (buf' : List UInt8) : Prop where
  count : n = min buf.length (bytes.length - off)
  length : buf'.length = buf.length
  byte : ∀ k, buf'.getD k 0 = if k < n then bytes.getD (off + k) 0 else buf.getD k 0

/-- Every entry once, in the order of the names. -/
structure Listed (S : Store) (entries : Name → Option InodeId) (l : List DirEntry) : Prop where
  mem : ∀ e, e ∈ l ↔ entries e.name = some e.ino ∧ e.kind = S.kindOf e.ino
  sorted : l.Pairwise fun a b => compare a.name b.name = .lt

/-- What a call does to a store. An error leaves it as it is. -/
inductive StoreStep (S : Store) : Call → Answer → Store → Prop
  | root : StoreStep S .root (.root 0) S
  | found {dir : InodeId} {name : Name} {entries : Name → Option InodeId} {ino : InodeId}
      {x : Name → Option (List UInt8)} (hdir : S dir = some ⟨.dir entries, x⟩) (h : entries name = some ino) :
      StoreStep S (.lookup dir name) (.inode (.ok ino)) S
  | missing {dir : InodeId} {name : Name} {entries : Name → Option InodeId}
      {x : Name → Option (List UInt8)} (hdir : S dir = some ⟨.dir entries, x⟩) (h : entries name = none) :
      StoreStep S (.lookup dir name) (.inode (.error .notFound)) S
  | lookupFailed {dir : InodeId} {name : Name} {e : FsError} (h : S.notDir dir = some e) :
      StoreStep S (.lookup dir name) (.inode (.error e)) S
  | statFile {ino : InodeId} {bytes : List UInt8} {x : Name → Option (List UInt8)}
      (h : S ino = some ⟨.file bytes, x⟩) : StoreStep S (.stat ino) (.stat (.ok ⟨.file, bytes.length⟩)) S
  | statDir {ino : InodeId} {entries : Name → Option InodeId} {x : Name → Option (List UInt8)}
      (h : S ino = some ⟨.dir entries, x⟩) : StoreStep S (.stat ino) (.stat (.ok ⟨.dir, 0⟩)) S
  | statFailed {ino : InodeId} (h : S ino = none) : StoreStep S (.stat ino) (.stat (.error .notFound)) S
  | read {ino : InodeId} {off n : Nat} {buf buf' bytes : List UInt8} {x : Name → Option (List UInt8)}
      (hfile : S ino = some ⟨.file bytes, x⟩) (h : ReadInto bytes off buf n buf') :
      StoreStep S (.read ino off buf) (.read (.ok n) buf') S
  | readFailed {ino : InodeId} {off : Nat} {buf : List UInt8} {e : FsError} (h : S.notFile ino = some e) :
      StoreStep S (.read ino off buf) (.read (.error e) buf) S
  | written {ino : InodeId} {off : Nat} {data old new : List UInt8} {x : Name → Option (List UInt8)}
      (hfile : S ino = some ⟨.file old, x⟩) (h : Written old off data new) :
      StoreStep S (.write ino off data) (.count (.ok data.length)) (update S ino (some ⟨.file new, x⟩))
  | writeFailed {ino : InodeId} {off : Nat} {data : List UInt8} {e : FsError} (h : S.notFile ino = some e) :
      StoreStep S (.write ino off data) (.count (.error e)) S
  | truncated {ino : InodeId} {len : Nat} {old new : List UInt8} {x : Name → Option (List UInt8)}
      (hfile : S ino = some ⟨.file old, x⟩) (h : Truncated old len new) :
      StoreStep S (.truncate ino len) (.unit (.ok ())) (update S ino (some ⟨.file new, x⟩))
  | truncateFailed {ino : InodeId} {len : Nat} {e : FsError} (h : S.notFile ino = some e) :
      StoreStep S (.truncate ino len) (.unit (.error e)) S
  | created {dir ino : InodeId} {name : Name} {kind : NodeKind} {entries : Name → Option InodeId}
      {x : Name → Option (List UInt8)} (hdir : S dir = some ⟨.dir entries, x⟩) (hnew : entries name = none)
      (hfresh : S ino = none) :
      StoreStep S (.create dir name kind) (.inode (.ok ino))
        (update (update S ino (some (Store.empty kind))) dir
          (some ⟨.dir (update entries name (some ino)), x⟩))
  | present {dir ino : InodeId} {name : Name} {kind : NodeKind} {entries : Name → Option InodeId}
      {x : Name → Option (List UInt8)} (hdir : S dir = some ⟨.dir entries, x⟩) (h : entries name = some ino) :
      StoreStep S (.create dir name kind) (.inode (.error .exists)) S
  | createFailed {dir : InodeId} {name : Name} {kind : NodeKind} {e : FsError} (h : S.notDir dir = some e) :
      StoreStep S (.create dir name kind) (.inode (.error e)) S
  | removed {dir ino : InodeId} {name : Name} {entries : Name → Option InodeId}
      {x : Name → Option (List UInt8)} (hdir : S dir = some ⟨.dir entries, x⟩) (h : entries name = some ino) :
      StoreStep S (.remove dir name) (.unit (.ok ()))
        (update S dir (some ⟨.dir (update entries name none), x⟩))
  | removeMissing {dir : InodeId} {name : Name} {entries : Name → Option InodeId}
      {x : Name → Option (List UInt8)} (hdir : S dir = some ⟨.dir entries, x⟩) (h : entries name = none) :
      StoreStep S (.remove dir name) (.unit (.error .notFound)) S
  | removeFailed {dir : InodeId} {name : Name} {e : FsError} (h : S.notDir dir = some e) :
      StoreStep S (.remove dir name) (.unit (.error e)) S
  | listed {dir : InodeId} {entries : Name → Option InodeId} {x : Name → Option (List UInt8)}
      {l : List DirEntry} (hdir : S dir = some ⟨.dir entries, x⟩) (h : Listed S entries l) :
      StoreStep S (.readdir dir) (.entries (.ok l)) S
  | listFailed {dir : InodeId} {e : FsError} (h : S.notDir dir = some e) :
      StoreStep S (.readdir dir) (.entries (.error e)) S
  | attribute {ino : InodeId} {name : Name} {c : Content} {x : Name → Option (List UInt8)} {value : List UInt8}
      (hino : S ino = some ⟨c, x⟩) (h : x name = some value) :
      StoreStep S (.getxattr ino name) (.value (.ok value)) S
  | attributeFailed {ino : InodeId} {name : Name} (h : ∀ c x, S ino = some ⟨c, x⟩ → x name = none) :
      StoreStep S (.getxattr ino name) (.value (.error .notFound)) S
  | attributeSet {ino : InodeId} {name : Name} {value : List UInt8} {c : Content}
      {x : Name → Option (List UInt8)} (hino : S ino = some ⟨c, x⟩) :
      StoreStep S (.setxattr ino name value) (.unit (.ok ()))
        (update S ino (some ⟨c, update x name (some value)⟩))
  | attributeSetFailed {ino : InodeId} {name : Name} {value : List UInt8} (h : S ino = none) :
      StoreStep S (.setxattr ino name value) (.unit (.error .notFound)) S

/-- Calls one after the other, each with the answer it got. -/
inductive StoreRun : Store → List Call → List Answer → Store → Prop
  | nil (S : Store) : StoreRun S [] [] S
  | cons {S S' S'' : Store} {call : Call} {answer : Answer} {calls : List Call} {answers : List Answer}
      (hstep : StoreStep S call answer S') (hrun : StoreRun S' calls answers S'') :
      StoreRun S (call :: calls) (answer :: answers) S''

end SnitchOs.Fs
