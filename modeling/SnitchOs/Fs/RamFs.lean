import SnitchOs.Fs.Store
import SnitchOs.Lib.Machine

/-!
# The RAM filesystem

A vector of nodes indexed by inode, each the bytes of a file or the entries of a directory, with extended attributes.
Nodes are only ever added: `remove` takes an entry out and leaves the node.

A vector past `isize::MAX` bytes is a panic. An allocation that fails for want of memory ends the program;
`filesystem` does not model it, and `inProcess` only as far as the number of nodes goes.
-/

namespace SnitchOs.Fs

open Machine Function List Option Store

inductive Body
  | file (data : List UInt8)
  | dir (entries : Std.TreeMap Name InodeId)

structure Node where
  body : Body
  xattrs : Std.TreeMap Name (List UInt8)

def Node.new (body : Body) : Node := ⟨body, ∅⟩

structure RamFs where
  nodes : List Node

/-- `Vec::resize` with zeros. -/
def resize (file : List UInt8) (len : Nat) : Option (List UInt8) :=
  if len < 2 ^ 63 then some (file.take len ++ List.replicate (len - file.length) 0) else none

/-- `file[start..stop].copy_from_slice(data)`. -/
def copyFromSlice (file : List UInt8) (start stop : Nat) (data : List UInt8) : Option (List UInt8) :=
  if start ≤ stop ∧ stop ≤ file.length ∧ data.length = stop - start then
    some (file.take start ++ data ++ file.drop stop)
  else none

namespace RamFs

def new : RamFs := ⟨[Node.new (.dir ∅)]⟩

def rootIno : InodeId := 0

variable (fs : RamFs)

def node (ino : InodeId) : Except FsError Node :=
  match fs.nodes[ino.toNat]? with
  | some node => .ok node
  | none => .error .notFound

def setNode (ino : InodeId) (node : Node) : RamFs := ⟨fs.nodes.set ino.toNat node⟩

def lookup (dir : InodeId) (name : Name) : Except FsError InodeId :=
  match fs.node dir with
  | .error e => .error e
  | .ok node =>
    match node.body with
    | .file _ => .error .notADir
    | .dir entries =>
      match entries[name]? with
      | some ino => .ok ino
      | none => .error .notFound

def stat (ino : InodeId) : Except FsError Stat :=
  match fs.node ino with
  | .error e => .error e
  | .ok node =>
    match node.body with
    | .dir _ => .ok ⟨.dir, 0⟩
    | .file data => .ok ⟨.file, data.length⟩

def read (ino : InodeId) (off : Nat) (buf : List UInt8) : Except FsError Nat × List UInt8 :=
  match fs.node ino with
  | .error e => (.error e, buf)
  | .ok node =>
    match node.body with
    | .dir _ => (.error .isADir, buf)
    | .file data =>
      if data.length ≤ off then (.ok 0, buf)
      else
        let n := min (data.length - off) buf.length
        (.ok n, (data.drop off).take n ++ buf.drop n)

/-- `none` is a panic: the end of the range overflows, or no vector is that long. -/
def write (checks : Bool) (ino : InodeId) (off : Nat) (data : List UInt8) :
    Option (RamFs × Except FsError Nat) :=
  match fs.node ino with
  | .error e => some (fs, .error e)
  | .ok node =>
    match node.body with
    | .dir _ => some (fs, .error .isADir)
    | .file file => do
      let stop ← usize checks (off + data.length)
      let file ← (if file.length < stop then resize file stop else some file)
      let file ← copyFromSlice file off stop data
      some (fs.setNode ino { node with body := .file file }, .ok data.length)

def truncate (ino : InodeId) (len : Nat) : Option (RamFs × Except FsError Unit) :=
  match fs.node ino with
  | .error e => some (fs, .error e)
  | .ok node =>
    match node.body with
    | .dir _ => some (fs, .error .isADir)
    | .file file => do
      let file ← resize file len
      some (fs.setNode ino { node with body := .file file }, .ok ())

/-- The new inode is the number of nodes, as a `u32`; the entry for `name` is replaced. -/
def create (dir : InodeId) (name : Name) (kind : NodeKind) : RamFs × Except FsError InodeId :=
  match fs.node dir with
  | .error e => (fs, .error e)
  | .ok node =>
    match node.body with
    | .file _ => (fs, .error .notADir)
    | .dir _ =>
      let ino := BitVec.ofNat 32 fs.nodes.length
      let nodes := fs.nodes ++ [Node.new (match kind with | .file => .file [] | .dir => .dir ∅)]
      match nodes[dir.toNat]? with
      | some ⟨.dir entries, xattrs⟩ =>
        (⟨nodes.set dir.toNat ⟨.dir (entries.insert name ino), xattrs⟩⟩, .ok ino)
      | _ => (⟨nodes⟩, .ok ino)

def remove (dir : InodeId) (name : Name) : RamFs × Except FsError Unit :=
  match fs.node dir with
  | .error e => (fs, .error e)
  | .ok node =>
    match node.body with
    | .file _ => (fs, .error .notADir)
    | .dir entries =>
      match entries[name]? with
      | some _ => (fs.setNode dir { node with body := .dir (entries.erase name) }, .ok ())
      | none => (fs, .error .notFound)

def kindOf (ino : InodeId) : NodeKind :=
  match fs.nodes[ino.toNat]? with
  | some ⟨.dir _, _⟩ => .dir
  | _ => .file

def readdir (dir : InodeId) : Except FsError (List DirEntry) :=
  match fs.node dir with
  | .error e => .error e
  | .ok node =>
    match node.body with
    | .file _ => .error .notADir
    | .dir entries => .ok (entries.toList.map fun e => ⟨e.1, e.2, fs.kindOf e.2⟩)

def getxattr (ino : InodeId) (name : Name) : Except FsError (List UInt8) :=
  match fs.node ino with
  | .error e => .error e
  | .ok node =>
    match node.xattrs[name]? with
    | some value => .ok value
    | none => .error .notFound

def setxattr (ino : InodeId) (name : Name) (value : List UInt8) : RamFs × Except FsError Unit :=
  match fs.node ino with
  | .error e => (fs, .error e)
  | .ok node => (fs.setNode ino { node with xattrs := node.xattrs.insert name value }, .ok ())

/-- `impl Filesystem for RamFs`. -/
def filesystem (checks : Bool) : Filesystem RamFs where
  root _ := rootIno
  lookup fs dir name := some (fs.lookup dir name)
  stat fs ino := some (fs.stat ino)
  read fs ino off buf := some (fs.read ino off buf)
  write fs ino off data := fs.write checks ino off data
  truncate fs ino len := fs.truncate ino len
  create fs dir name kind := some (fs.create dir name kind)
  remove fs dir name := some (fs.remove dir name)
  readdir fs dir := some (fs.readdir dir)
  getxattr fs ino name := some (fs.getxattr ino name)
  setxattr fs ino name value := some (fs.setxattr ino name value)

/-- `Process::HEAP_MAX`, in bytes. -/
def heapMax : Nat := 16 * 1024 * 1024

/-- In a process, where a vector of more nodes than the heap has bytes cannot be allocated; a failed
allocation ends the process. -/
def inProcess (checks : Bool) : Filesystem RamFs :=
  { filesystem checks with
    create := fun fs dir name kind =>
      if fs.nodes.length < heapMax then some (fs.create dir name kind) else none }

/-! ### The store a `RamFs` keeps -/

end RamFs

def Node.abs (node : Node) : Inode where
  content := match node.body with
    | .file data => .file data
    | .dir entries => .dir fun name => entries[name]?
  xattrs := fun name => node.xattrs[name]?

variable {ino : InodeId} {node : Node} {data file : List UInt8} {len start stop off : Nat}
  {V : Type} {call : Call}

namespace RamFs

def abs (fs : RamFs) : Store := fun ino => fs.nodes[ino.toNat]?.map Node.abs

variable {fs : RamFs} {e : FsError} {entries : Std.TreeMap Name InodeId}

theorem abs_of_node (h : fs.node ino = .ok node) : fs.abs ino = some node.abs := by
  unfold RamFs.node at h
  cases hget : fs.nodes[ino.toNat]? with
  | none => simp [hget] at h
  | some node' =>
    rw [hget] at h
    cases h
    simp [abs, hget]

theorem abs_of_error (h : fs.node ino = .error e) : e = .notFound ∧ fs.abs ino = none := by
  unfold RamFs.node at h
  cases hget : fs.nodes[ino.toNat]? with
  | none =>
    rw [hget] at h
    cases h
    exact ⟨rfl, by simp [abs, hget]⟩
  | some node => simp [hget] at h

theorem lt_length_of_node (h : fs.node ino = .ok node) : ino.toNat < fs.nodes.length := by
  unfold RamFs.node at h
  by_contra hlt
  rw [getElem?_eq_none (by omega)] at h
  cases h

theorem abs_setNode (hold : fs.node ino = .ok old) (node : Node) :
    (fs.setNode ino node).abs = update fs.abs ino (some node.abs) := by
  have hlt := lt_length_of_node hold
  funext i
  by_cases hi : i = ino
  · subst hi
    simp [abs, setNode, getElem?_set_self hlt]
  · have hne : ino.toNat ≠ i.toNat := fun h => hi (BitVec.eq_of_toNat_eq h.symm)
    simp [abs, setNode, getElem?_set_ne hne, update_of_ne hi]

theorem abs_file (h : fs.node ino = .ok node) (hbody : node.body = .file data) :
    fs.abs ino = some ⟨.file data, fun name => node.xattrs[name]?⟩ := by
  rw [abs_of_node h, Node.abs, hbody]

theorem abs_dir (h : fs.node dir = .ok node) (hbody : node.body = .dir entries) :
    fs.abs dir = some ⟨.dir fun name => entries[name]?, fun name => node.xattrs[name]?⟩ := by
  rw [abs_of_node h, Node.abs, hbody]

theorem notDir_of_error (h : fs.node dir = .error e) : fs.abs.notDir dir = some e := by
  obtain ⟨rfl, hnone⟩ := abs_of_error h
  simp [notDir, hnone]

theorem notFile_of_error (h : fs.node ino = .error e) : fs.abs.notFile ino = some e := by
  obtain ⟨rfl, hnone⟩ := abs_of_error h
  simp [notFile, hnone]

theorem notDir_of_file (h : fs.node dir = .ok node) (hbody : node.body = .file data) : fs.abs.notDir dir = some .notADir := by
  simp [notDir, abs_file h hbody]

theorem notFile_of_dir (h : fs.node ino = .ok node) (hbody : node.body = .dir entries) : fs.abs.notFile ino = some .isADir := by
  simp [notFile, abs_dir h hbody]

theorem kindOf_abs (ino : InodeId) : fs.abs.kindOf ino = fs.kindOf ino := by
  unfold Store.kindOf RamFs.kindOf abs
  rcases fs.nodes[ino.toNat]? with _ | ⟨body, xattrs⟩
  · rfl
  · cases body <;> rfl

end RamFs

/-! ### Bytes -/

theorem getD_resize (h : resize file len = some new) (k : Nat) : new.getD k 0 = if k < len then file.getD k 0 else 0 := by
  unfold resize at h
  split at h
  · cases h
    grind
  · cases h

theorem length_resize (h : resize file len = some new) : new.length = len := by
  unfold resize at h
  split at h
  · cases h
    grind
  · cases h

theorem truncated_resize (h : resize file len = some new) : Truncated file len new where
  length := length_resize h
  byte k hk := by rw [getD_resize h, if_pos hk]

theorem getD_copyFromSlice (h : copyFromSlice file start stop data = some new) (k : Nat) :
    new.getD k 0 = if start ≤ k ∧ k < stop then data.getD (k - start) 0 else file.getD k 0 := by
  unfold copyFromSlice at h
  split at h
  · cases h
    grind
  · cases h

theorem length_copyFromSlice (h : copyFromSlice file start stop data = some new) : new.length = file.length := by
  unfold copyFromSlice at h
  split at h
  · cases h
    grind
  · cases h

theorem written_copyFromSlice (file data : List UInt8) (hoff : off + data.length < 2 ^ 63) :
    ∃ grown new, (if file.length < off + data.length then resize file (off + data.length) else some file)
        = some grown ∧ copyFromSlice grown off (off + data.length) data = some new ∧ Written file off data new := by
  obtain ⟨grown, hgrown, hlen, hbyte⟩ : ∃ grown,
      (if file.length < off + data.length then resize file (off + data.length) else some file) = some grown ∧
      grown.length = max file.length (off + data.length) ∧ ∀ k, grown.getD k 0 = file.getD k 0 := by
    split
    · next hshort =>
      have hres : resize file (off + data.length) = some _ := if_pos hoff
      refine ⟨_, hres, by rw [length_resize hres]; omega, fun k => ?_⟩
      rw [getD_resize hres]
      split
      · rfl
      rw [getD_eq_getElem?_getD, getElem?_eq_none (by omega)]
      rfl
    · exact ⟨file, rfl, by omega, fun _ => rfl⟩
  have hcopy : copyFromSlice grown off (off + data.length) data = some _ :=
    if_pos ⟨by omega, by omega, by omega⟩
  refine ⟨grown, _, hgrown, hcopy, by rw [length_copyFromSlice hcopy, hlen], fun k => ?_⟩
  rw [getD_copyFromSlice hcopy, hbyte]

namespace RamFs

variable {fs : RamFs}

/-! ### Calls that leave the state -/

theorem lookup_step (dir : InodeId) (name : Name) : StoreStep fs.abs (.lookup dir name) (.inode (fs.lookup dir name)) fs.abs := by
  unfold lookup
  cases hnode : fs.node dir with
  | error e => exact .lookupFailed (notDir_of_error hnode)
  | ok node =>
    cases hbody : node.body with
    | file data => simpa only [hbody] using .lookupFailed (notDir_of_file hnode hbody)
    | dir entries =>
      simp only [hbody]
      cases hentry : entries[name]? with
      | none => exact .missing (abs_dir hnode hbody) hentry
      | some ino => exact .found (abs_dir hnode hbody) hentry

theorem stat_step (ino : InodeId) : StoreStep fs.abs (.stat ino) (.stat (fs.stat ino)) fs.abs := by
  unfold stat
  cases hnode : fs.node ino with
  | error e =>
    obtain ⟨rfl, hnone⟩ := abs_of_error hnode
    exact .statFailed hnone
  | ok node =>
    cases hbody : node.body with
    | file data => simpa only [hbody] using .statFile (abs_file hnode hbody)
    | dir entries => simpa only [hbody] using .statDir (abs_dir hnode hbody)

theorem readInto_bytes (data : List UInt8) (off : Nat) (buf : List UInt8) :
    ReadInto data off buf (min (data.length - off) buf.length) ((data.drop off).take (min (data.length - off) buf.length)
        ++ buf.drop (min (data.length - off) buf.length)) where
  count := by omega
  length := by grind
  byte k := by grind

theorem read_step (ino : InodeId) (off : Nat) (buf : List UInt8) :
    StoreStep fs.abs (.read ino off buf) (.read (fs.read ino off buf).1 (fs.read ino off buf).2) fs.abs := by
  unfold read
  cases hnode : fs.node ino with
  | error e => exact .readFailed (notFile_of_error hnode)
  | ok node =>
    cases hbody : node.body with
    | dir entries => simpa only [hbody] using .readFailed (notFile_of_dir hnode hbody)
    | file data =>
      simp only [hbody]
      have hread := readInto_bytes data off buf
      split
      · next hpast =>
        have hzero : min (data.length - off) buf.length = 0 := by omega
        rw [hzero] at hread
        exact .read (abs_file hnode hbody) hread
      · exact .read (abs_file hnode hbody) hread

theorem listed_toList (fs : RamFs) (entries : Std.TreeMap Name InodeId) :
    Listed fs.abs (fun name => entries[name]?) (entries.toList.map fun e => ⟨e.1, e.2, fs.kindOf e.2⟩) where
  mem e := by
    simp only [List.mem_map, Prod.exists, Std.TreeMap.mem_toList_iff_getElem?_eq_some, kindOf_abs]
    constructor
    · rintro ⟨name, ino, hentry, rfl⟩
      exact ⟨hentry, rfl⟩
    · rintro ⟨hentry, hkind⟩
      exact ⟨e.name, e.ino, hentry, by rw [← hkind]⟩
  sorted := pairwise_map.mpr Std.TreeMap.ordered_keys_toList

theorem readdir_step (dir : InodeId) : StoreStep fs.abs (.readdir dir) (.entries (fs.readdir dir)) fs.abs := by
  unfold readdir
  cases hnode : fs.node dir with
  | error e => exact .listFailed (notDir_of_error hnode)
  | ok node =>
    cases hbody : node.body with
    | file data => simpa only [hbody] using .listFailed (notDir_of_file hnode hbody)
    | dir entries => simpa only [hbody] using .listed (abs_dir hnode hbody) (listed_toList fs entries)

theorem getxattr_step (ino : InodeId) (name : Name) :
    StoreStep fs.abs (.getxattr ino name) (.value (fs.getxattr ino name)) fs.abs := by
  unfold getxattr
  cases hnode : fs.node ino with
  | error e =>
    obtain ⟨rfl, hnone⟩ := abs_of_error hnode
    exact .attributeFailed fun c x h => by simp [hnone] at h
  | ok node =>
    simp only
    cases hattr : node.xattrs[name]? with
    | none =>
      refine .attributeFailed fun c x h => ?_
      rw [abs_of_node hnode] at h
      cases h
      exact hattr
    | some value => exact .attribute (abs_of_node hnode) hattr

/-! ### Calls that change one node -/

theorem abs_setBody_file (hnode : fs.node ino = .ok node) (file : List UInt8) :
    (fs.setNode ino { node with body := .file file }).abs
      = update fs.abs ino (some ⟨.file file, fun name => node.xattrs[name]?⟩) :=
  abs_setNode hnode _

theorem write_step (checks : Bool) (ino : InodeId) (hoff : off + data.length < 2 ^ 63) :
    ∃ fs' r, fs.write checks ino off data = some (fs', r) ∧
      StoreStep fs.abs (.write ino off data) (.count r) fs'.abs ∧ (r.isOk = false → fs' = fs) := by
  unfold write
  cases hnode : fs.node ino with
  | error e => exact ⟨_, _, rfl, .writeFailed (notFile_of_error hnode), fun _ => rfl⟩
  | ok node =>
    cases hbody : node.body with
    | dir entries =>
      simp only [hbody]
      exact ⟨_, _, rfl, .writeFailed (notFile_of_dir hnode hbody), fun _ => rfl⟩
    | file file =>
      obtain ⟨grown, new, hgrown, hcopy, hwritten⟩ := written_copyFromSlice file data hoff
      simp only [hbody, usize_of_lt checks (show off + data.length < 2 ^ 64 by omega), bind_eq_bind, bind_some, hgrown, hcopy]
      refine ⟨_, _, rfl, ?_, by rintro ⟨⟩⟩
      rw [abs_setBody_file hnode]
      exact .written (abs_file hnode hbody) hwritten

theorem truncate_step (ino : InodeId) (hlen : len < 2 ^ 63) : ∃ fs' r, fs.truncate ino len = some (fs', r) ∧
      StoreStep fs.abs (.truncate ino len) (.unit r) fs'.abs ∧ (r.isOk = false → fs' = fs) := by
  unfold truncate
  cases hnode : fs.node ino with
  | error e => exact ⟨_, _, rfl, .truncateFailed (notFile_of_error hnode), fun _ => rfl⟩
  | ok node =>
    cases hbody : node.body with
    | dir entries =>
      simp only [hbody]
      exact ⟨_, _, rfl, .truncateFailed (notFile_of_dir hnode hbody), fun _ => rfl⟩
    | file file =>
      have hres : resize file len = some _ := if_pos hlen
      simp only [hbody, hres, bind_eq_bind, bind_some]
      refine ⟨_, _, rfl, ?_, by rintro ⟨⟩⟩
      rw [abs_setBody_file hnode]
      exact .truncated (abs_file hnode hbody) (truncated_resize hres)

theorem getElem?_insert_eq_update (m : Std.TreeMap Name V) (name : Name) (value : V) :
    (fun n => (m.insert name value)[n]?) = update (fun n => m[n]?) name (some value) := by
  funext n
  rw [Std.TreeMap.getElem?_insert, update_apply]
  simp [@eq_comm _ n name]

theorem getElem?_erase_eq_update (m : Std.TreeMap Name V) (name : Name) :
    (fun n => (m.erase name)[n]?) = update (fun n => m[n]?) name none := by
  funext n
  rw [Std.TreeMap.getElem?_erase, update_apply]
  simp [@eq_comm _ n name]

theorem remove_step (dir : InodeId) (name : Name) :
    StoreStep fs.abs (.remove dir name) (.unit (fs.remove dir name).2) (fs.remove dir name).1.abs ∧
      ((fs.remove dir name).2.isOk = false → (fs.remove dir name).1 = fs) := by
  unfold remove
  cases hnode : fs.node dir with
  | error e => exact ⟨.removeFailed (notDir_of_error hnode), fun _ => rfl⟩
  | ok node =>
    cases hbody : node.body with
    | file data =>
      simp only [hbody]
      exact ⟨.removeFailed (notDir_of_file hnode hbody), fun _ => trivial⟩
    | dir entries =>
      simp only [hbody]
      cases hentry : entries[name]? with
      | none => exact ⟨.removeMissing (abs_dir hnode hbody) hentry, fun _ => rfl⟩
      | some ino =>
        refine ⟨?_, by rintro ⟨⟩⟩
        simp only [abs_setNode hnode, Node.abs, getElem?_erase_eq_update]
        exact .removed (abs_dir hnode hbody) hentry

theorem setxattr_step (ino : InodeId) (name : Name) (value : List UInt8) :
    StoreStep fs.abs (.setxattr ino name value) (.unit (fs.setxattr ino name value).2) (fs.setxattr ino name value).1.abs ∧
      ((fs.setxattr ino name value).2.isOk = false → (fs.setxattr ino name value).1 = fs) := by
  unfold setxattr
  cases hnode : fs.node ino with
  | error e =>
    obtain ⟨rfl, hnone⟩ := abs_of_error hnode
    exact ⟨.attributeSetFailed hnone, fun _ => rfl⟩
  | ok node =>
    refine ⟨?_, by rintro ⟨⟩⟩
    simp only [abs_setNode hnode, Node.abs, getElem?_insert_eq_update]
    exact .attributeSet (abs_of_node hnode)

/-! ### Creating -/

def emptyNode (kind : NodeKind) : Node := Node.new (match kind with | .file => .file [] | .dir => .dir ∅)

theorem abs_push (hlen : fs.nodes.length < 2 ^ 32) : (RamFs.mk (fs.nodes ++ [emptyNode kind])).abs
      = update fs.abs (BitVec.ofNat 32 fs.nodes.length) (some (empty kind)) := by
  have hino : (BitVec.ofNat 32 fs.nodes.length).toNat = fs.nodes.length := by simpa using hlen
  funext i
  by_cases hi : i = BitVec.ofNat 32 fs.nodes.length
  · subst hi
    simp only [abs, hino, getElem?_concat_length, map_some, update_self]
    cases kind <;> simp [emptyNode, Node.new, Node.abs, empty]
  have hne : i.toNat ≠ fs.nodes.length := fun h => hi (BitVec.eq_of_toNat_eq (by omega))
  rw [update_of_ne hi]
  simp only [abs]
  by_cases hlt : i.toNat < fs.nodes.length
  · rw [getElem?_append_left hlt]
  · rw [getElem?_eq_none (by simp; omega), getElem?_eq_none (by omega)]

/-- A failed `create` leaves the state; another one adds a node and an entry of `dir` for it. -/
theorem create_cases (fs : RamFs) (dir : InodeId) (name : Name) (kind : NodeKind) :
    (∃ e, fs.create dir name kind = (fs, .error e) ∧ fs.abs.notDir dir = some e) ∨
    ∃ entries xattrs, fs.nodes[dir.toNat]? = some ⟨.dir entries, xattrs⟩ ∧ fs.create dir name kind =
        (⟨(fs.nodes ++ [emptyNode kind]).set dir.toNat ⟨.dir (entries.insert name (BitVec.ofNat 32 fs.nodes.length)), xattrs⟩⟩,
        .ok (BitVec.ofNat 32 fs.nodes.length)) := by
  unfold create
  cases hnode : fs.node dir with
  | error e => exact .inl ⟨e, rfl, notDir_of_error hnode⟩
  | ok node =>
    obtain ⟨body, xattrs⟩ := node
    cases body with
    | file data => exact .inl ⟨_, rfl, notDir_of_file hnode rfl⟩
    | dir entries =>
      have hget : fs.nodes[dir.toNat]? = some ⟨.dir entries, xattrs⟩ := by
        unfold RamFs.node at hnode
        split at hnode
        · next h => cases hnode; exact h
        · cases hnode
      refine .inr ⟨entries, xattrs, hget, ?_⟩
      simp only [getElem?_append_left (lt_length_of_node hnode), hget]
      rfl

theorem create_step (dir : InodeId) (name : Name) (kind : NodeKind)
    (hnew : (fs.lookup dir name).toOption = none) (hlen : fs.nodes.length < 2 ^ 32) :
    StoreStep fs.abs (.create dir name kind) (.inode (fs.create dir name kind).2) (fs.create dir name kind).1.abs ∧
      ((fs.create dir name kind).2.isOk = false → (fs.create dir name kind).1 = fs) := by
  rcases create_cases fs dir name kind with ⟨e, he, hdir⟩ | ⟨entries, xattrs, hget, hok⟩
  · rw [he]
    exact ⟨.createFailed hdir, fun _ => rfl⟩
  have hnode : fs.node dir = .ok ⟨.dir entries, xattrs⟩ := by simp [RamFs.node, hget]
  have hentry : entries[name]? = none := by
    cases hentry : entries[name]? with
    | none => rfl
    | some ino => simp [lookup, hnode, hentry, Except.toOption] at hnew
  have hfresh : fs.abs (BitVec.ofNat 32 fs.nodes.length) = none := by
    have hino : (BitVec.ofNat 32 fs.nodes.length).toNat = fs.nodes.length := by simpa using hlen
    simp [abs, hino]
  have hpushed : (RamFs.mk (fs.nodes ++ [emptyNode kind])).node dir = .ok ⟨.dir entries, xattrs⟩ := by
    simp [RamFs.node, getElem?_append_left (lt_length_of_node hnode), hget]
  rw [hok]
  refine ⟨?_, by rintro ⟨⟩⟩
  have habs := abs_setNode hpushed
    ⟨.dir (entries.insert name (BitVec.ofNat 32 fs.nodes.length)), xattrs⟩
  rw [abs_push hlen] at habs
  simp only [Node.abs, getElem?_insert_eq_update] at habs
  exact habs ▸ .created (abs_dir hnode rfl) hentry hfresh

/-! ### Sequences of calls -/

/-- No range past `isize::MAX`, and a name to create that is not there yet, with an inode left for it. -/
def Fits (fs : RamFs) : Call → Prop
  | .write _ off data => off + data.length < 2 ^ 63
  | .truncate _ len => len < 2 ^ 63
  | .create dir name _ => (fs.lookup dir name).toOption = none ∧ fs.nodes.length < 2 ^ 32
  | _ => True

/-- Every call fits the state it is made in. -/
def AllFit (checks : Bool) : RamFs → List Call → Prop
  | _, [] => True
  | fs, call :: calls =>
    fs.Fits call ∧ ∀ r, (filesystem checks).apply fs call = some r → AllFit checks r.1 calls

theorem apply_step (checks : Bool) (hfits : fs.Fits call) : ∃ fs' answer, (filesystem checks).apply fs call = some (fs', answer) ∧
      StoreStep fs.abs call answer fs'.abs ∧ (answer.failed = true → fs' = fs) := by
  cases call with
  | root => exact ⟨_, _, rfl, .root, fun _ => rfl⟩
  | lookup dir name => exact ⟨_, _, rfl, lookup_step dir name, fun _ => rfl⟩
  | stat ino => exact ⟨_, _, rfl, stat_step ino, fun _ => rfl⟩
  | read ino off buf => exact ⟨_, _, rfl, read_step ino off buf, fun _ => rfl⟩
  | readdir dir => exact ⟨_, _, rfl, readdir_step dir, fun _ => rfl⟩
  | getxattr ino name => exact ⟨_, _, rfl, getxattr_step ino name, fun _ => rfl⟩
  | write ino off data =>
    obtain ⟨fs', r, hwrite, hstep, hfail⟩ := write_step checks ino hfits
    exact ⟨fs', .count r, by simp [Filesystem.apply, filesystem, hwrite], hstep,
      by simpa [Answer.failed] using hfail⟩
  | truncate ino len =>
    obtain ⟨fs', r, htrunc, hstep, hfail⟩ := truncate_step ino hfits
    exact ⟨fs', .unit r, by simp [Filesystem.apply, filesystem, htrunc], hstep,
      by simpa [Answer.failed] using hfail⟩
  | create dir name kind =>
    obtain ⟨hstep, hfail⟩ := create_step dir name kind hfits.1 hfits.2
    exact ⟨_, _, rfl, hstep, by simpa [Answer.failed, filesystem] using hfail⟩
  | remove dir name =>
    obtain ⟨hstep, hfail⟩ := remove_step dir name
    exact ⟨_, _, rfl, hstep, by simpa [Answer.failed, filesystem] using hfail⟩
  | setxattr ino name value =>
    obtain ⟨hstep, hfail⟩ := setxattr_step ino name value
    exact ⟨_, _, rfl, hstep, by simpa [Answer.failed, filesystem] using hfail⟩

theorem abs_new : new.abs = initial := by
  funext i
  by_cases hi : i = 0
  · subst hi
    simp [abs, new, initial, empty, Node.new, Node.abs]
  · have hpos : i.toNat ≠ 0 := fun h => hi (BitVec.eq_of_toNat_eq h)
    rw [initial, update_of_ne hi]
    simp [abs, new, hpos]

theorem applyAll_run (checks : Bool) (calls : List Call) : ∀ fs, AllFit checks fs calls → ∃ fs' answers,
      (filesystem checks).applyAll fs calls = some (fs', answers) ∧ StoreRun fs.abs calls answers fs'.abs := by
  induction calls with
  | nil => exact fun fs _ => ⟨fs, [], rfl, .nil _⟩
  | cons call calls ih =>
    intro fs hfit
    obtain ⟨fs₁, answer, happly, hstep, -⟩ := apply_step checks hfit.1
    obtain ⟨fs', answers, hall, hrun⟩ := ih fs₁ (hfit.2 _ happly)
    exact ⟨fs', answer :: answers, by simp [Filesystem.applyAll, happly, hall], .cons hstep hrun⟩

theorem fits_of_append (checks : Bool) (pre : List Call) : ∀ fs, AllFit checks fs (pre ++ call :: post) → ∃ fs' answers,
      (filesystem checks).applyAll fs pre = some (fs', answers) ∧ fs'.Fits call := by
  induction pre with
  | nil => exact fun fs hfit => ⟨fs, [], rfl, hfit.1⟩
  | cons first pre ih =>
    intro fs hfit
    obtain ⟨fs₁, answer, happly, -⟩ := apply_step checks hfit.1
    obtain ⟨fs', answers, hall, hfits⟩ := ih fs₁ (hfit.2 _ happly)
    exact ⟨fs', answer :: answers, by simp [Filesystem.applyAll, happly, hall], hfits⟩

/-- Calls that fit never panic, answer and act as on an inode store, and leave the state when they fail. -/
theorem ram_fs_implements_store (checks : Bool) (calls : List Call) (hfit : AllFit checks new calls) :
    (∃ fs answers, (filesystem checks).applyAll new calls = some (fs, answers) ∧
      StoreRun initial calls answers fs.abs) ∧
    ∀ pre call post, calls = pre ++ call :: post → ∃ fs answers fs' answer,
      (filesystem checks).applyAll new pre = some (fs, answers) ∧
      (filesystem checks).apply fs call = some (fs', answer) ∧
      StoreStep fs.abs call answer fs'.abs ∧ (answer.failed = true → fs' = fs) := by
  constructor
  · rw [← abs_new]
    exact applyAll_run checks calls new hfit
  rintro pre call post rfl
  obtain ⟨fs, answers, hall, hfits⟩ := fits_of_append checks pre new hfit
  obtain ⟨fs', answer, happly, hstep, hfail⟩ := apply_step checks hfits
  exact ⟨fs, answers, fs', answer, hall, happly, hstep, hfail⟩

/-- A sparse write into a new file, in a build with overflow checks. -/
theorem ram_fs_implements_store_sparse :
    ∃ fs answers, (filesystem true).applyAll new [.create 0 [97] .file, .write 1 2 [7]]
        = some (fs, answers) ∧
      StoreRun initial [.create 0 [97] .file, .write 1 2 [7]] answers fs.abs := by
  have hcreate : new.Fits (.create 0 [97] .file) := ⟨by decide, by decide⟩
  have hwrite : ∀ fs : RamFs, fs.Fits (.write 1 2 [7]) := fun _ => show 2 + 1 < 2 ^ 63 by omega
  exact (ram_fs_implements_store true [.create 0 [97] .file, .write 1 2 [7]]
    ⟨hcreate, fun r _ => ⟨hwrite r.1, fun _ _ => trivial⟩⟩).1

/-- The second `create` of one name succeeds, and the name then leads to the new inode. -/
theorem create_replaces_entry :
    ∃ fs answers, (filesystem true).applyAll new [.create 0 [97] .file, .create 0 [97] .file]
        = some (fs, answers) ∧
      fs.lookup 0 [97] = .ok 2 ∧
      ¬ ∃ S, StoreRun initial [.create 0 [97] .file, .create 0 [97] .file] answers S := by
  refine ⟨_, [.inode (.ok 1), .inode (.ok 2)], rfl, by decide, ?_⟩
  rintro ⟨S, hrun⟩
  obtain _ | ⟨hfirst, hrest⟩ := hrun
  obtain _ | ⟨hsecond, -⟩ := hrest
  cases hfirst with
  | created hdir hnew hfresh =>
    cases hsecond with
    | created hdir' hnew' hfresh' =>
      cases hdir'
      simp at hnew'

end RamFs

end SnitchOs.Fs
