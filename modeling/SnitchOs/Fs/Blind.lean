import SnitchOs.Fs.Serve

/-!
# What a round shows of a file's bytes

Two filesystems related by `R` answer every call alike except `read`. A round on a badge without the right
to read then has the same effects over both, so nothing the client gets back depends on what `R` leaves
open. For the RAM filesystem `R` is `SameShape`: equal up to the bytes of the files.
-/

namespace SnitchOs.Fs

open Copy Mem Effects Prog Machine List

abbrev SameAnswer {F A : Type} (R : F → F → Prop) (x y : F × A) : Prop := R x.1 y.1 ∧ x.2 = y.2

/-- `R` is kept by the calls that change the state, and no call but `read` can tell related states apart. -/
structure Blind {F : Type} (I : Filesystem F) (R : F → F → Prop) : Prop where
  lookup : ∀ {fs fs'} dir name, R fs fs' → I.lookup fs dir name = I.lookup fs' dir name
  stat : ∀ {fs fs'} ino, R fs fs' → I.stat fs ino = I.stat fs' ino
  readdir : ∀ {fs fs'} dir, R fs fs' → I.readdir fs dir = I.readdir fs' dir
  getxattr : ∀ {fs fs'} ino name, R fs fs' → I.getxattr fs ino name = I.getxattr fs' ino name
  write : ∀ {fs fs'} ino off data, R fs fs' →
    Option.Rel (SameAnswer R) (I.write fs ino off data) (I.write fs' ino off data)
  truncate : ∀ {fs fs'} ino len, R fs fs' →
    Option.Rel (SameAnswer R) (I.truncate fs ino len) (I.truncate fs' ino len)
  create : ∀ {fs fs'} dir name kind, R fs fs' →
    Option.Rel (SameAnswer R) (I.create fs dir name kind) (I.create fs' dir name kind)
  remove : ∀ {fs fs'} dir name, R fs fs' →
    Option.Rel (SameAnswer R) (I.remove fs dir name) (I.remove fs' dir name)

section Rules

variable {F : Type} {I : Filesystem F} {R : F → F → Prop} {fs fs' : F} {A : Type}
  {name : UserBuf}

theorem alike_refl {α : Type} (x : Prog Effect α) : Alike Eq x x := by
  refine ⟨rfl, ?_⟩
  cases x.value with
  | none => exact .none
  | some a => exact .some rfl

theorem bind_sameAnswer {B : Type} {S : B → B → Prop} {f : F × A → Prog Effect B} (h : Alike (SameAnswer R) x y)
    (hf : ∀ fs fs' a, R fs fs' → Alike S (f (fs, a)) (f (fs', a))) : Alike S (x >>= f) (y >>= f) := by
  refine h.bind fun a b hab => ?_
  obtain ⟨fs, a⟩ := a
  obtain ⟨fs', b⟩ := b
  obtain ⟨hR, rfl⟩ := hab
  exact hf fs fs' a hR

theorem answer_alike (hR : R fs fs') (answer : Prog Effect PUnit) :
    Alike R (answer >>= fun _ => pure fs) (answer >>= fun _ => pure fs') :=
  (alike_refl answer).bind fun _ _ _ => .pure hR

theorem copyFromCaller_alike (hR : R fs fs') (h : src.len.toNat ≤ cap ∨ maxUserStrLen < src.len.toNat) :
    Alike (SameAnswer R) (copyFromCaller r fs src cap) (copyFromCaller r fs' src cap) := by
  simp only [copyFromCaller, pull_inside h, if_true]
  exact (Alike.emit _).bind fun _ _ _ => .pure ⟨hR, rfl⟩

theorem withName_alike (hR : R fs fs') (h : name.len.toNat ≤ nameCap ∨ maxUserStrLen < name.len.toNat)
    {f : F → Name → Option (F × Except FsError A)} (hf : ∀ fs fs' s, R fs fs' → Option.Rel (SameAnswer R) (f fs s) (f fs' s)) :
    Alike (SameAnswer R) (withName r fs name f) (withName r fs' name f) := by
  refine bind_sameAnswer (copyFromCaller_alike hR h) fun fs fs' copied hR => ?_
  cases copied with
  | none => exact .pure ⟨hR, rfl⟩
  | some n =>
    refine (alike_refl (sliceTo nameCap n)).bind fun _ _ _ => ?_
    split
    · exact .ofOption (hf _ _ _ hR)
    · exact .pure ⟨hR, rfl⟩

variable (hb : Blind I R)

include hb

variable (hR : R fs fs')
include hR

variable (h : name.len.toNat ≤ nameCap ∨ maxUserStrLen < name.len.toNat)
include h

theorem create_alike (dir : Badge) (kind : NodeKind) : Alike R (create I r fs dir name kind) (create I r fs' dir name kind) :=
  bind_sameAnswer (withName_alike hR h fun _ _ s hR => hb.create _ s _ hR) fun _ _ _ hR => answer_alike hR _

theorem lookup_alike (dir : Badge) (requested : FileRights) :
    Alike R (lookup I r fs dir name requested) (lookup I r fs' dir name requested) := by
  refine bind_sameAnswer (withName_alike hR h fun fs fs' s hR => ?_) fun _ _ _ hR => answer_alike hR _
  rw [hb.lookup dir.inode s hR]
  cases I.lookup fs' dir.inode s with
  | none => exact .none
  | some found => exact .some ⟨hR, rfl⟩

theorem remove_alike (dir : Badge) : Alike R (remove I r fs dir name) (remove I r fs' dir name) :=
  bind_sameAnswer (withName_alike hR h fun _ _ s hR => hb.remove _ s hR) fun _ _ _ hR => answer_alike hR _

omit h

theorem write_alike (file : Badge) (offset : BitVec 64) (src : UserBuf) :
    Alike R (write I r fs file offset src) (write I r fs' file offset src) := by
  refine bind_sameAnswer (copyFromCaller_alike hR (Nat.lt_or_ge maxUserStrLen _).symm) fun fs fs' copied hR => ?_
  cases copied with
  | none => exact answer_alike hR _
  | some n =>
    refine (alike_refl (sliceTo dataCap n)).bind fun _ _ _ => ?_
    exact bind_sameAnswer (.ofOption (hb.write _ _ _ hR)) fun _ _ _ hR => answer_alike hR _

theorem truncate_alike (file : Badge) (len : BitVec 64) : Alike R (truncate I fs file len) (truncate I fs' file len) :=
  bind_sameAnswer (.ofOption (hb.truncate _ _ hR)) fun _ _ _ hR => answer_alike hR _

theorem stat_alike (file : Badge) : Alike R (stat I fs file) (stat I fs' file) := by
  unfold stat
  rw [hb.stat _ hR]
  exact (alike_refl _).bind fun _ _ h => h ▸ answer_alike hR _

theorem readdir_alike (dir : Badge) (index : BitVec 64) (dst : UserBuf) :
    Alike R (readdir I r fs dir index dst) (readdir I r fs' dir index dst) := by
  unfold readdir
  rw [hb.readdir _ hR]
  exact (alike_refl _).bind fun _ _ h => h ▸ answer_alike hR _

theorem getXattr_alike (file : Badge) (key : XattrKey) (dst : UserBuf) :
    Alike R (getXattr I r fs file key dst) (getXattr I r fs' file key dst) := by
  unfold getXattr
  rw [hb.getxattr _ _ hR]
  exact (alike_refl _).bind fun _ _ h => h ▸ answer_alike hR _

/-- Without the right to read, the only handler that could tell the two apart is not reached. -/
theorem serveOne_alike (hnames : r.NamesFit) (hbadge : r.badge ≠ 0)
    (hread : FileRights.contains (Badge.unpack r.badge).rights FileRights.read = false) :
    Alike R (serveOne I fs r) (serveOne I fs' r) := by
  unfold serveOne
  split
  · exact .pure hR
  unfold request
  cases hreq : Request.decode r.msg with
  | error e => exact answer_alike hR _
  | ok req =>
    dsimp only
    split
    · exact (alike_refl _).bind fun _ _ _ => answer_alike hR _
    next hrights =>
    cases req with
    | stat => exact stat_alike hb hR _
    | read offset dst => simp [checkRights, requiredRight, Request.op, hread] at hrights
    | write offset src => exact write_alike hb hR _ _ _
    | lookup name rights => exact lookup_alike hb hR (hnames _ _ hreq rfl) _ _
    | create name kind => exact create_alike hb hR (hnames _ _ hreq rfl) _ _
    | remove name => exact remove_alike hb hR (hnames _ _ hreq rfl) _
    | readdir index dst => exact readdir_alike hb hR _ _ _
    | getXattr key dst => exact getXattr_alike hb hR _ _ _
    | truncate len => exact truncate_alike hb hR _ _

end Rules

/-! ### The RAM filesystem -/

/-- Equal up to the bytes of a file. -/
inductive Node.SameShape : Node → Node → Prop
  | file {data data' : List UInt8} (xattrs : Std.TreeMap Name (List UInt8)) (h : data.length = data'.length) :
      SameShape ⟨.file data, xattrs⟩ ⟨.file data', xattrs⟩
  | dir (entries : Std.TreeMap Name InodeId) (xattrs : Std.TreeMap Name (List UInt8)) :
      SameShape ⟨.dir entries, xattrs⟩ ⟨.dir entries, xattrs⟩

namespace RamFs

/-- The same nodes, up to the bytes of the files. -/
def SameShape (fs fs' : RamFs) : Prop := ∀ i : Nat, Option.Rel Node.SameShape fs.nodes[i]? fs'.nodes[i]?

variable {fs fs' : RamFs}

theorem Node.SameShape.refl (node : Node) : node.SameShape node := by
  obtain ⟨body, xattrs⟩ := node
  cases body with
  | file data => exact .file xattrs rfl
  | dir entries => exact .dir entries xattrs

variable (h : SameShape fs fs')
include h

theorem SameShape.node (ino : InodeId) : (∃ e, fs.node ino = .error e ∧ fs'.node ino = .error e) ∨
      ∃ node node', fs.node ino = .ok node ∧ fs'.node ino = .ok node' ∧ node.SameShape node' := by
  have hi := h ino.toNat
  unfold RamFs.node
  generalize fs.nodes[ino.toNat]? = a at hi ⊢
  generalize fs'.nodes[ino.toNat]? = b at hi ⊢
  cases hi with
  | none => exact .inl ⟨_, rfl, rfl⟩
  | some hnode => exact .inr ⟨_, _, rfl, rfl, hnode⟩

theorem SameShape.length : fs.nodes.length = fs'.nodes.length := by
  have hle : ∀ {fs fs' : RamFs}, SameShape fs fs' → fs'.nodes.length ≤ fs.nodes.length := by
    intro fs fs' h
    have hi := h fs.nodes.length
    rw [getElem?_eq_none (Nat.le_refl _)] at hi
    generalize hb : fs'.nodes[fs.nodes.length]? = b at hi
    cases hi
    exact getElem?_eq_none_iff.mp hb
  have hi := h fs'.nodes.length
  rw [getElem?_eq_none (Nat.le_refl _)] at hi
  generalize ha : fs.nodes[fs'.nodes.length]? = a at hi
  cases hi
  exact Nat.le_antisymm (getElem?_eq_none_iff.mp ha) (hle h)

theorem SameShape.setNode (ino : InodeId) {node node' : Node}
    (hnode : node.SameShape node') : SameShape (fs.setNode ino node) (fs'.setNode ino node') := by
  intro i
  simp only [RamFs.setNode, getElem?_set, h.length]
  split
  · split
    · exact .some hnode
    · exact .none
  · exact h i

theorem SameShape.kindOf (ino : InodeId) : fs.kindOf ino = fs'.kindOf ino := by
  have hi := h ino.toNat
  unfold RamFs.kindOf
  generalize fs.nodes[ino.toNat]? = a at hi ⊢
  generalize fs'.nodes[ino.toNat]? = b at hi ⊢
  cases hi with
  | none => rfl
  | some hnode => cases hnode <;> rfl

omit h

theorem resize_sameLength (h : data.length = data'.length) (len : Nat) :
    Option.Rel (fun a b => a.length = b.length) (resize data len) (resize data' len) := by
  unfold resize
  split
  · exact .some (by simp [h])
  · exact .none

theorem copyFromSlice_sameLength (h : file.length = file'.length) (start stop : Nat)
    (data : List UInt8) : Option.Rel (fun a b => a.length = b.length) (copyFromSlice file start stop data)
      (copyFromSlice file' start stop data) := by
  unfold copyFromSlice
  rw [h]
  split
  · exact .some (by simp [h])
  · exact .none

variable (h : SameShape fs fs')
include h

/-! ### Calls on filesystems of one shape -/

theorem write_sameShape (checks : Bool) (ino : InodeId) (off : Nat) (data : List UInt8) :
    Option.Rel (SameAnswer SameShape) (fs.write checks ino off data) (fs'.write checks ino off data) := by
  unfold write
  rcases h.node ino with ⟨e, he, he'⟩ | ⟨node, node', hn, hn', hnode⟩
  · rw [he, he']
    exact .some ⟨h, rfl⟩
  rw [hn, hn']
  cases hnode with
  | dir entries xattrs => exact .some ⟨h, rfl⟩
  | @file file file' xattrs hlen =>
    cases hstop : usize checks (off + data.length) with
    | none => exact .none
    | some stop =>
      have hgrown : Option.Rel (fun a b => a.length = b.length)
          (if file.length < stop then resize file stop else some file)
          (if file'.length < stop then resize file' stop else some file') := by
        rw [hlen]
        split
        · exact resize_sameLength hlen stop
        · exact .some hlen
      simp only [Option.bind_eq_bind, Option.bind_some]
      refine rel_bind hgrown fun _ _ hlen => rel_bind (copyFromSlice_sameLength hlen off stop data) fun _ _ hlen => ?_
      exact .some ⟨h.setNode ino (.file xattrs hlen), rfl⟩

theorem truncate_sameShape (ino : InodeId) (len : Nat) :
    Option.Rel (SameAnswer SameShape) (fs.truncate ino len) (fs'.truncate ino len) := by
  unfold truncate
  rcases h.node ino with ⟨e, he, he'⟩ | ⟨node, node', hn, hn', hnode⟩
  · rw [he, he']
    exact .some ⟨h, rfl⟩
  rw [hn, hn']
  cases hnode with
  | dir entries xattrs => exact .some ⟨h, rfl⟩
  | @file file file' xattrs hlen =>
    refine rel_bind (resize_sameLength hlen len) fun _ _ hlen => ?_
    exact .some ⟨h.setNode ino (.file xattrs hlen), rfl⟩

theorem SameShape.push (node : Node) : SameShape ⟨fs.nodes ++ [node]⟩ ⟨fs'.nodes ++ [node]⟩ := by
  intro i
  simp only [getElem?_append, h.length]
  split
  · exact h i
  generalize [node][i - fs'.nodes.length]? = a
  cases a with
  | none => exact .none
  | some node => exact .some (Node.SameShape.refl node)

theorem create_sameShape (dir : InodeId) (name : Name) (kind : NodeKind) :
    SameAnswer SameShape (fs.create dir name kind) (fs'.create dir name kind) := by
  unfold create
  rcases h.node dir with ⟨e, he, he'⟩ | ⟨node, node', hn, hn', hnode⟩
  · rw [he, he']
    exact ⟨h, rfl⟩
  rw [hn, hn', h.length]
  cases hnode with
  | file xattrs hlen => exact ⟨h, rfl⟩
  | dir entries xattrs =>
    simp only
    generalize Node.new _ = fresh
    have hpush := h.push fresh
    have hat := hpush dir.toNat
    generalize (fs.nodes ++ _)[dir.toNat]? = a at hat ⊢
    generalize (fs'.nodes ++ _)[dir.toNat]? = b at hat ⊢
    cases hat with
    | none => exact ⟨hpush, rfl⟩
    | some hnode =>
      cases hnode with
      | file xattrs hlen => exact ⟨hpush, rfl⟩
      | dir entries xattrs => exact ⟨hpush.setNode dir (.dir _ _), rfl⟩

theorem remove_sameShape (dir : InodeId) (name : Name) : SameAnswer SameShape (fs.remove dir name) (fs'.remove dir name) := by
  unfold remove
  rcases h.node dir with ⟨e, he, he'⟩ | ⟨node, node', hn, hn', hnode⟩
  · rw [he, he']
    exact ⟨h, rfl⟩
  rw [hn, hn']
  cases hnode with
  | file xattrs hlen => exact ⟨h, rfl⟩
  | dir entries xattrs =>
    simp only
    cases entries[name]? with
    | none => exact ⟨h, rfl⟩
    | some ino => exact ⟨h.setNode dir (.dir _ _), rfl⟩

theorem lookup_sameShape (dir : InodeId) (name : Name) : fs.lookup dir name = fs'.lookup dir name := by
  unfold lookup
  rcases h.node dir with ⟨e, he, he'⟩ | ⟨node, node', hn, hn', hnode⟩
  · rw [he, he']
  rw [hn, hn']
  cases hnode <;> rfl

theorem stat_sameShape (ino : InodeId) : fs.stat ino = fs'.stat ino := by
  unfold stat
  rcases h.node ino with ⟨e, he, he'⟩ | ⟨node, node', hn, hn', hnode⟩
  · rw [he, he']
  rw [hn, hn']
  cases hnode with
  | file xattrs hlen => simp [hlen]
  | dir => rfl

theorem readdir_sameShape (dir : InodeId) : fs.readdir dir = fs'.readdir dir := by
  unfold readdir
  rcases h.node dir with ⟨e, he, he'⟩ | ⟨node, node', hn, hn', hnode⟩
  · rw [he, he']
  rw [hn, hn']
  cases hnode with
  | file => rfl
  | dir entries xattrs => simp [h.kindOf]

theorem getxattr_sameShape (ino : InodeId) (name : Name) : fs.getxattr ino name = fs'.getxattr ino name := by
  unfold getxattr
  rcases h.node ino with ⟨e, he, he'⟩ | ⟨node, node', hn, hn', hnode⟩
  · rw [he, he']
  rw [hn, hn']
  cases hnode <;> rfl

omit h

theorem inProcess_blind (checks : Bool) : Blind (inProcess checks) SameShape where
  lookup dir name h := congrArg some (lookup_sameShape h dir name)
  stat ino h := congrArg some (stat_sameShape h ino)
  readdir dir h := congrArg some (readdir_sameShape h dir)
  getxattr ino name h := congrArg some (getxattr_sameShape h ino name)
  write ino off data h := write_sameShape h checks ino off data
  truncate ino len h := truncate_sameShape h ino len
  create dir name kind h := by
    simp only [inProcess, h.length]
    split
    · exact .some (create_sameShape h dir name kind)
    · exact .none
  remove dir name h := .some (remove_sameShape h dir name)

end RamFs

end SnitchOs.Fs
