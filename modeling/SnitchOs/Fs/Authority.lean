import SnitchOs.Fs.Blind

/-!
# The authority of a filesystem client

A client sends requests on the file capabilities it holds and receives those minted in the replies. `Held.via` records
the badge of the capability another one came through. A badge names an inode and the rights on it, and badge `0` would
be answered with the root and every right, so that a directory entry never names inode `0` is part of the invariant.

The client shares no capability, and the server's filesystem starts from calls on an empty one, as the seeded image
does.
-/

namespace SnitchOs.Fs

open Copy Mem Effects Option List RamFs FileRights

variable {name : Name} {fs fs' : RamFs}

/-! ### Entries never name the root -/

namespace RamFs

/-- No directory entry names the root, and there is an inode left for a new node. -/
structure Named (fs : RamFs) : Prop where
  nonempty : 0 < fs.nodes.length
  small : fs.nodes.length ≤ heapMax
  entry : ∀ node ∈ fs.nodes, ∀ entries, node.body = .dir entries →
    ∀ (name : Name) (ino : InodeId), entries[name]? = some ino → ino ≠ 0

variable {fs fs' : RamFs} {ino : InodeId} {node : Node}

theorem named_new : Named new where
  nonempty := by decide
  small := by decide
  entry node hnode entries hbody name ino hentry := by
    rw [mem_singleton.mp hnode] at hbody
    cases hbody
    simp at hentry

theorem mem_of_node (h : fs.node ino = .ok node) : node ∈ fs.nodes := by
  unfold RamFs.node at h
  split at h
  · next hget =>
    cases h
    exact mem_of_getElem? hget
  · cases h

variable (h : Named fs)
include h

theorem Named.setNode (ino : InodeId) (hnode : ∀ entries, node.body = .dir entries →
      ∀ (name : Name) (ino : InodeId), entries[name]? = some ino → ino ≠ 0) : Named (fs.setNode ino node) where
  nonempty := by simpa [RamFs.setNode] using h.nonempty
  small := by simpa [RamFs.setNode] using h.small
  entry node' hmem := by
    rcases mem_or_eq_of_mem_set hmem with hmem | rfl
    · exact h.entry node' hmem
    · exact hnode

theorem Named.lookup (hlookup : fs.lookup dir name = .ok ino) : ino ≠ 0 := by
  unfold RamFs.lookup at hlookup
  split at hlookup
  · cases hlookup
  next node hnode =>
  split at hlookup
  · cases hlookup
  next entries hbody =>
  split at hlookup
  · next hentry =>
    cases hlookup
    exact h.entry node (mem_of_node hnode) entries hbody _ _ hentry
  · cases hlookup

theorem Named.create (hsmall : fs.nodes.length < heapMax) (dir : InodeId) (name : Name) (kind : NodeKind) :
    Named (fs.create dir name kind).1 ∧ ∀ ino, (fs.create dir name kind).2 = .ok ino → ino ≠ 0 := by
  have hino : BitVec.ofNat 32 fs.nodes.length ≠ (0 : InodeId) := by
    intro hzero
    have hlen : (BitVec.ofNat 32 fs.nodes.length).toNat = 0 := by rw [hzero]; rfl
    have hpos := h.nonempty
    have hmax : heapMax < 2 ^ 32 := by decide
    rw [BitVec.toNat_ofNat, Nat.mod_eq_of_lt (by omega)] at hlen
    omega
  rcases create_cases fs dir name kind with ⟨e, he, -⟩ | ⟨entries, xattrs, hdir, hok⟩
  · rw [he]
    exact ⟨h, fun ino hok => by cases hok⟩
  rw [hok]
  refine ⟨⟨by simp, by simpa using hsmall, fun node hmem => ?_⟩, fun ino hok => by cases hok; exact hino⟩
  rcases mem_or_eq_of_mem_set hmem with hmem | rfl
  · rcases mem_append.mp hmem with hmem | hmem
    · exact h.entry node hmem
    intro entries hbody name ino hentry
    rw [mem_singleton.mp hmem] at hbody
    cases kind <;> cases hbody
    simp at hentry
  · rintro _ ⟨⟩ name' ino hentry
    rw [Std.TreeMap.getElem?_insert] at hentry
    split at hentry
    · cases hentry
      exact hino
    · exact h.entry _ (mem_of_getElem? hdir) entries rfl _ _ hentry

theorem Named.remove (dir : InodeId) (name : Name) : Named (fs.remove dir name).1 := by
  unfold RamFs.remove
  split
  · exact h
  next node hnode =>
  split
  · exact h
  next entries hbody =>
  split
  · refine h.setNode dir ?_
    rintro _ ⟨⟩ name' ino hentry
    rw [Std.TreeMap.getElem?_erase] at hentry
    split at hentry
    · cases hentry
    · exact h.entry node (mem_of_node hnode) entries hbody _ _ hentry
  · exact h

theorem Named.write (hwrite : fs.write checks ino off data = some (fs', res)) : Named fs' := by
  unfold RamFs.write at hwrite
  split at hwrite
  · cases hwrite; exact h
  split at hwrite
  · cases hwrite; exact h
  simp only [bind_eq_bind, bind_eq_some_iff] at hwrite
  obtain ⟨stop, -, grown, -, file, -, hok⟩ := hwrite
  cases hok
  exact h.setNode ino fun entries hbody => by cases hbody

theorem Named.truncate (htruncate : fs.truncate ino len = some (fs', res)) : Named fs' := by
  unfold RamFs.truncate at htruncate
  split at htruncate
  · cases htruncate; exact h
  split at htruncate
  · cases htruncate; exact h
  simp only [bind_eq_bind, bind_eq_some_iff] at htruncate
  obtain ⟨file, -, hok⟩ := htruncate
  cases hok
  exact h.setNode ino fun entries hbody => by cases hbody

theorem Named.setxattr (ino : InodeId) (name : Name) (value : List UInt8) : Named (fs.setxattr ino name value).1 := by
  unfold RamFs.setxattr
  split
  · exact h
  · next node hnode => exact h.setNode ino (h.entry node (mem_of_node hnode))

theorem Named.apply (happly : (inProcess checks).apply fs call = some (fs', answer)) : Named fs' := by
  cases call with
  | create dir name kind =>
    obtain ⟨r, hr, heq⟩ := map_eq_some_iff.mp happly
    cases heq
    simp only [inProcess] at hr
    split at hr
    · next hsmall => cases hr; exact (h.create hsmall dir name kind).1
    · cases hr
  | write ino off data =>
    obtain ⟨r, hr, heq⟩ := map_eq_some_iff.mp happly
    cases heq
    exact h.write hr
  | truncate ino len =>
    obtain ⟨r, hr, heq⟩ := map_eq_some_iff.mp happly
    cases heq
    exact h.truncate hr
  | remove dir name => cases happly; exact h.remove dir name
  | setxattr ino name value => cases happly; exact h.setxattr ino name value
  | root | lookup | stat | read | readdir | getxattr => cases happly; exact h

omit h

theorem Named.applyAll (calls : List Call) : ∀ {fs fs' : RamFs} {answers : List Answer}, Named fs →
      (inProcess checks).applyAll fs calls = some (fs', answers) → Named fs' := by
  induction calls with
  | nil =>
    intro fs fs' answers h hall
    cases hall
    exact h
  | cons call calls ih =>
    intro fs fs' answers h hall
    simp only [Filesystem.applyAll, bind_eq_bind, bind_eq_some_iff, Prod.exists] at hall
    obtain ⟨fs₁, answer, happly, fs₂, rest, hrest, heq⟩ := hall
    cases heq
    exact ih (h.apply happly) hrest

/-! ### Files -/

def file (fs : RamFs) (ino : InodeId) : Option (List UInt8) :=
  match fs.nodes[ino.toNat]? with
  | some ⟨.file data, _⟩ => some data
  | _ => none

/-- Every file has the bytes it had. -/
def KeepsFiles (fs fs' : RamFs) : Prop := ∀ ino data, fs.file ino = some data → fs'.file ino = some data

theorem keepsFiles_of_get (h : ∀ (i : Nat) (data : List UInt8) (xattrs : Std.TreeMap Name (List UInt8)),
    fs.nodes[i]? = some ⟨.file data, xattrs⟩ → fs'.nodes[i]? = some ⟨.file data, xattrs⟩) : KeepsFiles fs fs' := by
  intro ino data hfile
  unfold file at hfile
  split at hfile
  · next data' xattrs hget =>
    cases hfile
    simp [file, h _ _ _ hget]
  · cases hfile

theorem create_keepsFiles (dir : InodeId) (name : Name) (kind : NodeKind) : KeepsFiles fs (fs.create dir name kind).1 := by
  rcases create_cases fs dir name kind with ⟨e, he, -⟩ | ⟨entries, xattrs, hdir, hok⟩
  · rw [he]
    exact fun _ _ h => h
  rw [hok]
  refine keepsFiles_of_get fun i data xattrs' hget => ?_
  have hlt := (List.getElem?_eq_some_iff.mp hget).1
  have hne : dir.toNat ≠ i := by
    rintro rfl
    rw [hdir] at hget
    cases hget
  rw [getElem?_set_ne hne, getElem?_append_left hlt, hget]

theorem remove_keepsFiles (dir : InodeId) (name : Name) : KeepsFiles fs (fs.remove dir name).1 := by
  unfold RamFs.remove
  cases hnode : fs.node dir with
  | error e => exact fun _ _ h => h
  | ok node =>
    cases hbody : node.body with
    | file data => simp only [hbody]; exact fun _ _ h => h
    | dir entries =>
      simp only [hbody]
      split
      · refine keepsFiles_of_get fun i data xattrs hget => ?_
        have hne : dir.toNat ≠ i := by
          rintro rfl
          simp only [RamFs.node, hget, Except.ok.injEq] at hnode
          subst hnode
          cases hbody
        rw [RamFs.setNode, getElem?_set_ne hne, hget]
      · exact fun _ _ h => h

end RamFs

/-! ### The client -/

/-- A file capability, by its badge. -/
structure Held where
  badge : BitVec 64
  /-- The badge of the capability it was looked up or created through. -/
  via : Option (BitVec 64) := none
deriving DecidableEq

def rightsOf (badge : BitVec 64) : FileRights := (Badge.unpack badge).rights

structure Client where
  /-- The server's filesystem; `none` once the server has panicked. -/
  fs : Option RamFs
  held : List Held
  /-- All the server did for the client. -/
  seen : List Effect := []

def Effect.cap? : Effect → Option (BitVec 64)
  | .replyWithCap _ badge => some badge
  | _ => none

namespace Client

/-- After the server's round for a request. -/
def served (checks : Bool) (s : Client) (r : Round RamFs) (fs : RamFs) : Client :=
  let round := serveOne (inProcess checks) fs r
  { fs := round.value
    held := s.held ++ (round.log.filterMap Effect.cap?).map fun badge => ⟨badge, some r.badge⟩
    seen := s.seen ++ round.log }

def step (checks : Bool) (s : Client) (r : Round RamFs) : Option Client :=
  if s.held.any (·.badge == r.badge) then s.fs.map (s.served checks r) else none

/-- File capabilities and not the bare one, and a server whose filesystem comes from calls on an empty one. -/
structure Start (checks : Bool) (s : Client) : Prop where
  seeded : ∃ fs calls answers, s.fs = some fs ∧
    (inProcess checks).applyAll new calls = some (fs, answers)
  badge : ∀ c ∈ s.held, c.badge ≠ 0
  via : ∀ c ∈ s.held, c.via = none

/-- No badge carries the right. -/
def Lacks (s : Client) (right : FileRights) : Prop :=
  ∀ c ∈ s.held, contains (rightsOf c.badge) right = false

end Client

theorem FileRights.contains_trans (hab : FileRights.contains a b = true) (hbc : contains b c = true) : contains a c = true := by
  simp only [contains, beq_iff_eq] at *
  rw [← hbc, ← BitVec.and_assoc, hab]

theorem FileRights.contains_and (a b : FileRights) : FileRights.contains a (a &&& b) = true := by
  simp only [contains, beq_iff_eq]
  rw [← BitVec.and_assoc, BitVec.and_self]

def Attenuated (held : BitVec 64) : Effect → Prop
  | .replyWithCap _ badge => badge ≠ 0 ∧ contains (rightsOf held) (rightsOf badge) = true
  | _ => True

theorem attenuated_pack (h : child ≠ 0) :
    Attenuated held (.replyWithCap msg (Badge.pack ⟨child, (Badge.unpack held).rights &&& mask⟩)) := by
  refine ⟨Badge.pack_ne_zero h, ?_⟩
  rw [rightsOf, rightsOf, Badge.unpack_pack]
  exact contains_and _ _

section Round

variable {r : Round RamFs} {fs₀ : RamFs}

/-- What a round keeps of the filesystem; of the files only if the badge cannot write. -/
def Kept (r : Round RamFs) (fs₀ fs : RamFs) : Prop :=
  fs.Named ∧ (FileRights.contains (rightsOf r.badge) FileRights.write = false → fs₀.KeepsFiles fs)

theorem Kept.trans (hK : Kept r fs₀ fs) (hnamed : fs'.Named) (hkeeps : fs.KeepsFiles fs') : Kept r fs₀ fs' :=
  ⟨hnamed, fun hno ino data hfile => hkeeps ino data (hK.2 hno ino data hfile)⟩

theorem inProcess_create (h : (inProcess checks).create fs dir name kind = some (fs', res)) :
    fs.nodes.length < heapMax ∧ fs.create dir name kind = (fs', res) := by
  simp only [inProcess] at h
  split at h
  · next hsmall => exact ⟨hsmall, some.inj h⟩
  · cases h

theorem kept_contract (hnames : r.NamesFit) (hbadge : r.badge ≠ 0) :
    Contract (inProcess checks) r (Attenuated r.badge) (Kept r fs₀) where
  slice _ := trivial
  push _ _ _ := trivial
  denied _ := trivial
  reply _ := trivial
  attach hzero := absurd hzero hbadge
  pull hK hreq hpull := by
    refine (copyFromCaller_emits (hnames.pull hreq hpull) _ fun _ _ _ => trivial).mono fun x hx => ?_
    exact ⟨hx.1 ▸ hK, hx.2⟩
  lookup _ _ _ hK hlookup := attenuated_pack (hK.1.lookup (some.inj hlookup))
  create _ hK hcreate := by
    obtain ⟨hsmall, hcreate⟩ := inProcess_create hcreate
    obtain ⟨rfl, rfl⟩ := Prod.ext_iff.mp hcreate
    obtain ⟨hnamed, hino⟩ := hK.1.create hsmall _ _ _
    exact ⟨hK.trans hnamed (create_keepsFiles _ _ _), fun _ child hok => attenuated_pack (hino child hok)⟩
  remove hK hremove := by
    obtain ⟨rfl, rfl⟩ := Prod.ext_iff.mp (some.inj hremove)
    exact hK.trans (hK.1.remove _ _) (remove_keepsFiles _ _)
  write hright hK hwrite := ⟨hK.1.write hwrite, fun hno => by rw [rightsOf, hright] at hno; cases hno⟩
  truncate hright hK htruncate :=
    ⟨hK.1.truncate htruncate, fun hno => by rw [rightsOf, hright] at hno; cases hno⟩

end Round

/-! ### Runs -/

namespace Client

variable {checks : Bool} {s₀ s s' : Client} {r : Round RamFs}

theorem step_cases (h : s.step checks r = some s') :
    ∃ fs, s.fs = some fs ∧ (∃ c ∈ s.held, c.badge = r.badge) ∧ s' = s.served checks r fs := by
  unfold step at h
  split at h
  · next hheld =>
    obtain ⟨fs, hfs, rfl⟩ := map_eq_some_iff.mp h
    obtain ⟨c, hc, hbadge⟩ := any_eq_true.mp hheld
    exact ⟨fs, hfs, ⟨c, hc, by simpa using hbadge⟩, rfl⟩
  · cases h

/-- Every capability is a file capability that has no more rights than the one it came through. -/
structure Inv (s₀ s : Client) : Prop where
  named : ∀ fs, s.fs = some fs → fs.Named
  badge : ∀ c ∈ s.held, c.badge ≠ 0
  via : ∀ c ∈ s.held, ∀ p, c.via = some p →
    (∃ d ∈ s.held, d.badge = p) ∧ FileRights.contains (rightsOf p) (rightsOf c.badge) = true
  lacks : ∀ right, s₀.Lacks right → s.Lacks right
  files : s₀.Lacks FileRights.write →
    ∀ fs₀ fs, s₀.fs = some fs₀ → s.fs = some fs → fs₀.KeepsFiles fs

theorem inv_of_start (h : s₀.Start checks) : Inv s₀ s₀ where
  named fs hfs := by
    obtain ⟨fs', calls, answers, hfs', hall⟩ := h.seeded
    cases hfs.symm.trans hfs'
    exact named_new.applyAll calls hall
  badge := h.badge
  via c hc p hp := by rw [h.via c hc] at hp; cases hp
  lacks _ hno := hno
  files _ fs₀ fs hfs₀ hfs := by
    cases hfs₀.symm.trans hfs
    exact fun _ _ hfile => hfile

theorem inv_step (hinv : Inv s₀ s) (hnames : r.NamesFit) (hstep : s.step checks r = some s') : Inv s₀ s' := by
  obtain ⟨fs, hfs, ⟨c, hc, hbadge⟩, rfl⟩ := step_cases hstep
  have hne : r.badge ≠ 0 := hbadge ▸ hinv.badge c hc
  have hround : Emits (Attenuated r.badge) (serveOne (inProcess checks) fs r) (Kept r fs) :=
    serveOne_emits (kept_contract hnames hne) ⟨hinv.named fs hfs, fun _ _ _ hfile => hfile⟩
  -- A capability is an old one, or was minted in this round.
  have hmem : ∀ d ∈ (s.served checks r fs).held, d ∈ s.held ∨
      d.via = some r.badge ∧ d.badge ≠ 0 ∧ contains (rightsOf r.badge) (rightsOf d.badge) = true := by
    intro d hd
    rcases mem_append.mp hd with hd | hd
    · exact .inl hd
    obtain ⟨badge, hmint, rfl⟩ := mem_map.mp hd
    obtain ⟨e, he, hcap⟩ := mem_filterMap.mp hmint
    have hatt := hround.effect e he
    cases e <;> cases hcap
    exact .inr ⟨rfl, hatt⟩
  refine ⟨fun fs' hfs' => (hround.value fs' hfs').1, fun d hd => ?_, fun d hd p hp => ?_, fun right hno d hd => ?_,
    fun hno fs₀ fs' hfs₀ hfs' => ?_⟩
  · exact (hmem d hd).elim (hinv.badge d) fun h => h.2.1
  · rcases hmem d hd with hold | ⟨hvia, -, hle⟩
    · obtain ⟨⟨e, he, hep⟩, hle⟩ := hinv.via d hold p hp
      exact ⟨⟨e, mem_append_left _ he, hep⟩, hle⟩
    · cases hvia.symm.trans hp
      exact ⟨⟨c, mem_append_left _ hc, hbadge⟩, hle⟩
  · rcases hmem d hd with hold | ⟨-, -, hle⟩
    · exact hinv.lacks right hno d hold
    have hparent := hinv.lacks right hno c hc
    rw [hbadge] at hparent
    by_contra hhas
    rw [contains_trans hle (by simpa using hhas)] at hparent
    cases hparent
  · have hparent := hinv.lacks _ hno c hc
    rw [hbadge] at hparent
    exact fun ino data hfile =>
      (hround.value fs' hfs').2 hparent ino data (hinv.files hno fs₀ fs hfs₀ hfs ino data hfile)

/-- What two clients that differ in the bytes of the files share. -/
structure Twin (s t : Client) : Prop where
  fs : Option.Rel RamFs.SameShape s.fs t.fs
  held : s.held = t.held
  seen : s.seen = t.seen

theorem twin_step (htwin : Twin s t) (hnames : r.NamesFit) (hbadge : ∀ c ∈ s.held, c.badge ≠ 0)
    (hread : s.Lacks FileRights.read) (hstep : s.step checks r = some s') : ∃ t', t.step checks r = some t' ∧ Twin s' t' := by
  obtain ⟨fs, hfs, ⟨c, hc, hcr⟩, rfl⟩ := step_cases hstep
  obtain ⟨hshape, hheld, hseen⟩ := htwin
  rw [hfs] at hshape
  generalize htfs : t.fs = tfs at hshape
  cases hshape with
  | @some _ fs' hsame =>
    have hno : FileRights.contains (Badge.unpack r.badge).rights FileRights.read = false := hcr ▸ hread c hc
    have halike := serveOne_alike (inProcess_blind checks) hsame hnames (hcr ▸ hbadge c hc) hno
    have hany : t.held.any (·.badge == r.badge) = true :=
      any_eq_true.mpr ⟨c, hheld ▸ hc, by simpa using hcr⟩
    refine ⟨t.served checks r fs', by simp only [step, hany, if_true, htfs, map_some], halike.value, ?_, ?_⟩
    · simp [served, hheld, halike.log]
    · simp [served, hseen, halike.log]

theorem twin_exec (rounds : List (Round RamFs)) : ∀ {s t : Client}, Twin s t → Inv s₀ s →
    (∀ r ∈ rounds, r.NamesFit) → s₀.Lacks FileRights.read → Runs.exec (step checks) s rounds = some s' →
    ∃ t', Runs.exec (step checks) t rounds = some t' ∧ Twin s' t' := by
  induction rounds with
  | nil =>
    intro s t htwin _ _ _ hrun
    cases hrun
    exact ⟨t, rfl, htwin⟩
  | cons r rounds ih =>
    intro s t htwin hinv hnames hno hrun
    obtain ⟨s₁, hstep, hrest⟩ := bind_eq_some_iff.mp hrun
    have hr := hnames r mem_cons_self
    obtain ⟨t₁, ht₁, htwin₁⟩ := twin_step htwin hr hinv.badge (hinv.lacks _ hno) hstep
    obtain ⟨t', ht', htwin'⟩ := ih htwin₁ (inv_step hinv hr hstep) (fun r' hr' => hnames r' (mem_cons_of_mem r hr')) hno hrest
    exact ⟨t', bind_eq_some_iff.mpr ⟨t₁, ht₁, ht'⟩, htwin'⟩

theorem inv_exec (hstart : s₀.Start checks) (hnames : ∀ r ∈ rounds, r.NamesFit)
    (hrun : Runs.exec (step checks) s₀ rounds = some s) : Inv s₀ s :=
  (Runs.reaches_of_exec (C := fun _ r => r.NamesFit) hrun fun r hr _ => hnames r hr).invariant
    (inv_of_start hstart) fun _ _ _ hinv hr hstep => inv_step hinv hr hstep

def oneFile : RamFs :=
  match (inProcess true).applyAll new [.create 0 [97] .file, .write 1 0 [7]] with
  | some (fs, _) => fs
  | none => new

def reader : Client where
  fs := some oneFile
  held := [⟨Badge.pack ⟨0, FileRights.read⟩, none⟩]

theorem reader_start : reader.Start true where
  seeded := ⟨oneFile, [.create 0 [97] .file, .write 1 0 [7]], [.inode (.ok 1), .count (.ok 1)], rfl, rfl⟩
  badge := by decide
  via := by decide

theorem reader_lacks_write : reader.Lacks FileRights.write := by unfold Lacks; decide

def overwritten (fs : RamFs) : RamFs := fs.setNode 1 (Node.new (.file [0]))

end Client

end SnitchOs.Fs
